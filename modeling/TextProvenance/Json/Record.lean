import TextProvenance.Json.Basic

/-!
# JSON records

A record with known keys is an object, or an array of the values in the order of the keys.  An
object may leave out keys and have others besides, but names no known key twice; an array may stop
early.  What is left out takes the default of its field, if the field has one.
-/

namespace TextProvenance.Json

/-- The value of a key in the fields of an object: there may be none, but not two. -/
def lookup (fields : List (String × Json)) (key : String) : Option (Option Json) :=
  match fields.filter (·.1 == key) with
  | [] => some none
  | [field] => some (some field.2)
  | _ => none

/-- The values that a record has for the given keys. -/
def record (keys : List String) : Json → Option (List (Option Json))
  | object fields => keys.mapM (lookup fields)
  | array items =>
    if items.length ≤ keys.length then
      some (items.map some ++ List.replicate (keys.length - items.length) none)
    else none
  | _ => none

/-- A field that every record has. -/
def required {α : Type} (read : Json → Option α) (field : Option Json) : Option α :=
  field.bind read

/-- A field with a default. -/
def optional {α : Type} (default : α) (read : Json → Option α) : Option Json → Option α
  | none => some default
  | some value => read value

/-- The truth value in a field. -/
def toBool? : Json → Option Bool
  | bool b => some b
  | _ => none

/-- The number in a field that holds a 32-bit word. -/
def toUInt32? : Json → Option UInt32
  | natural n => if n < UInt32.size then some (.ofNat n) else none
  | _ => none

/-- The number in a field that holds a 64-bit word. -/
def toUInt64? : Json → Option UInt64
  | natural n => if n < UInt64.size then some (.ofNat n) else none
  | _ => none

/-- The text in a field. -/
def toText? : Json → Option String
  | text s => some s
  | _ => none

/-- The texts in a field. -/
def toTexts? : Json → Option (List String)
  | array items => items.mapM toText?
  | _ => none

/-- A value, or nothing where the field holds `null`. -/
def toOption? {α : Type} (read : Json → Option α) : Json → Option (Option α)
  | null => some none
  | value => some <$> read value

end TextProvenance.Json
