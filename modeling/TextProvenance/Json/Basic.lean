/-!
# JSON values

A field of a record holds a truth value, a natural number, a text, a list or another record.  Any
other well-formed value is kept as it was spelled: it may be passed over, but no field can hold it.
-/

namespace TextProvenance

/-- A JSON value. -/
inductive Json
  | null
  | bool (b : Bool)
  | natural (n : Nat)
  | text (s : String)
  | array (items : List Json)
  | object (fields : List (String × Json))
  /-- A well-formed value that no field can hold: a number that is not written as a natural one, or
  a value whose texts have an unpaired surrogate. -/
  | foreign (spelling : String)
deriving Inhabited

end TextProvenance
