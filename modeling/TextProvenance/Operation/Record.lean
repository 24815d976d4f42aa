import TextProvenance.Json.Printer
import TextProvenance.Json.Reader
import TextProvenance.Json.Record
import TextProvenance.Operation

/-!
# Operations and locations as JSON

Both are records.  An operation needs its name; everything else may be left out.
-/

namespace TextProvenance

namespace Location

/-- The keys of a location in JSON. -/
def keys : List String := ["filename", "line", "column", "function"]

/-- A location as JSON. -/
def toJson (l : Location) : Json :=
  .object [("filename", .text l.filename), ("line", .natural l.line.toNat),
    ("column", .natural l.column.toNat), ("function", .text l.function)]

/-- The location that a JSON value is. -/
def ofJson? (j : Json) : Option Location := do
  match ← j.record keys with
  | [filename, line, column, function] =>
    return {
      filename := ← Json.optional "" Json.toText? filename
      line := ← Json.optional 0 Json.toUInt32? line
      column := ← Json.optional 0 Json.toUInt32? column
      function := ← Json.optional "" Json.toText? function }
  | _ => none

/-- The location that a text is. -/
def parse? (text : String) : Option Location := Json.parse? text >>= ofJson?

end Location

namespace Operation

/-- The keys of an operation in JSON. -/
def keys : List String := ["name", "native", "location", "arguments"]

/-- The field of a location, if there is one. -/
def locationField (o : Operation) : List (String × Json) :=
  match o.location with
  | some l => [("location", l.toJson)]
  | none => []

/-- The arguments as JSON. -/
def argumentsJson (o : Operation) : Json := .array (o.arguments.map .text)

/-- An operation as JSON. -/
def toJson (o : Operation) : Json :=
  .object ([("name", .text o.name), ("native", .bool o.native)] ++ o.locationField ++
    [("arguments", o.argumentsJson)])

/-- The operation that a JSON value is. -/
def ofJson? (j : Json) : Option Operation := do
  match ← j.record keys with
  | [name, native, location, arguments] =>
    return {
      name := ← Json.required Json.toText? name
      native := ← Json.optional false Json.toBool? native
      location := ← Json.optional none (Json.toOption? Location.ofJson?) location
      arguments := ← Json.optional [] Json.toTexts? arguments }
  | _ => none

/-- The operation that a text is. -/
def parse? (text : String) : Option Operation := Json.parse? text >>= ofJson?

end Operation

end TextProvenance
