import TextProvenance.Json.Printer
import TextProvenance.Json.Reader
import TextProvenance.Json.Record

/-!
# Configuration

The settings of recording, and how they are read from the contents of a file.
-/

namespace TextProvenance

/-- The settings of recording. -/
structure Config where
  /-- Built-in operations on texts are recorded. -/
  enabled : Bool := true
  /-- Longer arguments are cut to this number of characters. -/
  maxArgumentLength : UInt64 := 128
  /-- Operations carry the location of their call. -/
  recordLocations : Bool := true
deriving DecidableEq, Inhabited

namespace Config

/-- The keys of a configuration in JSON. -/
def keys : List String := ["enabled", "max_argument_length", "record_locations"]

/-- A configuration as JSON. -/
def toJson (c : Config) : Json :=
  .object [("enabled", .bool c.enabled),
    ("max_argument_length", .natural c.maxArgumentLength.toNat),
    ("record_locations", .bool c.recordLocations)]

/-- The configuration that a JSON value is; keys left out take their defaults. -/
def ofJson? (j : Json) : Option Config := do
  match ← j.record keys with
  | [enabled, maxArgumentLength, recordLocations] =>
    return {
      enabled := ← Json.optional true Json.toBool? enabled
      maxArgumentLength := ← Json.optional 128 Json.toUInt64? maxArgumentLength
      recordLocations := ← Json.optional true Json.toBool? recordLocations }
  | _ => none

/-- The configuration that a text is. -/
def parse? (text : String) : Option Config := Json.parse? text >>= ofJson?

/-- Why a configuration file gives no configuration. -/
inductive LoadError
  /-- There is no file, or its bytes are no text. -/
  | unreadable
  /-- The text is no configuration. -/
  | malformed
deriving DecidableEq

/-- The configuration in a file with the given contents; `none` if there is no file. -/
def load (contents : Option ByteArray) : Except LoadError Config :=
  match contents.bind String.fromUTF8? with
  | none => .error .unreadable
  | some text =>
    match parse? text with
    | none => .error .malformed
    | some config => .ok config

end Config

end TextProvenance
