/-!
# Locations

Where in a script an operation happened.  Every field is empty or zero where it is not known.
-/

namespace TextProvenance

/-- A script location. -/
structure Location where
  /-- File name or address of the script. -/
  filename : String := ""
  /-- Line number, from 1; 0 if unknown. -/
  line : UInt32 := 0
  /-- Column number, from 1; 0 if unknown. -/
  column : UInt32 := 0
  /-- Name of the enclosing function; empty at top level. -/
  function : String := ""
deriving DecidableEq, Inhabited

namespace Location

/-- No field is known. -/
def isUnknown (l : Location) : Bool := l == {}

/-- One-line description: `file:line:column (function)`. -/
def describe (l : Location) : String :=
  if l.isUnknown then "<unknown>"
  else
    let place := s!"{l.filename}:{l.line}:{l.column}"
    if l.function.isEmpty then place else s!"{place} ({l.function})"

end Location

end TextProvenance
