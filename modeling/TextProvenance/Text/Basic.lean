import TextProvenance.Recorder
import TextProvenance.Taint.Overwrite
import TextProvenance.Utf8

/-!
# Texts with their taint

A text is a string together with the taint of its bytes: positions are offsets into the UTF-8
encoding.
-/

namespace TextProvenance

/-- A string with the taint of its bytes. -/
structure Text where
  value : String
  taint : Taint := .untainted
deriving DecidableEq, Inhabited

namespace Text

/-- The characters of the value. -/
def characters (s : Text) : List Char := s.value.toList

/-- Length of the value in bytes. -/
def length (s : Text) : Nat := Utf8.byteLength s.characters

/-- The value has no characters. -/
def isEmpty (s : Text) : Bool := s.characters.isEmpty

/-- Some byte is tainted. -/
def isTainted (s : Text) : Bool := s.taint.isTainted

/-- The same value with other taint. -/
def withTaint (s : Text) (taint : Taint) : Text := { s with taint }

/-- A text whose every byte carries one chain. -/
def ofChain (value : String) (chain : Chain) : Except Fault Text := do
  let stop ← Position.ofOffset (Utf8.byteLength value.toList)
  let taint ← Taint.ofRange (← Range.ofBounds 0 stop chain)
  return { value, taint }

/-- A value with taint that does not reach past its end. -/
def ofTaint (value : String) (taint : Taint) : Except Fault Text :=
  let length := Utf8.byteLength value.toList
  if taint.stop ≤ length then .ok { value, taint } else .error (.taintBeyondText taint.stop length)

/-- The text with all taint replaced by one chain on the window `[start, stop)`. -/
def markSource (s : Text) (start stop : Nat) (chain : Chain) : Except Fault Text := do
  if stop ≤ s.length then
    let start ← Position.ofOffset start
    let stop ← Position.ofOffset stop
    let taint ← Taint.ofRange (← Range.ofBounds start stop chain)
    return s.withTaint taint
  else .error (.sourceBeyondText start stop s.length)

/-- The text without its taint. -/
def untaint (s : Text) : Text := s.withTaint .untainted

/-- The value taken apart at two offsets. -/
def cut (s : Text) (start stop : Nat) : Except Fault Utf8.Cut :=
  match Utf8.cut? start stop s.characters with
  | some cut => .ok cut
  | none => .error .offCharacters

/-- The window `[start, stop)` as a text of its own, recorded as a substring. -/
def substring (s : Text) (start stop : Nat) (recorder : Recorder) :
    Except Fault (Text × Recorder) := do
  let cut ← s.cut start stop
  let lo ← Position.ofOffset start
  let hi ← Position.ofOffset stop
  let window ← s.taint.subtaint lo hi
  let (taint, recorder) := recorder.record window "substring" [toString start, toString stop]
  return ({ value := String.ofList cut.middle, taint }, recorder)

/-- Two texts one behind the other.  Nothing is recorded. -/
def concat (s other : Text) : Except Fault Text := do
  let position ← Position.ofOffset s.length
  let taint ← Taint.concatOf s.taint position other.taint
  return { value := s.value ++ other.value, taint }

end Text

end TextProvenance
