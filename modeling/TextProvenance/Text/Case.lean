import TextProvenance.Text.Basic
import TextProvenance.Unicode.Casing

/-!
# Texts in upper and lower case

Every character is mapped to one or more characters; all bytes of the image of a character carry the
chain of its first tainted byte.
-/

namespace TextProvenance.Text

/-- The ranges of the images of characters; the first image starts at the offset `done`. -/
def imageRanges (map : Char → List Char) (taint : Taint) (done : Nat) :
    List (Char × Nat × Nat) → Except Fault (List Range)
  | [] => .ok []
  | (c, start, stop) :: rest => do
    let lo ← Position.ofOffset start
    let hi ← Position.ofOffset stop
    let imageStop := done + Utf8.byteLength (map c)
    let range ← match taint.firstChainIn lo hi with
      | some chain => do
        pure [← Range.ofBounds (← Position.ofOffset done) (← Position.ofOffset imageStop) chain]
      | none => pure []
    return range ++ (← imageRanges map taint imageStop rest)

/-- The text with every character mapped, recorded under `name`. -/
def mapCharacters (s : Text) (map : Char → List Char) (name : String) (recorder : Recorder) :
    Except Fault (Text × Recorder) := do
  let ranges ← imageRanges map s.taint 0 (Utf8.placed 0 s.characters)
  let mapped ← Taint.ofRanges ranges
  let (taint, recorder) := recorder.record mapped name []
  return ({ value := String.ofList (s.characters.flatMap map), taint }, recorder)

/-- The text in lower case. -/
def lower (s : Text) (recorder : Recorder) : Except Fault (Text × Recorder) :=
  s.mapCharacters Unicode.toLower "toLowerCase" recorder

/-- The text in upper case. -/
def upper (s : Text) (recorder : Recorder) : Except Fault (Text × Recorder) :=
  s.mapCharacters Unicode.toUpper "toUpperCase" recorder

end TextProvenance.Text
