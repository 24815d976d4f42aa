import TextProvenance.Text.Basic

/-!
# Splitting texts

A text is split at every occurrence of a separator, from the left and without overlaps; an empty
separator splits it into its characters.
-/

namespace TextProvenance.Text

/-- The pieces of `chars` between occurrences of a separator; `piece` holds the characters in front
of them that belong to the first piece, the last one first. -/
def splitOn (separator : List Char) (piece chars : List Char) : List (List Char) :=
  match chars with
  | [] => [piece.reverse]
  | c :: rest =>
    if separator.isPrefixOf (c :: rest) then
      piece.reverse :: splitOn separator [] (rest.drop (separator.length - 1))
    else splitOn separator (c :: piece) rest
termination_by chars.length
decreasing_by
  · simp only [List.length_drop, List.length_cons]; omega
  · simp

/-- The pieces of `chars` between occurrences of a separator; its characters, if that is empty. -/
def pieces (separator chars : List Char) : List (List Char) :=
  if separator.isEmpty then chars.map ([·]) else splitOn separator [] chars

/-- The pieces of a text as texts of their own, each recorded with its index.  The first of them
starts at `start` and has the index `index`. -/
def recordPieces (s : Text) (separator : String) (start index : Nat) (recorder : Recorder) :
    List (List Char) → Except Fault (List Text × Recorder)
  | [] => .ok ([], recorder)
  | piece :: rest => do
    let stop := start + Utf8.byteLength piece
    let window ← s.taint.subtaint (← Position.ofOffset start) (← Position.ofOffset stop)
    let (taint, recorder) := recorder.record window "split" [separator, toString index]
    let next := stop + Utf8.byteLength separator.toList
    let (parts, recorder) ← s.recordPieces separator next (index + 1) recorder rest
    return ({ value := String.ofList piece, taint } :: parts, recorder)

/-- The parts in front of the first piece that cannot be cut out, and the recorder after them. -/
def recordInFront (s : Text) (separator : String) (start index : Nat) (recorder : Recorder) :
    List (List Char) → List Text × Recorder
  | [] => ([], recorder)
  | piece :: rest =>
    match s.recordPieces separator start index recorder [piece] with
    | .error _ => ([], recorder)
    | .ok (first, recorder) =>
      let next := start + Utf8.byteLength piece + Utf8.byteLength separator.toList
      let (others, recorder) := s.recordInFront separator next (index + 1) recorder rest
      (first ++ others, recorder)

/-- The parts of a text between occurrences of a separator. -/
def split (s : Text) (separator : String) (recorder : Recorder) :
    Except Fault (List Text × Recorder) :=
  s.recordPieces separator 0 0 recorder (pieces separator.toList s.characters)

/-- What a split that fails has made and recorded in front of where it fails. -/
def splitInFront (s : Text) (separator : String) (recorder : Recorder) : List Text × Recorder :=
  s.recordInFront separator 0 0 recorder (pieces separator.toList s.characters)

end TextProvenance.Text
