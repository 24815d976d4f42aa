import TextProvenance.Text.Basic

/-!
# Editing texts in place

Value and taint are changed one after the other, so an edit that fails half-way leaves the value
changed and the taint not, or the other way round.
-/

namespace TextProvenance.Text

/-- An edit of the taint alone. -/
def onTaint (edit : Edit Taint) : Edit Text := Edit.within Text.taint Text.withTaint edit

/-- Accounts for `amount` bytes inserted at a position, or deleted in front of it. -/
def shiftTaint (position : Nat) (amount : Int) : Edit Text :=
  onTaint (Edit.step (·.shift position amount))

/-- Makes room for other taint at a position, and puts it there. -/
def spliceTaint (position : Nat) (other : Text) : Edit Text :=
  Edit.given (Position.ofOffset other.length) fun length =>
    (shiftTaint position length).andThen
      (onTaint (Edit.step (·.insert position other.taint)))

/-- Sets the value, whatever the taint. -/
def setValue (value : String) : Edit Text := fun s => { state := { s with value } }

/-- Puts another value in the place of the bytes `[start, stop)`, whatever the taint. -/
def replaceValue (start stop : Nat) (value : String) : Edit Text := fun s =>
  Edit.given (s.cut start stop) (fun cut => setValue (String.ofList (cut.fill value.toList))) s

/-- Puts another text behind this one. -/
def push (other : Text) : Edit Text := fun s =>
  Edit.given (Position.ofOffset s.length) (fun position =>
    (onTaint (Taint.concat other.taint position)).andThen
      (setValue (s.value ++ other.value))) s

/-- Puts another text into this one at an offset.  An empty text changes nothing, whatever the
offset. -/
def insert (index : Nat) (other : Text) : Edit Text :=
  if other.isEmpty then Edit.nothing
  else
    (replaceValue index index other.value).andThen <|
      Edit.given (Position.ofOffset index) fun position => spliceTaint position other

/-- Deletes the bytes `[start, stop)`. -/
def remove (start stop : Nat) : Edit Text :=
  (replaceValue start stop "").andThen <|
    Edit.given (Position.ofOffset stop) fun position =>
      Edit.given (Position.ofOffset (stop - start)) fun removed => shiftTaint position (-removed)

/-- Puts another text in the place of the bytes `[start, stop)` of a text that is taken apart there
as `cut`.  Nothing is recorded. -/
def substitute (cut : Utf8.Cut) (start stop : Nat) (other : Text) : Edit Text :=
  Edit.given (Position.ofOffset start) fun position =>
    Edit.given (Position.ofOffset (stop - start)) fun removed =>
      (setValue (String.ofList (cut.fill other.characters))).andThen <|
        Edit.given (Position.add position removed) fun removedStop =>
          (shiftTaint removedStop (-removed)).andThen <|
            if other.isEmpty then Edit.nothing else spliceTaint position other

/-- Records a built-in operation on a text. -/
def recordOn (name : String) (arguments : List String) : Edit (Text × Recorder) :=
  fun (s, recorder) =>
    let (taint, recorder) := recorder.record s.taint name arguments
    { state := (s.withTaint taint, recorder) }

/-- Puts another text in the place of the bytes `[start, stop)`, recorded as a replacement. -/
def replace (start stop : Nat) (other : Text) : Edit (Text × Recorder) := fun (s, recorder) =>
  Edit.given (s.cut start stop) (fun cut =>
    (Edit.within Prod.fst (fun state s => (s, state.2)) (substitute cut start stop other)).andThen
      (recordOn "replace" [String.ofList cut.middle, other.value])) (s, recorder)

/-- The taint of the bytes `[start, stop)` of a text, moved right from `start` by `offset`. -/
def movedWindow (source : Text) (start stop offset : Nat) : Except Fault Taint := do
  let lo ← Position.ofOffset start
  let hi ← Position.ofOffset stop
  let window ← source.taint.subtaint lo hi
  let target ← Offset.sum start offset
  let position ← Position.ofOffset target
  Taint.concatOf .untainted position window

/-- Copies taint from the bytes `[start, stop)` of another text to the bytes `offset` further right
in this one; without `stop`, from everything behind `start`. -/
def copyTaint (source : Text) (start offset : Nat) (stop : Option Nat) : Edit Text :=
  let stop := stop.getD source.length
  if stop ≤ start then Edit.nothing
  else Edit.given (source.movedWindow start stop offset) fun moved => onTaint (Taint.addTaint moved)

end TextProvenance.Text
