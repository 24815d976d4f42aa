/-!
# Faults

Why an operation on taint or on text refuses its arguments.  Every cause is a constructor that
carries the numbers it is about; the wording is in one place, `Fault.message`.

Two causes have no wording: a sum that leaves its machine word, and offsets that do not cut a text
between characters.
-/

namespace TextProvenance

/-- What a window of positions is wanted for. -/
inductive WindowUse
  | cutting
  | clearing
  | overlaying
deriving DecidableEq

/-- The word for the use of a window in messages. -/
def WindowUse.label : WindowUse → String
  | .cutting => "subtaint"
  | .clearing => "clear"
  | .overlaying => "overlay"

/-- Why an operation refuses its arguments. -/
inductive Fault
  /-- A sum leaves the machine word it is computed in. -/
  | overflow
  /-- Offsets are beyond the text, in the wrong order, or inside a character. -/
  | offCharacters
  /-- A range would start after it stops. -/
  | invertedRange (start stop : Nat)
  /-- A window starts after it stops. -/
  | invertedWindow (use : WindowUse) (start stop : Nat)
  /-- A range moved by `amount` has a bound, now at `position`, that leaves the positions. -/
  | rangeMovedOut (amount : Int) (position : Nat)
  /-- A position moved by `amount` leaves the positions. -/
  | positionMovedOut (position : Nat) (amount : Int)
  /-- A range is appended that starts before the last one stops. -/
  | appendedBeforeEnd (start stop last : Nat)
  /-- The right-hand side of a concatenation starts before the left-hand side stops. -/
  | concatBeforeEnd (offset last : Nat)
  /-- A deletion would remove more than what lies before `index`. -/
  | beforeTextStart (index : Nat) (amount : Int)
  /-- A range lies across the position where taint is inserted. -/
  | crossesInsertion (start stop index : Nat)
  /-- A range starts inside the inserted block. -/
  | overlapsInserted (start stop blockEnd : Nat)
  /-- The last position has no following position. -/
  | noFollowingPosition (position : Nat)
  /-- A base conversion between units of no width. -/
  | zeroWidth
  /-- An offset into a text is too large for a position. -/
  | offsetTooLarge (offset : Nat)
  /-- Taint reaches past the end of its text. -/
  | taintBeyondText (last length : Nat)
  /-- A source window reaches past the end of its text. -/
  | sourceBeyondText (start stop length : Nat)
deriving DecidableEq

namespace Fault

/-- The wording of a fault; `none` for the causes that have none. -/
def message : Fault → Option String
  | overflow => none
  | offCharacters => none
  | invertedRange start stop => some s!"inverted taint range {start} - {stop}"
  | invertedWindow use start stop => some s!"inverted {use.label} window {start} - {stop}"
  | rangeMovedOut amount position =>
    some s!"taint range shift by {amount} out of bounds at {position}"
  | positionMovedOut position amount =>
    some s!"taint position {position} shifted by {amount} out of bounds"
  | appendedBeforeEnd start stop last =>
    some s!"taint range {start} - {stop} appended before previous end {last}"
  | concatBeforeEnd offset last => some s!"concat offset {offset} before taint end {last}"
  | beforeTextStart index amount =>
    some s!"shift by {amount} at {index} moves before the string start"
  | crossesInsertion start stop index =>
    some s!"taint range {start} - {stop} crosses insertion point {index}"
  | overlapsInserted start stop blockEnd =>
    some s!"taint range {start} - {stop} overlaps inserted taint ending at {blockEnd}"
  | noFollowingPosition position => some s!"taint position {position} has no following position"
  | zeroWidth => some "zero unit width in base conversion"
  | offsetTooLarge offset => some s!"string offset {offset} exceeds taint position range"
  | taintBeyondText last length => some s!"taint ends at {last} beyond string length {length}"
  | sourceBeyondText start stop length =>
    some s!"source window {start} - {stop} beyond string length {length}"

end Fault

end TextProvenance
