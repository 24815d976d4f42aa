import TextProvenance.Edit
import TextProvenance.Taint.Builder

/-!
# Moving and joining taint

What happens to the taint of a text when text is put behind it (`concat`), when room is made in it
or text is deleted from it (`shift`), and when tainted text is put into that room (`insert`).

`Taint.shiftInWords` is the same as `Taint.shift` with one pass for each direction: a range is split
by the bounds of the room or of what is deleted, and the bounds of every part are checked.
-/

namespace TextProvenance

/-- What becomes of a range when positions from `index` on move by `amount`: the part in front of
what is deleted stays, and the part from `index` on moves. -/
def Range.shiftedFrom (r : Range) (index : Nat) (amount : Int) : Except Fault (List Range) := do
  let kept := r.before (min index (index + amount).toNat)
  let outside := if index ≤ r.start then .rangeMovedOut amount else (.positionMovedOut · amount)
  let moved ← (r.after index).mapM (·.moved amount outside)
  return kept ++ moved

/-- Other bounds under the chain of a range, both of them moved. -/
def Range.withBoundsMoved (r : Range) (start stop : Nat) (amount : Int) : Except Fault Range := do
  let start ← Position.move start amount (.positionMovedOut start amount)
  let stop ← Position.move stop amount (.positionMovedOut stop amount)
  r.withBounds start stop

/-- What becomes of a range when room for `amount` positions is made at `index`, in machine
words. -/
def Range.openedInWords (r : Range) (index : Nat) (amount : Int) : Except Fault (List Range) :=
  if index ≤ r.start then ([·]) <$> r.shifted amount
  else if index < r.stop then do
    let inFront ← r.withBounds r.start index
    let behind ← r.withBoundsMoved index r.stop amount
    return [inFront, behind]
  else return [r]

/-- The part of a range before position `p`, with its bounds checked. -/
def Range.beforeInWords (r : Range) (p : Nat) : Except Fault (List Range) :=
  if r.start < p then ([·]) <$> r.withBounds r.start (min r.stop p) else .ok []

/-- The part of a range from `index` on, moved in machine words. -/
def Range.carriedInWords (r : Range) (index : Nat) (amount : Int) : Except Fault (List Range) :=
  if index < r.stop then ([·]) <$> r.withBoundsMoved (max r.start index) r.stop amount else .ok []

/-- What becomes of a range when the positions from `target` up to `index` are deleted, in machine
words; `amount` leads from `index` to `target`. -/
def Range.closedInWords (r : Range) (target index : Nat) (amount : Int) :
    Except Fault (List Range) := do
  let inFront ← r.beforeInWords target
  let behind ← r.carriedInWords index amount
  return inFront ++ behind

namespace Taint

/-- Puts the taint of a text behind this one, which is `offset` long. -/
def concat (other : Taint) (offset : Nat) : Edit Taint := fun t =>
  if offset < t.stop then Edit.fail (.concatBeforeEnd offset t.stop) t
  else
    Edit.given (other.ranges.mapM (·.shifted offset)) (fun moved =>
      Edit.forEach moved fun r => Edit.step (·.append r)) t

/-- The taint of one text, `leftLength` long, and another behind it. -/
def concatOf (left : Taint) (leftLength : Nat) (right : Taint) : Except Fault Taint :=
  (concat right leftLength).result left

/-- Accounts for `amount` positions inserted at `index`, or deleted in front of it if `amount` is
negative. -/
def shift (t : Taint) (index : Nat) (amount : Int) : Except Fault Taint := do
  let target ← Position.sum index amount
  if target < 0 then
    .error (.beforeTextStart index amount)
  else if ¬ t.isTainted ∨ amount = 0 then
    return t
  else
    let pieces ← t.ranges.mapM (·.shiftedFrom index amount)
    ofRanges pieces.flatten

/-- Accounts for `amount` positions inserted at `index`, or deleted in front of it, in machine
words. -/
def shiftInWords (t : Taint) (index : Nat) (amount : Int) : Except Fault Taint := do
  let target ← Position.sum index amount
  if target < 0 then
    .error (.beforeTextStart index amount)
  else if ¬ t.isTainted ∨ amount = 0 then
    return t
  else
    checkRoom t.rangeCount 1
    if 0 < amount then
      let pieces ← t.ranges.mapM (·.openedInWords index amount)
      ofRanges pieces.flatten
    else
      let target ← Position.move index amount (.positionMovedOut index amount)
      let pieces ← t.ranges.mapM (·.closedInWords target index amount)
      ofRanges pieces.flatten

/-- The ranges that start before `index`; all of them must stop there. -/
def rangesBefore (t : Taint) (index : Nat) : Except Fault (List Range) :=
  let front := t.ranges.takeWhile (·.start < index)
  match front.find? (index < ·.stop) with
  | some r => .error (.crossesInsertion r.start r.stop index)
  | none => .ok front

/-- The ranges that start at `index` or later; all of them must start at `blockEnd` or later. -/
def rangesFrom (t : Taint) (index blockEnd : Nat) : Except Fault (List Range) :=
  let back := t.ranges.dropWhile (·.start < index)
  match back.find? (·.start < blockEnd) with
  | some r => .error (.overlapsInserted r.start r.stop blockEnd)
  | none => .ok back

/-- Puts other taint at `index`, into a place that holds no taint. -/
def insert (t : Taint) (index : Nat) (other : Taint) : Except Fault Taint := do
  let front ← t.rangesBefore index
  let moved ← other.ranges.mapM (·.shifted index)
  let built ← Builder.empty.pushAll (front ++ moved)
  let back ← t.rangesFrom index (max built.stop index)
  let built ← built.pushAll back
  return built.finish

/-- Puts other taint at `index`, with the number of ranges worked out in a machine word. -/
def insertInWords (t : Taint) (index : Nat) (other : Taint) : Except Fault Taint := do
  checkRoom t.rangeCount other.rangeCount
  t.insert index other

end Taint

end TextProvenance
