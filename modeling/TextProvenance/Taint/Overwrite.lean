import TextProvenance.Taint.Splice
import TextProvenance.Taint.Window

/-!
# Overwriting taint

Attaching ranges in any order: what is attached later replaces what was there.

`Taint.addRangeInOnePass` does the same as `Taint.addRange` and looks at every range once.
`Taint.addRangeInWords` is that pass with the bounds of every range that it cuts checked.
-/

namespace TextProvenance.Taint

/-- Attaches a range in place of the taint in its span. -/
def addRange (t : Taint) (r : Range) : Except Fault Taint :=
  if r.IsEmpty then .ok t
  else
    ofRanges (t.ranges.flatMap (·.before r.start) ++ r :: t.ranges.flatMap (·.after r.stop))

/-- Attaches every range of `other`, one after the other. -/
def addTaint (other : Taint) : Edit Taint :=
  Edit.forEach other.ranges fun r => Edit.step (·.addRange r)

/-! ## In one pass -/

/-- The ranges with `r` in place of what they have in its span.  The ranges are passed in order, and
`r` is held back until one of them reaches behind it. -/
def attached (r : Range) : List Range → List Range
  | [] => [r]
  | x :: rest =>
    if r.stop ≤ x.start then r :: x :: rest
    else if r.start < x.stop then
      if r.stop < x.stop then x.before r.start ++ r :: (x.after r.stop ++ rest)
      else x.before r.start ++ attached r rest
    else x :: attached r rest

/-- Attaches a range in one pass over the ranges.  At or behind the end it is appended. -/
def addRangeInOnePass (t : Taint) (r : Range) : Except Fault Taint :=
  if r.IsEmpty then .ok t
  else if t.stop ≤ r.start then t.append r
  else ofRanges (attached r t.ranges)

/-- Attaches ranges one after the other, each in one pass. -/
def attachInOnePass (ranges : List Range) : Edit Taint :=
  Edit.forEach ranges fun r => Edit.step (·.addRangeInOnePass r)

/-- The ranges with `r` in place of what they have in its span, with the bounds of the ranges that
are cut checked. -/
def attachedInWords (r : Range) : List Range → Except Fault (List Range)
  | [] => .ok [r]
  | x :: rest =>
    if r.stop ≤ x.start then .ok (r :: x :: rest)
    else if r.start < x.stop then do
      let inFront ← Range.spanInWords x.start r.start x.chain
      if r.stop < x.stop then
        let behind ← x.withBounds r.stop x.stop
        return inFront ++ r :: behind :: rest
      else
        let attached ← attachedInWords r rest
        return inFront ++ attached
    else (x :: ·) <$> attachedInWords r rest

/-- Attaches a range in one pass over the ranges, in machine words. -/
def addRangeInWords (t : Taint) (r : Range) : Except Fault Taint :=
  if r.IsEmpty then .ok t
  else if t.stop ≤ r.start then t.append r
  else do
    checkRoom t.rangeCount 2
    let attached ← attachedInWords r t.ranges
    ofRanges attached

/-- Attaches every range of `other`, one after the other, in machine words. -/
def addTaintInWords (other : Taint) : Edit Taint :=
  Edit.forEach other.ranges fun r => Edit.step (·.addRangeInWords r)

/-! ## Single positions -/

/-- The taint of a single position. -/
def ofPosition (index : Nat) (chain : Chain) : Except Fault Taint := do
  ofRange (← Range.ofBounds index (index + 1) chain)

/-- Gives the position `index` a chain.  At or behind the end this appends; further in front, the
position is cleared first. -/
def set (index : Nat) (chain : Chain) : Edit Taint := fun t =>
  if Position.last ≤ index then Edit.fail (.noFollowingPosition index) t
  else if t.stop ≤ index then
    Edit.given (Range.ofBounds index (index + 1) chain) (fun r => Edit.step (·.append r)) t
  else
    (Edit.step (·.clearAt index)).andThen
      (Edit.given (ofPosition 0 chain) fun single => Edit.step (·.insert index single)) t

/-- Gives the position `index` a chain, in machine words. -/
def setInWords (index : Nat) (chain : Chain) : Edit Taint := fun t =>
  if Position.last ≤ index then Edit.fail (.noFollowingPosition index) t
  else if t.stop ≤ index then
    Edit.given (Range.ofBounds index (index + 1) chain) (fun r => Edit.step (·.append r)) t
  else
    (Edit.step (·.clearAtInWords index)).andThen
      (Edit.given (ofPosition 0 chain) fun single => Edit.step (·.insertInWords index single)) t

end TextProvenance.Taint
