import TextProvenance.Taint.Builder

/-!
# Windows of taint

Cutting the window `[start, stop)` out of the taint of a text, and clearing it.  Ranges that
straddle a bound of the window are split there.

`Taint.subtaintInWords` and `Taint.clearBetweenInWords` are the same as `Taint.subtaint` and
`Taint.clearBetween` with all arithmetic in machine words, where a difference may be negative, and
with the bounds of every part checked.
-/

namespace TextProvenance

/-- The part of a range in a window, counted from the start of the window. -/
def Range.inWindow (r : Range) (start stop : Nat) : List Range :=
  Range.span (max r.start start - start) (min r.stop stop - start) r.chain

/-- The part of a range in a window that it overlaps, counted from the start of the window, in
machine words. -/
def Range.inWindowInWords (r : Range) (start stop : Nat) : Except Fault Range := do
  let first ← Position.difference (max r.start start) start
  let last ← Position.difference (min r.stop stop) start
  r.withBounds first last

/-- What a range has outside of a window, with the bounds of a range that is cut checked. -/
def Range.outsideInWords (r : Range) (start stop : Nat) : Except Fault (List Range) :=
  if r.Overlaps start stop then do
    let inFront ← Range.spanInWords r.start start r.chain
    let behind ← Range.spanInWords stop r.stop r.chain
    return inFront ++ behind
  else return [r]

namespace Taint

/-- A window must not start after it stops. -/
def checkWindow (use : WindowUse) (start stop : Nat) : Except Fault Unit :=
  if start ≤ stop then .ok () else .error (.invertedWindow use start stop)

/-- The taint of the part `[start, stop)` of the text, counted from its start. -/
def subtaint (t : Taint) (start stop : Nat) : Except Fault Taint := do
  checkWindow .cutting start stop
  ofRanges (t.ranges.flatMap (·.inWindow start stop))

/-- The taint of the part `[start, stop)`, worked out in machine words from the ranges that overlap
it.  A range around an empty window overlaps it, and its part there is empty. -/
def subtaintInWords (t : Taint) (start stop : Nat) : Except Fault Taint := do
  checkWindow .cutting start stop
  let overlapping := t.ranges.filter fun r => decide (r.Overlaps start stop)
  ofRanges (← overlapping.mapM (·.inWindowInWords start stop))

/-- The taint without that of `[start, stop)`. -/
def clearBetween (t : Taint) (start stop : Nat) : Except Fault Taint := do
  checkWindow .clearing start stop
  ofRanges (t.ranges.flatMap fun r => r.before start ++ r.after stop)

/-- The taint without that of the position `index`. -/
def clearAt (t : Taint) (index : Nat) : Except Fault Taint := t.clearBetween index (index + 1)

/-- The taint without that of `[start, stop)`, worked out in machine words.  An empty window, and
taint without ranges, are left alone. -/
def clearBetweenInWords (t : Taint) (start stop : Nat) : Except Fault Taint := do
  checkWindow .clearing start stop
  if ¬ t.isTainted ∨ start = stop then return t
  else
    checkRoom t.rangeCount 1
    let pieces ← t.ranges.mapM (·.outsideInWords start stop)
    ofRanges pieces.flatten

/-- The taint without that of the position `index`.  The window does not go behind the last
position. -/
def clearAtInWords (t : Taint) (index : Nat) : Except Fault Taint :=
  t.clearBetweenInWords index (min (index + 1) Position.last)

end Taint

end TextProvenance
