import TextProvenance.Chain
import TextProvenance.Position

/-!
# Ranges

A stretch of positions `[start, stop)` under one chain.  The bounds are in order and within the
positions, so the only ways to fail are in building a range from given bounds and in moving one.

Parts of a range are lists of at most one range: `span` and `part` leave out what is empty.
-/

namespace TextProvenance

/-- The positions from `start` up to, not including, `stop`, under one chain. -/
structure Range where
  start : Nat
  stop : Nat
  chain : Chain
  start_le_stop : start ≤ stop
  stop_le_last : stop ≤ Position.last
deriving DecidableEq

namespace Range

/-- The range with the given bounds. -/
def ofBounds (start stop : Nat) (chain : Chain) : Except Fault Range :=
  if ordered : start ≤ stop then
    if bounded : stop ≤ Position.last then .ok ⟨start, stop, chain, ordered, bounded⟩
    else .error (.offsetTooLarge stop)
  else .error (.invertedRange start stop)

/-- A range over no position. -/
def IsEmpty (r : Range) : Prop := r.start = r.stop

instance (r : Range) : Decidable r.IsEmpty := inferInstanceAs (Decidable (_ = _))

/-- Number of positions. -/
def length (r : Range) : Nat := r.stop - r.start

/-- The range covers position `p`. -/
def Covers (r : Range) (p : Nat) : Prop := r.start ≤ p ∧ p < r.stop

instance (r : Range) (p : Nat) : Decidable (r.Covers p) := inferInstanceAs (Decidable (_ ∧ _))

/-- The range starts before the window `[lo, hi)` stops and stops after it starts. -/
def Overlaps (r : Range) (lo hi : Nat) : Prop := r.start < hi ∧ lo < r.stop

instance (r : Range) (lo hi : Nat) : Decidable (r.Overlaps lo hi) :=
  inferInstanceAs (Decidable (_ ∧ _))

/-- The same chain over other bounds. -/
def withBounds (r : Range) (start stop : Nat) : Except Fault Range := ofBounds start stop r.chain

/-- The same bounds under another chain. -/
def withChain (r : Range) (chain : Chain) : Range := { r with chain }

/-- The same chain, with both bounds moved; `outside` gives the fault of a bound that leaves the
positions. -/
def moved (r : Range) (amount : Int) (outside : Nat → Fault) : Except Fault Range := do
  let start ← Position.move r.start amount (outside r.start)
  let stop ← Position.move r.stop amount (outside r.stop)
  ofBounds start stop r.chain

/-- The range moved by a signed amount. -/
def shifted (r : Range) (amount : Int) : Except Fault Range :=
  r.moved amount (.rangeMovedOut amount)

/-- The positions of `[start, stop)` under one chain: one range, or none if there are no such
positions. -/
def span (start stop : Nat) (chain : Chain) : List Range :=
  if inside : start < min stop Position.last then
    [⟨start, min stop Position.last, chain, Nat.le_of_lt inside, Nat.min_le_right ..⟩]
  else []

/-- The positions of `[start, stop)` under one chain if there are any, with the order of the bounds
checked when the range is built. -/
def spanInWords (start stop : Nat) (chain : Chain) : Except Fault (List Range) :=
  if start < stop then ([·]) <$> ofBounds start stop chain else .ok []

/-- The part of a range in the window `[lo, hi)`: one range or none. -/
def part (r : Range) (lo hi : Nat) : List Range := span (max r.start lo) (min r.stop hi) r.chain

/-- The part of a range before position `p`. -/
def before (r : Range) (p : Nat) : List Range := r.part 0 p

/-- The part of a range from position `p` on. -/
def after (r : Range) (p : Nat) : List Range := r.part p Position.last

/-- One-line description: `start - stop : source`. -/
def describe (r : Range) : String := s!"{r.start} - {r.stop} : {r.chain.source.name}"

end Range

end TextProvenance
