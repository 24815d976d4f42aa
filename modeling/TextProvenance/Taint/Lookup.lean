import TextProvenance.Taint.Basic

/-!
# Looking up by bisection

The ranges of taint are in order, so a position need not be searched for range by range.
`Taint.chainAtByBisection` and `Taint.firstChainByBisection` do the same as `Taint.chainAt` and
`Taint.firstChainIn`: they find the first range that stops after a position by bisection of the
indices, and look at no other range after that.
-/

namespace TextProvenance

/-- The first index from `lo` on whose item fails a test; `hi` if there is none in front of `hi`.
Every second half or first half of the indices is left out without a look at its items, so the items
that pass have to stand in front of those that fail. -/
def bisect {α : Type} (passes : α → Bool) (items : List α) (lo hi : Nat)
    (bounded : hi ≤ items.length) : Nat :=
  if searching : lo < hi then
    let middle := lo + (hi - lo) / 2
    if passes items[middle] then bisect passes items (middle + 1) hi bounded
    else bisect passes items lo middle (by omega)
  else lo
termination_by hi - lo

/-- The index of the first item that fails a test, among items of which those that pass stand in
front; the number of items if all of them pass. -/
def partitionPoint {α : Type} (passes : α → Bool) (items : List α) : Nat :=
  bisect passes items 0 items.length (Nat.le_refl _)

namespace Taint

/-- The first range that stops after position `p`, by bisection. -/
def endingAfterByBisection (t : Taint) (p : Nat) : Option Range :=
  t.ranges[partitionPoint (fun r => decide (r.stop ≤ p)) t.ranges]?

/-- The chain of position `p`, if it is tainted, by bisection. -/
def chainAtByBisection (t : Taint) (p : Nat) : Option Chain :=
  ((t.endingAfterByBisection p).filter fun r => decide (r.Covers p)).map Range.chain

/-- The chain of the first tainted byte between two offsets of a text, by bisection. -/
def firstChainByBisection (t : Taint) (start stop : Nat) : Except Fault (Option Chain) := do
  let lo ← Position.ofOffset start
  let hi ← Position.ofOffset stop
  return ((t.endingAfterByBisection lo).filter fun r => decide (r.Overlaps lo hi)).map Range.chain

end Taint

end TextProvenance
