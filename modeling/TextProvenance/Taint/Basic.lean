import TextProvenance.Range

/-!
# Taint

The taint of one text: its positions' chains, as a list of ranges.  Without taint there is no list,
which is not the same as a list of no ranges.

`Taint.chainAt` is the view of taint as a function on positions.  `Taint.WellFormed` says that the
list is canonical: if there is one, it has ranges, and they are not empty, in order, disjoint, and
two that touch differ in their chain.
-/

namespace TextProvenance

/-- The chains of the positions of one text. -/
structure Taint where
  /-- The list of ranges, if there is one. -/
  ranges? : Option (List Range)
deriving DecidableEq, Inhabited

/-- The range `a` may stand directly before the range `b`. -/
def Range.Precedes (a b : Range) : Prop :=
  a.stop ≤ b.start ∧ (a.stop = b.start → a.chain ≠ b.chain)

instance (a b : Range) : Decidable (a.Precedes b) := inferInstanceAs (Decidable (_ ∧ (_ → _)))

namespace Taint

/-- No position is tainted. -/
def untainted : Taint := ⟨none⟩

/-- The taint of a finished list of ranges; there is no list if it would have no range. -/
def ofList (ranges : List Range) : Taint := ⟨if ranges.isEmpty then none else some ranges⟩

/-- The ranges, in order. -/
def ranges (t : Taint) : List Range := t.ranges?.getD []

/-- There is a list of ranges. -/
def isTainted (t : Taint) : Bool := t.ranges?.isSome

/-- Number of ranges. -/
def rangeCount (t : Taint) : Nat := t.ranges.length

/-- First range. -/
def first? (t : Taint) : Option Range := t.ranges.head?

/-- Last range. -/
def last? (t : Taint) : Option Range := t.ranges.getLast?

/-- Where the last range stops; 0 without ranges. -/
def stop (t : Taint) : Nat := (t.last?.map Range.stop).getD 0

/-- The first range that stops after position `p`. -/
def firstEndingAfter (t : Taint) (p : Nat) : Option Range :=
  (t.ranges.dropWhile fun r => decide (r.stop ≤ p)).head?

/-- The chain of position `p`, if it is tainted. -/
def chainAt (t : Taint) (p : Nat) : Option Chain :=
  ((t.firstEndingAfter p).filter fun r => decide (r.Covers p)).map Range.chain

/-- The chain of the first tainted position in the window `[lo, hi)`. -/
def firstChainIn (t : Taint) (lo hi : Nat) : Option Chain :=
  ((t.firstEndingAfter lo).filter fun r => decide (r.Overlaps lo hi)).map Range.chain

/-- Number of tainted positions. -/
def taintedLength (t : Taint) : Nat := (t.ranges.map Range.length).foldr (· + ·) 0

/-- Number of tainted positions, added up range by range in machine words. -/
def taintedLengthInWords (t : Taint) : Except Fault Nat :=
  t.ranges.foldlM (fun total r => do Offset.sum total (← Position.difference r.stop r.start)) 0

/-- Every two neighbours of a list may stand next to each other. -/
def Separated : List Range → Prop
  | [] => True
  | [_] => True
  | a :: b :: rest => a.Precedes b ∧ Separated (b :: rest)

instance decidableSeparated : (ranges : List Range) → Decidable (Separated ranges)
  | [] => .isTrue trivial
  | [_] => .isTrue trivial
  | a :: b :: rest =>
    have := decidableSeparated (b :: rest)
    inferInstanceAs (Decidable (a.Precedes b ∧ Separated (b :: rest)))

/-- The list of ranges, if there is one, has ranges and is canonical. -/
def WellFormed (t : Taint) : Prop :=
  match t.ranges? with
  | none => True
  | some ranges => ranges ≠ [] ∧ (∀ r ∈ ranges, ¬ r.IsEmpty) ∧ Separated ranges

instance : (t : Taint) → Decidable t.WellFormed
  | ⟨none⟩ => .isTrue trivial
  | ⟨some ranges⟩ =>
    inferInstanceAs (Decidable (ranges ≠ [] ∧ (∀ r ∈ ranges, ¬ r.IsEmpty) ∧ Separated ranges))

/-- One line per range. -/
def describe (t : Taint) : String := String.join (t.ranges.map fun r => r.describe ++ "\n")

end Taint

end TextProvenance
