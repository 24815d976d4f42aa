import Mathlib.Data.Nat.Count
import Mathlib.Order.Interval.Finset.Nat
import TextProvenance.Proofs.Position
import TextProvenance.Proofs.Taint.Window

/-!
# Counting tainted positions

`Taint.taintedLength` adds up the lengths of ranges.  Ranges in order have no position in common, so
the sum is the number of positions that they label (`sumOfLengths_eq_count`), and this number is all
that the rest is about: it is bounded by the number of positions, so the sum stays in its machine
word, and it is the number in front of a position and the number from there on.
-/

namespace TextProvenance

variable {r : Range} {ranges : List Range} {n p total : Nat}

theorem labelIn_cons_ne_none_iff :
    labelIn (r :: ranges) p ≠ none ↔ r.Covers p ∨ labelIn ranges p ≠ none := by
  rw [labelIn_cons, ne_eq, Option.or_eq_none_iff, Range.label_eq_none_iff]
  tauto

/-- The lengths of ranges, added up. -/
def sumOfLengths (ranges : List Range) : Nat := (ranges.map Range.length).foldr (· + ·) 0

/-- The positions of the first range are not labelled by the others, so they are counted once. -/
theorem sumOfLengths_eq_count (order : InOrder ranges) (within : ∀ r ∈ ranges, r.stop ≤ n) :
    sumOfLengths ranges = Nat.count (fun p => labelIn ranges p ≠ none) n := by
  induction ranges with
  | nil => simp [sumOfLengths]
  | cons r rest ih =>
    obtain ⟨-, orderRest⟩ := inOrder_cons.mp order
    have own : (Finset.Ico r.start r.stop).card = r.length := Nat.card_Ico ..
    have others := ih orderRest fun x mem => within x (List.mem_cons_of_mem r mem)
    have inside : r.stop ≤ n := within r List.mem_cons_self
    have parts : {p ∈ Finset.range n | labelIn (r :: rest) p ≠ none} =
        Finset.Ico r.start r.stop ∪ {p ∈ Finset.range n | labelIn rest p ≠ none} := by
      ext p
      simp only [Finset.mem_filter, Finset.mem_range, Finset.mem_union, Finset.mem_Ico,
        labelIn_cons_ne_none_iff, Range.Covers]
      constructor
      · rintro ⟨early, covers | labelled⟩
        · exact .inl covers
        · exact .inr ⟨early, labelled⟩
      · rintro (covers | ⟨early, labelled⟩)
        · exact ⟨Nat.lt_of_lt_of_le covers.2 inside, .inl covers⟩
        · exact ⟨early, .inr labelled⟩
    have apart : Disjoint (Finset.Ico r.start r.stop)
        {p ∈ Finset.range n | labelIn rest p ≠ none} := by
      rw [Finset.disjoint_left]
      intro p covers labelled
      have early := (Finset.mem_Ico.mp covers).2
      have unlabelled := labelIn_tail order p
      rw [if_pos early] at unlabelled
      exact (Finset.mem_filter.mp labelled).2 unlabelled
    rw [Nat.count_eq_card_filter_range, parts, Finset.card_union_of_disjoint apart, own,
      ← Nat.count_eq_card_filter_range, ← others]
    rfl

theorem count_congr {label label' : Nat → Option Chain} (same : ∀ p, p < n → label p = label' p) :
    Nat.count (fun p => label p ≠ none) n = Nat.count (fun p => label' p ≠ none) n := by
  rw [Nat.count_eq_card_filter_range, Nat.count_eq_card_filter_range]
  congr 1
  apply Finset.filter_congr
  intro p mem
  rw [same p (Finset.mem_range.mp mem)]

/-- No sum is larger than the last one. -/
theorem addLengths_eq_ok (fits : total + sumOfLengths ranges ≤ Offset.last) :
    ranges.foldlM (fun total r => do Offset.sum total (← Position.difference r.stop r.start)) total =
      .ok (total + sumOfLengths ranges) := by
  induction ranges generalizing total with
  | nil => rfl
  | cons r rest ih =>
    have sum : sumOfLengths (r :: rest) = r.length + sumOfLengths rest := rfl
    rw [sum, ← Nat.add_assoc] at fits
    rw [List.foldlM_cons, Position.difference_eq_ok r.start_le_stop, sum, ← Nat.add_assoc, ← ih fits]
    have first : Offset.sum total r.length = .ok (total + r.length) := Offset.sum_eq_ok (by omega)
    exact congrArg (· >>= _) first

namespace Taint

variable {t : Taint} {k : Nat}

/-- The tainted positions are counted in front of any position where no taint is left. -/
theorem WellFormed.taintedLength_eq_count (wf : t.WellFormed) (stops : t.stop ≤ n) :
    t.taintedLength = Nat.count (fun p => t.chainAt p ≠ none) n := by
  have within : ∀ r ∈ t.ranges, r.stop ≤ n := fun r mem => Nat.le_trans (wf.stop_le_stop mem) stops
  rw [count_congr fun p _ => wf.chainAt_eq p]
  exact sumOfLengths_eq_count wf.inOrder within

theorem WellFormed.taintedLength_le (wf : t.WellFormed) : t.taintedLength ≤ Position.last := by
  rw [wf.taintedLength_eq_count t.stop_le_last]
  exact Nat.count_le _

theorem WellFormed.taintedLengthInWords_eq (wf : t.WellFormed) :
    t.taintedLengthInWords = .ok t.taintedLength := by
  have fits : 0 + sumOfLengths t.ranges ≤ Offset.last := by
    rw [Nat.zero_add]
    exact Nat.le_trans wf.taintedLength_le (by decide)
  have sum := addLengths_eq_ok fits
  rwa [Nat.zero_add] at sum

/-- Two windows that meet at `k` have all tainted positions between them. -/
theorem WellFormed.exists_taintedLength_add (wf : t.WellFormed) (bounded : k ≤ Position.last) :
    ∃ front back, t.subtaint 0 k = .ok front ∧ t.subtaint k Position.last = .ok back ∧
      t.taintedLength = front.taintedLength + back.taintedLength := by
  obtain ⟨front, cut, labels⟩ := subtaint_spec wf (Nat.zero_le k)
  obtain ⟨back, cut', labels'⟩ := subtaint_spec wf bounded
  have inFront : front.taintedLength = Nat.count (fun p => t.chainAt p ≠ none) k := by
    rw [labels.wellFormed.taintedLength_eq_count labels.stop_le_of_window]
    apply count_congr
    intro p early
    rw [labels.chainAt, windowLabel, if_pos early, Nat.zero_add]
  have behind : back.taintedLength =
      Nat.count (fun p => t.chainAt (k + p) ≠ none) (Position.last - k) := by
    rw [labels'.wellFormed.taintedLength_eq_count labels'.stop_le_of_window]
    apply count_congr
    intro p early
    rw [labels'.chainAt, windowLabel, if_pos early]
  refine ⟨front, back, cut, cut', ?_⟩
  calc t.taintedLength
      = Nat.count (fun p => t.chainAt p ≠ none) Position.last :=
        wf.taintedLength_eq_count t.stop_le_last
    _ = Nat.count (fun p => t.chainAt p ≠ none) (k + (Position.last - k)) := by
        rw [Nat.add_sub_cancel' bounded]
    _ = front.taintedLength + back.taintedLength := by
        rw [Nat.count_add, inFront, behind]

/-- **The length of taint is the number of tainted positions.**  It is no more than the last
position, so adding it up stays in machine words, and it is the length in front of any position and
the length from there on, also where a range lies across that position. -/
theorem taintedLength_counts (wf : t.WellFormed) :
    t.taintedLength = Nat.count (fun p => t.chainAt p ≠ none) (Position.last + 1) ∧
    t.taintedLength ≤ Position.last ∧
    t.taintedLengthInWords = .ok t.taintedLength ∧
    ∀ k ≤ Position.last, ∃ front back, t.subtaint 0 k = .ok front ∧
      t.subtaint k Position.last = .ok back ∧
      t.taintedLength = front.taintedLength + back.taintedLength :=
  ⟨wf.taintedLength_eq_count (Nat.le_succ_of_le t.stop_le_last), wf.taintedLength_le,
    wf.taintedLengthInWords_eq, fun _ => wf.exists_taintedLength_add⟩

/-- Two ranges that touch and one behind a gap, counted whole and cut inside of the second one. -/
theorem taintedLength_counts_across :
    let read : Chain := .ofSource { name := "read" } 0
    let join : Chain := .ofSource { name := "join" } 1
    let t := ofList (Range.span 1 4 read ++ Range.span 4 8 join ++ Range.span 10 12 read)
    t.WellFormed ∧ Nat.count (fun p => t.chainAt p ≠ none) (Position.last + 1) = 9 ∧
      t.taintedLengthInWords = .ok 9 ∧ 6 ≤ Position.last ∧
      ∃ front back, t.subtaint 0 6 = .ok front ∧ t.subtaint 6 Position.last = .ok back ∧
        9 = front.taintedLength + back.taintedLength := by
  intro read join t
  have wf : t.WellFormed := by decide
  have bounded : 6 ≤ Position.last := by decide
  have length : t.taintedLength = 9 := by decide
  obtain ⟨count, -, inWords, windows⟩ := taintedLength_counts wf
  rw [length] at count inWords windows
  exact ⟨wf, count.symm, inWords, bounded, windows 6 bounded⟩

end Taint

end TextProvenance
