import TextProvenance.Proofs.Edit
import TextProvenance.Proofs.Taint.Builder

/-!
# Windows of taint, position by position

`Taint.subtaint` gives the positions of a window the chains that they had (`Taint.subtaint_spec`),
`Taint.clearBetween` leaves those outside of it (`Taint.clearBetween_spec`), and
`Taint.firstChainIn`, which looks at one range, finds the chain of the first tainted position of
a window (`Taint.firstChainIn_eq`).
-/

namespace TextProvenance

variable {r : Range} {ranges : List Range} {t : Taint} {start stop lo hi p : Nat}

theorem Range.label_inWindow :
    labelIn (r.inWindow start stop) p =
      if p < stop - start then r.label (start + p) else none := by
  have bounded := r.stop_le_last
  rw [Range.inWindow, Range.label_span (by omega)]
  by_cases inside : p < stop - start
  · rw [if_pos inside]
    unfold Range.label Range.Covers
    congr 1
    simp only [eq_iff_iff]
    omega
  · rw [if_neg inside, if_neg (by omega)]

theorem inOrder_inWindow (order : InOrder ranges) :
    InOrder (ranges.flatMap (·.inWindow start stop)) := by
  refine inOrder_flatMap (fun r => max r.start start - start) (fun r => min r.stop stop - start)
    (fun r _ => inOrder_span ..) ?_ (order.imp fun {a b} _ => by omega)
  intro r _ x mem
  rcases Range.mem_span mem with ⟨first, -, last, -⟩
  omega

/-- The parts of a range in front of a window and behind it. -/
theorem Range.label_outside (ordered : start ≤ stop) :
    labelIn (r.before start ++ r.after stop) p =
      if p < start then r.label p else if p < stop then none else r.label p := by
  rw [labelIn_append, Range.label_before, Range.label_after]
  by_cases early : p < start
  · rw [if_pos early, if_pos early, if_neg (by omega), Option.or_none]
  · rw [if_neg early, if_neg early, Option.none_or]
    by_cases inside : p < stop
    · rw [if_pos inside, if_neg (by omega)]
    · rw [if_neg inside, if_pos (by omega)]

theorem inOrder_outside (order : InOrder ranges) (ordered : start ≤ stop) :
    InOrder (ranges.flatMap fun r => r.before start ++ r.after stop) := by
  refine inOrder_flatMap Range.start Range.stop ?_ ?_ order
  · intro r _
    refine inOrder_append.mpr ⟨inOrder_part .., inOrder_part .., fun a memA b memB => ?_⟩
    rcases Range.mem_span memA with ⟨-, -, stopA, -⟩
    rcases Range.mem_span memB with ⟨startB, -⟩
    omega
  · intro r _ x mem
    rcases List.mem_append.mp mem with before | after
    · rcases Range.mem_span before with ⟨first, -, last, -⟩
      omega
    · rcases Range.mem_span after with ⟨first, -, last, -⟩
      omega

theorem findSome?_congr {α β : Type} {f g : α → Option β} {items : List α}
    (same : ∀ a ∈ items, f a = g a) : items.findSome? f = items.findSome? g := by
  induction items with
  | nil => rfl
  | cons a rest ih =>
    rw [List.findSome?_cons, List.findSome?_cons, same a (by simp),
      ih fun b mem => same b (by simp [mem])]

namespace Taint

/-- The chain of position `p` of the window `[start, stop)`. -/
def windowLabel (start stop : Nat) (label : Nat → Option Chain) (p : Nat) : Option Chain :=
  if p < stop - start then label (start + p) else none

theorem subtaint_spec (wf : t.WellFormed) (ordered : start ≤ stop) :
    ∃ t', t.subtaint start stop = .ok t' ∧
      t'.HasLabels (windowLabel start stop t.chainAt) := by
  obtain ⟨t', ok, labels⟩ := ofRanges_spec (inOrder_inWindow wf.inOrder)
  refine ⟨t', ?_, labels.wellFormed, fun p => ?_⟩
  · unfold subtaint checkWindow
    rw [if_pos ordered]
    exact ok
  · rw [labels.chainAt, windowLabel]
    by_cases inside : p < stop - start
    · rw [if_pos inside, wf.chainAt_eq]
      exact labelIn_flatMap fun r _ => by rw [Range.label_inWindow, if_pos inside]
    · rw [if_neg inside]
      exact labelIn_flatMap_eq_none fun r _ => by rw [Range.label_inWindow, if_neg inside]

theorem checkWindow_eq_ok (use : WindowUse) (ordered : start ≤ stop) :
    checkWindow use start stop = .ok () := if_pos ordered

theorem checkWindow_eq_error (use : WindowUse) (inverted : stop < start) :
    checkWindow use start stop = .error (.invertedWindow use start stop) :=
  if_neg (Nat.not_le_of_lt inverted)

theorem subtaint_eq_error (inverted : stop < start) :
    ∃ fault, t.subtaint start stop = .error fault :=
  ⟨_, by rw [subtaint, checkWindow_eq_error _ inverted]; rfl⟩

/-- The chain of position `p` after the window `[start, stop)` has been cleared. -/
def clearedLabel (start stop : Nat) (label : Nat → Option Chain) (p : Nat) : Option Chain :=
  if p < start then label p else if p < stop then none else label p

theorem clearedLabel_eq {label : Nat → Option Chain} (p : Nat) :
    clearedLabel start stop label p = if start ≤ p ∧ p < stop then none else label p := by
  unfold clearedLabel
  rcases Nat.lt_or_ge p start with inFront | late
  · rw [if_pos inFront, if_neg (by omega)]
  · rw [if_neg (Nat.not_lt_of_le late)]
    rcases Nat.lt_or_ge p stop with inside | behind
    · rw [if_pos inside, if_pos ⟨late, inside⟩]
    · rw [if_neg (by omega), if_neg (by omega)]

theorem clearBetween_spec (wf : t.WellFormed) (ordered : start ≤ stop) :
    ∃ t', t.clearBetween start stop = .ok t' ∧
      t'.HasLabels (clearedLabel start stop t.chainAt) := by
  obtain ⟨t', ok, labels⟩ := ofRanges_spec (inOrder_outside wf.inOrder ordered)
  refine ⟨t', ?_, labels.wellFormed, fun p => ?_⟩
  · unfold clearBetween checkWindow
    rw [if_pos ordered]
    exact ok
  · rw [labels.chainAt, clearedLabel]
    split
    · rw [wf.chainAt_eq]
      exact labelIn_flatMap fun r _ => by rw [Range.label_outside ordered, if_pos ‹_›]
    · split
      · exact labelIn_flatMap_eq_none fun r _ => by
          rw [Range.label_outside ordered, if_neg ‹_›, if_pos ‹_›]
      · rw [wf.chainAt_eq]
        exact labelIn_flatMap fun r _ => by
          rw [Range.label_outside ordered, if_neg ‹_›, if_neg ‹_›]

theorem clearBetween_eq_error (inverted : stop < start) :
    ∃ fault, t.clearBetween start stop = .error fault :=
  ⟨_, by rw [clearBetween, checkWindow_eq_error _ inverted]; rfl⟩

theorem findSome?_range'_eq_some {label : Nat → Option Chain} {first : Nat} {c : Chain}
    (late : lo ≤ first) (early : first < hi) (found : label first = some c)
    (before : ∀ p, p < first → lo ≤ p → label p = none) :
    (List.range' lo (hi - lo)).findSome? label = some c := by
  refine List.findSome?_eq_some_iff.mpr
    ⟨List.range' lo (first - lo), first, List.range' (first + 1) (hi - first - 1), ?_, found, ?_⟩
  · rw [← List.range'_succ]
    have front : first = lo + (first - lo) := by omega
    have count : hi - lo = (first - lo) + (hi - first - 1 + 1) := by omega
    rw [count, ← List.range'_append_1, ← front]
  · intro p mem
    have within := List.mem_range'_1.mp mem
    exact before p (by omega) (by omega)

theorem labels_of_subtaint (wf : t.WellFormed) {t' : Taint}
    (ok : t.subtaint start stop = .ok t') : t'.HasLabels (windowLabel start stop t.chainAt) := by
  by_cases ordered : start ≤ stop
  · exact .of_eq_ok ok (subtaint_spec wf ordered)
  · exact absurd (subtaint_eq_error (Nat.lt_of_not_le ordered)) (not_error_of_eq_ok ok)

/-- The taint of a window stops within the length of the window. -/
theorem HasLabels.stop_le_of_window {label : Nat → Option Chain}
    (labels : t.HasLabels (windowLabel start stop label)) : t.stop ≤ stop - start := by
  refine labels.wellFormed.stop_le_iff.mpr fun p late => ?_
  rw [labels.chainAt, windowLabel, if_neg (Nat.not_lt_of_le late)]

/-- The range that is looked at in place of the positions of a window.  The induction is on the
ranges: those that stop early label no position of the window, and the first of the others labels
its first tainted position, unless it starts behind the window. -/
theorem head?_dropWhile_filter_overlaps (ordered : lo < hi) (order : InOrder ranges)
    (filled : ∀ r ∈ ranges, r.start < r.stop) :
    (((ranges.dropWhile fun r => decide (r.stop ≤ lo)).head?.filter
      fun r => decide (r.Overlaps lo hi)).map Range.chain) =
      (List.range' lo (hi - lo)).findSome? (labelIn ranges) := by
  induction ranges with
  | nil => exact (List.findSome?_eq_none_iff.mpr fun _ _ => rfl).symm
  | cons r rest ih =>
    by_cases early : r.stop ≤ lo
    · rw [List.dropWhile_cons_of_pos (by simpa using early),
        ih (inOrder_cons.mp order).2 fun r mem => filled r (by simp [mem])]
      refine findSome?_congr fun p mem => ?_
      have late := (List.mem_range'_1.mp mem).1
      rw [labelIn_tail order, if_neg (by omega)]
    · have front : ∀ p, p < r.start → labelIn (r :: rest) p = none :=
        fun p before => labelIn_eq_none_of_lt_start order before
      rw [List.dropWhile_cons_of_neg (by simpa using early), List.head?_cons]
      by_cases reaches : r.start < hi
      · have overlaps : r.Overlaps lo hi := ⟨reaches, by omega⟩
        have covers : r.Covers (max lo r.start) :=
          ⟨by omega, by have := filled r (by simp); omega⟩
        rw [findSome?_range'_eq_some (by omega) (by omega) (labelIn_cons_of_covers covers)
          fun p _ _ => front p (by omega)]
        simp [Option.filter, overlaps]
      · have apart : ¬ r.Overlaps lo hi := fun overlaps => reaches overlaps.1
        rw [List.findSome?_eq_none_iff.mpr fun p mem => front p ?_]
        · simp [Option.filter, apart]
        · have := List.mem_range'_1.mp mem
          omega

theorem firstChainIn_eq (wf : t.WellFormed) (ordered : lo < hi) :
    t.firstChainIn lo hi = (List.range' lo (hi - lo)).findSome? t.chainAt := by
  rw [findSome?_congr fun p _ => wf.chainAt_eq p]
  exact head?_dropWhile_filter_overlaps ordered wf.inOrder fun _ mem => wf.start_lt_stop mem

end Taint

end TextProvenance
