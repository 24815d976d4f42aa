import TextProvenance.Proofs.Taint.Splice
import TextProvenance.Proofs.Taint.Window
import TextProvenance.Taint.Overwrite

/-!
# Overwriting taint, position by position

Attaching ranges never fails: what is attached goes before what was there
(`Taint.addRange_spec`, `Taint.addTaint_spec`).  A window that has been cleared takes in other taint
of its length (`Taint.exists_clearBetween_insert`).  Giving one position a chain fails only where
that position has none behind it (`Taint.set_spec`).
-/

namespace TextProvenance

variable {r : Range} {ranges : List Range} {start stop p : Nat}

theorem inOrder_before (order : InOrder ranges) : InOrder (ranges.flatMap (·.before start)) := by
  refine inOrder_flatMap Range.start Range.stop (fun r _ => inOrder_part ..) ?_ order
  intro r _ x mem
  rcases Range.mem_span mem with ⟨first, -, last, -⟩
  omega

theorem inOrder_after (order : InOrder ranges) : InOrder (ranges.flatMap (·.after stop)) := by
  refine inOrder_flatMap Range.start Range.stop (fun r _ => inOrder_part ..) ?_ order
  intro r _ x mem
  rcases Range.mem_span mem with ⟨first, -, last, -⟩
  omega

theorem labelIn_before (ranges : List Range) :
    labelIn (ranges.flatMap (·.before start)) p = if p < start then labelIn ranges p else none := by
  by_cases early : p < start
  · rw [if_pos early]
    exact labelIn_flatMap fun r _ => by rw [Range.label_before, if_pos early]
  · rw [if_neg early]
    exact labelIn_flatMap_eq_none fun r _ => by rw [Range.label_before, if_neg early]

theorem labelIn_after (ranges : List Range) :
    labelIn (ranges.flatMap (·.after stop)) p = if stop ≤ p then labelIn ranges p else none := by
  by_cases late : stop ≤ p
  · rw [if_pos late]
    exact labelIn_flatMap fun r _ => by rw [Range.label_after, if_pos late]
  · rw [if_neg late]
    exact labelIn_flatMap_eq_none fun r _ => by rw [Range.label_after, if_neg late]

theorem inOrder_addRange (order : InOrder ranges) (r : Range) :
    InOrder (ranges.flatMap (·.before r.start) ++ r :: ranges.flatMap (·.after r.stop)) := by
  have inFront : ∀ a ∈ ranges.flatMap (·.before r.start), a.stop ≤ r.start := by
    intro a mem
    rcases List.mem_flatMap.mp mem with ⟨x, -, part⟩
    rcases Range.mem_span part with ⟨-, -, last, -⟩
    omega
  have behind : ∀ b ∈ ranges.flatMap (·.after r.stop), r.stop ≤ b.start := by
    intro b mem
    rcases List.mem_flatMap.mp mem with ⟨x, -, part⟩
    rcases Range.mem_span part with ⟨first, -⟩
    omega
  refine inOrder_append.mpr
    ⟨inOrder_before order, inOrder_cons.mpr ⟨behind, inOrder_after order⟩, fun a memA b memB => ?_⟩
  have := inFront a memA
  rcases List.mem_cons.mp memB with rfl | memB
  · exact this
  · have := behind b memB
    have := r.start_le_stop
    omega

namespace Taint

variable {t other : Taint} {index : Nat} {label : Nat → Option Chain}

theorem addRange_spec (wf : t.WellFormed) (r : Range) :
    ∃ t', t.addRange r = .ok t' ∧ t'.HasLabels fun p => (r.label p).or (t.chainAt p) := by
  by_cases isEmpty : r.IsEmpty
  · refine ⟨t, if_pos isEmpty, wf, fun p => ?_⟩
    rw [Range.label_of_isEmpty isEmpty, Option.none_or]
  · obtain ⟨t', ok, labels⟩ := ofRanges_spec (inOrder_addRange wf.inOrder r)
    refine ⟨t', (if_neg isEmpty).trans ok, labels.wellFormed, fun p => ?_⟩
    rw [labels.chainAt, labelIn_append, labelIn_cons, labelIn_before, labelIn_after,
      wf.chainAt_eq]
    have ordered := r.start_le_stop
    by_cases covers : r.Covers p
    · rw [Range.label_of_covers covers, Option.some_or, if_neg (by have := covers.1; omega),
        Option.none_or, Option.some_or]
    · rw [Range.label_of_not_covers covers, Option.none_or, Option.none_or]
      by_cases early : p < r.start
      · rw [if_pos early, if_neg (by omega), Option.or_none]
      · have late : r.stop ≤ p := Nat.le_of_not_lt fun inside => covers ⟨by omega, inside⟩
        rw [if_neg early, if_pos late, Option.none_or]

/-- Ranges are all attached, and the last one with a position labels it. -/
theorem forEach_addRange_spec (wf : t.WellFormed) (ranges : List Range) :
    ∃ t', Edit.forEach ranges (fun r => Edit.step (·.addRange r)) t = { state := t' } ∧
      t'.HasLabels fun p => (labelIn ranges.reverse p).or (t.chainAt p) := by
  induction ranges generalizing t with
  | nil => exact ⟨t, rfl, wf, fun p => by simp⟩
  | cons r rest ih =>
    obtain ⟨middle, first, labels⟩ := addRange_spec wf r
    rcases ih labels.wellFormed with ⟨t', others, labels'⟩
    refine ⟨t', ?_, labels'.wellFormed, fun p => ?_⟩
    · rw [Edit.forEach_cons, Edit.andThen_of_done (Edit.step_of_ok first), others]
    · rw [labels'.chainAt, labels.chainAt, List.reverse_cons, labelIn_append, labelIn_singleton,
        Option.or_assoc]

theorem addTaint_spec (wf : t.WellFormed) (wfOther : other.WellFormed) :
    ∃ t', addTaint other t = { state := t' } ∧
      t'.HasLabels fun p => (other.chainAt p).or (t.chainAt p) := by
  obtain ⟨t', run, labels⟩ := forEach_addRange_spec wf other.ranges
  refine ⟨t', run, labels.wellFormed, fun p => ?_⟩
  have reversed := labelIn_perm (disjoint_of_inOrder wfOther.inOrder) (List.reverse_perm _).symm p
  rw [labels.chainAt, ← reversed, wfOther.chainAt_eq]

/-! ## A window -/

/-- The chain of position `p` after the window `[start, stop)` has been given other labels, which
are counted from its start. -/
def replacedLabel (start stop : Nat) (label inserted : Nat → Option Chain) (p : Nat) :
    Option Chain :=
  if start ≤ p ∧ p < stop then inserted (p - start) else label p

/-- Taint that stops within the length of a cleared window gives its chains to all of the window. -/
theorem insertedLabel_cleared (wfOther : other.WellFormed) (holds : other.stop ≤ stop - start)
    (ordered : start ≤ stop) (p : Nat) :
    insertedLabel start other.stop (clearedLabel start stop label) other.chainAt p =
      replacedLabel start stop label other.chainAt p := by
  have clean := wfOther.stop_le_iff.mp (Nat.le_refl _)
  rw [insertedLabel, clearedLabel_eq, replacedLabel]
  rcases Nat.lt_or_ge p start with inFront | late
  · rw [if_pos inFront, if_neg (by omega), if_neg (by omega)]
  · rw [if_neg (by omega)]
    rcases Nat.lt_or_ge p (start + other.stop) with covered | free
    · rw [if_pos covered, if_pos (by omega)]
    · rw [if_neg (by omega)]
      rcases Nat.lt_or_ge p stop with inside | behind
      · rw [if_pos ⟨late, inside⟩, if_pos ⟨late, inside⟩, clean _ (by omega)]
      · rw [if_neg (by omega), if_neg (by omega)]

theorem exists_clearBetween_insert (wf : t.WellFormed) (wfOther : other.WellFormed)
    (filled : start < stop) (bounded : stop ≤ Position.last) (holds : other.stop ≤ stop - start) :
    ∃ cleared t', t.clearBetween start stop = .ok cleared ∧ cleared.WellFormed ∧
      cleared.insert start other = .ok t' ∧
      t'.HasLabels (replacedLabel start stop t.chainAt other.chainAt) := by
  have ordered := Nat.le_of_lt filled
  obtain ⟨cleared, clear, labels⟩ := clearBetween_spec wf ordered
  have room : ∀ p, start ≤ p → p < start + other.stop → cleared.chainAt p = none := by
    intro p late inside
    rw [labels.chainAt, clearedLabel_eq, if_pos (by omega)]
  have gap : cleared.chainAt start = none := by
    rw [labels.chainAt, clearedLabel_eq, if_pos ⟨Nat.le_refl _, filled⟩]
  obtain ⟨t', insert, labels'⟩ := insert_spec labels.wellFormed wfOther gap (by omega) room
  refine ⟨cleared, t', clear, labels.wellFormed, insert, labels'.congr fun p => ?_⟩
  rw [funext labels.chainAt, insertedLabel_cleared wfOther holds ordered]

theorem exists_ofRange (r : Range) :
    ∃ block, ofRange r = .ok block ∧ block.stop ≤ r.stop ∧ block.HasLabels r.label := by
  obtain ⟨block, made, labels⟩ := ofRanges_spec (List.pairwise_singleton _ r)
  have covered : block.HasLabels r.label := labels.congr fun p => labelIn_singleton
  refine ⟨block, made, covered.wellFormed.stop_le_iff.mpr fun p late => ?_, covered⟩
  rw [covered.chainAt]
  exact Range.label_of_not_covers fun covers => Nat.not_le_of_lt covers.2 late

/-! ## A single position -/

/-- The chain of position `p` after `index` has been given a chain. -/
def setLabel (index : Nat) (chain : Chain) (label : Nat → Option Chain) (p : Nat) : Option Chain :=
  if p = index then some chain else label p

theorem label_single (chain : Chain) (inside : index < Position.last) (p : Nat) :
    Range.label ⟨index, index + 1, chain, Nat.le_succ index, inside⟩ p =
      if p = index then some chain else none := by
  unfold Range.label Range.Covers
  congr 1
  simp only [eq_iff_iff]
  omega

theorem exists_ofPosition_zero (chain : Chain) :
    ∃ single, ofPosition 0 chain = .ok single ∧ single.stop ≤ 1 ∧
      single.HasLabels (setLabel 0 chain fun _ => none) := by
  have inside : 0 < Position.last := by decide
  obtain ⟨single, made, stops, labels⟩ := exists_ofRange ⟨0, 1, chain, Nat.le_succ 0, inside⟩
  refine ⟨single, ?_, stops, labels.congr (label_single chain inside)⟩
  rw [ofPosition, Range.ofBounds_eq_ok (Nat.le_succ 0) inside]
  exact made

/-- A cleared position has room for the taint of a single one. -/
theorem exists_clearAt_insert (wf : t.WellFormed) (inside : index < Position.last)
    (chain : Chain) :
    ∃ cleared single t', t.clearAt index = .ok cleared ∧ ofPosition 0 chain = .ok single ∧
      cleared.insert index single = .ok t' ∧ t'.HasLabels (setLabel index chain t.chainAt) := by
  obtain ⟨single, position, stops, singleLabels⟩ := exists_ofPosition_zero chain
  obtain ⟨cleared, t', clear, -, insert, labels⟩ := exists_clearBetween_insert wf
    singleLabels.wellFormed (Nat.lt_succ_self index) inside (by omega)
  refine ⟨cleared, single, t', clear, position, insert, labels.congr fun p => ?_⟩
  rw [replacedLabel, singleLabels.chainAt, setLabel, setLabel]
  by_cases here : p = index
  · rw [if_pos (by omega), if_pos (by omega), if_pos here]
  · rw [if_neg (by omega), if_neg here]

theorem set_spec (wf : t.WellFormed) (inside : index < Position.last) (chain : Chain) :
    ∃ t', set index chain t = { state := t' } ∧
      t'.HasLabels (setLabel index chain t.chainAt) := by
  unfold set
  rw [if_neg (Nat.not_le_of_lt inside)]
  by_cases late : t.stop ≤ index
  · have bounds : Range.ofBounds index (index + 1) chain =
        .ok ⟨index, index + 1, chain, Nat.le_succ index, inside⟩ :=
      Range.ofBounds_eq_ok (Nat.le_succ index) inside
    obtain ⟨t', append, labels, -⟩ :=
      append_spec (r := ⟨index, index + 1, chain, Nat.le_succ index, inside⟩) wf (.inr late)
    have done : Edit.step (·.append ⟨index, index + 1, chain, Nat.le_succ index, inside⟩) t =
        { state := t' } := Edit.step_of_ok append
    refine ⟨t', ?_, labels.wellFormed, fun p => ?_⟩
    · rw [if_pos late, Edit.given_of_ok bounds, done]
    · rw [labels.chainAt, label_single, setLabel]
      by_cases here : p = index
      · have clean := wf.stop_le_iff.mp late index (Nat.le_refl _)
        rw [here, clean, Option.none_or, if_pos rfl]
      · rw [if_neg here, if_neg here, Option.or_none]
  · obtain ⟨cleared, single, t', clear, position, insert, labels⟩ :=
      exists_clearAt_insert wf inside chain
    have first : Edit.step (·.clearAt index) t = { state := cleared } := Edit.step_of_ok clear
    have second : Edit.step (·.insert index single) cleared = { state := t' } :=
      Edit.step_of_ok insert
    refine ⟨t', ?_, labels⟩
    rw [if_neg late, Edit.andThen_of_done first, Edit.given_of_ok position, second]

end Taint

end TextProvenance
