import TextProvenance.Proofs.Taint.Canonical
import TextProvenance.Proofs.Taint.Overwrite
import TextProvenance.Proofs.Taint.WellFormed

/-!
# Attaching ranges

Attaching taint is a union in which the later taint wins (`Taint.addTaint_union`), and ranges that
share no position may be attached in any order (`Taint.attach_perm`).

Both also say what happens where each range is attached in one pass over the ranges that are there.
The pass releases the new range at the first range that reaches behind it, so it makes the list that
`Taint.addRange` puts together from three parts (`Taint.attached_eq`).  A range behind all others is
appended instead, which gives every position the same chain (`Taint.addRangeInOnePass_eq`).
-/

namespace TextProvenance

variable {r x : Range} {ranges : List Range} {p : Nat}

/-! ## Parts of ranges on one side of a position -/

theorem Range.before_of_stop_le (filled : x.start < x.stop) (early : x.stop ≤ p) :
    x.before p = [x] := by
  have bounded := x.stop_le_last
  rw [Range.before, Range.part, Range.span_of_lt (by omega) (by omega)]
  simp [Nat.min_eq_left early]

theorem Range.before_of_le_start (late : p ≤ x.start) : x.before p = [] :=
  Range.span_of_le (by omega)

theorem Range.after_of_le_start (filled : x.start < x.stop) (late : p ≤ x.start) :
    x.after p = [x] := by
  have bounded := x.stop_le_last
  rw [Range.after, Range.part, Range.span_of_lt (by omega) (by omega)]
  simp [Nat.max_eq_left late, Nat.min_eq_left bounded]

theorem Range.after_of_stop_le (early : x.stop ≤ p) : x.after p = [] :=
  Range.span_of_le (by omega)

theorem flatMap_before_of_le_start (late : ∀ x ∈ ranges, p ≤ x.start) :
    ranges.flatMap (·.before p) = [] :=
  List.flatMap_eq_nil_iff.mpr fun x mem => Range.before_of_le_start (late x mem)

theorem flatMap_after_of_le_start (filled : ∀ x ∈ ranges, x.start < x.stop)
    (late : ∀ x ∈ ranges, p ≤ x.start) : ranges.flatMap (·.after p) = ranges := by
  rw [List.flatMap_congr fun x mem => Range.after_of_le_start (filled x mem) (late x mem),
    List.flatMap_singleton']

namespace Taint

variable {t u v : Taint}

/-! ## In one pass -/

/-- One pass makes the same list as the parts before the new range, that range, and the parts after
it.  The induction is on the ranges passed: the cases are those of the pass. -/
theorem attached_eq (order : InOrder ranges) (filled : ∀ x ∈ ranges, x.start < x.stop) (r : Range) :
    attached r ranges =
      ranges.flatMap (·.before r.start) ++ r :: ranges.flatMap (·.after r.stop) := by
  have ordered := r.start_le_stop
  induction ranges with
  | nil => rfl
  | cons x rest ih =>
    rcases inOrder_cons.mp order with ⟨later, orderRest⟩
    have filledX : x.start < x.stop := filled x (by simp)
    have filledRest : ∀ y ∈ rest, y.start < y.stop := fun y mem => filled y (by simp [mem])
    -- The ranges after a range that reaches behind `r` are all behind `r`.
    have behind : r.stop < x.stop → ∀ y ∈ rest, r.stop ≤ y.start := fun reaches y mem => by
      have := later y mem
      omega
    rw [attached, List.flatMap_cons, List.flatMap_cons]
    by_cases missed : r.stop ≤ x.start
    · have late := behind (by omega)
      rw [if_pos missed, Range.before_of_le_start (by omega),
        flatMap_before_of_le_start fun y mem => Nat.le_trans ordered (late y mem),
        Range.after_of_le_start filledX missed, flatMap_after_of_le_start filledRest late]
      rfl
    · rw [if_neg missed]
      by_cases overlaps : r.start < x.stop
      · rw [if_pos overlaps]
        by_cases reaches : r.stop < x.stop
        · have late := behind reaches
          rw [if_pos reaches,
            flatMap_before_of_le_start fun y mem => Nat.le_trans ordered (late y mem),
            flatMap_after_of_le_start filledRest late, List.append_nil]
        · rw [if_neg reaches, ih orderRest filledRest, Range.after_of_stop_le (by omega),
            List.nil_append, List.append_assoc]
      · rw [if_neg overlaps, ih orderRest filledRest, Range.before_of_stop_le filledX (by omega),
          Range.after_of_stop_le (by omega)]
        rfl

/-- Attaching a range in one pass is attaching it. -/
theorem addRangeInOnePass_eq (wf : t.WellFormed) (r : Range) :
    t.addRangeInOnePass r = t.addRange r := by
  unfold addRangeInOnePass
  by_cases isEmpty : r.IsEmpty
  · rw [addRange, if_pos isEmpty, if_pos isEmpty]
  · rw [if_neg isEmpty]
    by_cases late : t.stop ≤ r.start
    · obtain ⟨t', appended, labels, -⟩ := append_spec wf (.inr late)
      have apart : ∀ p, (t.chainAt p).or (r.label p) = (r.label p).or (t.chainAt p) := by
        intro p
        by_cases covers : r.Covers p
        · rw [wf.stop_le_iff.mp late p covers.1, Option.none_or, Option.or_none]
        · rw [Range.label_of_not_covers covers, Option.none_or, Option.or_none]
      rw [if_pos late, appended, (labels.congr apart).eq_ok (addRange_spec wf r)]
    · rw [if_neg late, addRange, if_neg isEmpty,
        attached_eq wf.inOrder fun x mem => wf.start_lt_stop mem]

theorem attachInOnePass_eq (wf : t.WellFormed) (ranges : List Range) :
    attachInOnePass ranges t = Edit.forEach ranges (fun r => Edit.step (·.addRange r)) t :=
  Edit.forEach_congr wf (fun r _ _ wf => Edit.step_congr (addRangeInOnePass_eq wf r))
    fun _ _ => Edit.keeps_step fun _ _ wf ok => addRange_wellFormed wf ok

/-! ## Union -/

/-- What is made by attaching taint is known by its labels. -/
theorem addTaint_eq_done {both : Taint} (wf : t.WellFormed) (wfU : u.WellFormed)
    (labels : both.HasLabels fun p => (u.chainAt p).or (t.chainAt p)) :
    addTaint u t = { state := both } :=
  labels.eq_done (addTaint_spec wf wfU)

/-- **Attaching taint is a union in which the later taint wins.**  A range that is attached gives
its chain to its positions and leaves the others; attached taint gives its chains to its tainted
positions and leaves the others, also where it is attached in passes.  So attaching is associative,
taint attached to itself stays what it is, and so does taint that is attached to nothing or to which
nothing is attached. -/
theorem addTaint_union (wf : t.WellFormed) (wfU : u.WellFormed) (wfV : v.WellFormed) :
    (∀ r : Range, ∃ t', t.addRange r = .ok t' ∧ t.addRangeInOnePass r = .ok t' ∧ t'.WellFormed ∧
      ∀ p, t'.chainAt p = if r.Covers p then some r.chain else t.chainAt p) ∧
    (∃ tu, addTaint u t = { state := tu } ∧ attachInOnePass u.ranges t = { state := tu } ∧
      tu.WellFormed ∧
      ∀ p, tu.chainAt p = if u.chainAt p ≠ none then u.chainAt p else t.chainAt p) ∧
    addTaint untainted t = { state := t } ∧ addTaint t untainted = { state := t } ∧
    (∃ tu uv tuv, addTaint u t = { state := tu } ∧ addTaint v tu = { state := tuv } ∧
      addTaint v u = { state := uv } ∧ addTaint uv t = { state := tuv }) ∧
    addTaint t t = { state := t } := by
  obtain ⟨tu, attached, labels⟩ := addTaint_spec wf wfU
  obtain ⟨uv, attached', labels'⟩ := addTaint_spec wfU wfV
  obtain ⟨tuv, attached'', labels''⟩ := addTaint_spec labels.wellFormed wfV
  refine ⟨fun r => ?_, ⟨tu, attached, ?_, labels.wellFormed, fun p => ?_⟩, ?_, ?_,
    ⟨tu, uv, tuv, attached, attached'', attached', ?_⟩, ?_⟩
  · obtain ⟨t', ok, labels⟩ := addRange_spec wf r
    refine ⟨t', ok, (addRangeInOnePass_eq wf r).trans ok, labels.wellFormed, fun p => ?_⟩
    rw [labels.chainAt, Range.label]
    split <;> rfl
  · rw [attachInOnePass_eq wf]
    exact attached
  · rw [labels.chainAt]
    cases u.chainAt p <;> simp
  · exact addTaint_eq_done wf wellFormed_untainted ⟨wf, fun p => (Option.none_or).symm⟩
  · exact addTaint_eq_done wellFormed_untainted wf ⟨wf, fun p => (Option.or_none).symm⟩
  · refine addTaint_eq_done wf labels'.wellFormed (labels''.congr fun p => ?_)
    rw [labels.chainAt, labels'.chainAt, Option.or_assoc]
  · exact addTaint_eq_done wf wf ⟨wf, fun p => Option.or_self.symm⟩

/-- A range closes the gap between two under its chain, and taint that straddles the gap wins on
both sides of it. -/
theorem addTaint_union_straddled :
    let read : Chain := .ofSource { name := "read" } 0
    let join : Chain := .ofSource { name := "join" } 1
    let t := ofList (Range.span 0 4 read ++ Range.span 6 9 read)
    let u := ofList (Range.span 3 7 join)
    t.WellFormed ∧ u.WellFormed ∧
      (∃ t', t.addRangeInOnePass ⟨4, 6, read, by decide, by decide⟩ = .ok t' ∧
        t'.chainAt 3 = some read ∧ t'.chainAt 5 = some read) ∧
      (∃ tu, addTaint u t = { state := tu } ∧ tu.chainAt 2 = some read ∧
        tu.chainAt 4 = some join ∧ tu.chainAt 7 = some read) ∧
      ∃ tu ut tut, addTaint u t = { state := tu } ∧ addTaint t tu = { state := tut } ∧
        addTaint t u = { state := ut } ∧ addTaint ut t = { state := tut } := by
  intro read join t u
  have wf : t.WellFormed := by decide
  have wfU : u.WellFormed := by decide
  obtain ⟨range, ⟨tu, attached, -, -, chains⟩, -, -, associative, -⟩ := addTaint_union wf wfU wf
  obtain ⟨t', -, inOnePass, -, chains'⟩ := range ⟨4, 6, read, by decide, by decide⟩
  exact ⟨wf, wfU, ⟨t', inOnePass, chains' 3, chains' 5⟩,
    ⟨tu, attached, chains 2, chains 4, chains 7⟩, associative⟩

/-! ## Any order -/

/-- Of disjoint ranges listed by where they start, those that are not empty are in order.  An empty
one may stand behind a range that it is in the middle of. -/
theorem inOrder_filled_of_sorted (disjoint : ranges.Pairwise Range.Disjoint)
    (sorted : ranges.Pairwise fun a b => a.start ≤ b.start) :
    InOrder (ranges.filter fun r => ¬ r.IsEmpty) := by
  refine List.pairwise_filter.mpr ((disjoint.and sorted).imp ?_)
  rintro a b ⟨apart, starts⟩ filledA filledB
  have filled : ¬ a.IsEmpty ∧ ¬ b.IsEmpty := ⟨by simpa using filledA, by simpa using filledB⟩
  rcases Range.disjoint_iff.mp apart with isEmpty | isEmpty | ordered | inverted
  · exact absurd isEmpty filled.1
  · exact absurd isEmpty filled.2
  · exact ordered
  · have inside := Nat.lt_of_le_of_ne b.start_le_stop filled.2
    omega

/-- Disjoint ranges listed by where they start can be built from. -/
theorem ofRanges_spec_of_sorted (disjoint : ranges.Pairwise Range.Disjoint)
    (sorted : ranges.Pairwise fun a b => a.start ≤ b.start) :
    ∃ t, ofRanges ranges = .ok t ∧ t.HasLabels (labelIn ranges) := by
  obtain ⟨t, ok, labels⟩ := ofRanges_spec (inOrder_filled_of_sorted disjoint sorted)
  rw [ofRanges_filter_filled] at ok
  exact ⟨t, ok, labels.congr (labelIn_filter_filled ranges)⟩

/-- Disjoint ranges that are attached where there is no taint label the positions. -/
theorem forEach_addRange_untainted (disjoint : ranges.Pairwise Range.Disjoint) :
    ∃ t, Edit.forEach ranges (fun r => Edit.step (·.addRange r)) untainted = { state := t } ∧
      t.HasLabels (labelIn ranges) := by
  obtain ⟨t, done, labels⟩ := forEach_addRange_spec wellFormed_untainted ranges
  refine ⟨t, done, labels.congr fun p => ?_⟩
  rw [chainAt_untainted, Option.or_none, ← labelIn_perm disjoint (List.reverse_perm ranges).symm]

theorem pairwise_mergeSort_start (ranges : List Range) :
    (ranges.mergeSort fun a b => a.start ≤ b.start).Pairwise fun a b => a.start ≤ b.start := by
  have sorted : (ranges.mergeSort fun a b => a.start ≤ b.start).Pairwise
      fun a b => decide (a.start ≤ b.start) = true :=
    List.pairwise_mergeSort
      (fun a b c ab bc => by simp only [decide_eq_true_eq] at ab bc ⊢; omega)
      (fun a b => by simp only [Bool.or_eq_true, decide_eq_true_eq]; omega) ranges
  simpa using sorted

/-- **Disjoint ranges make the same taint in every order.**  Where there is no taint, ranges that
share no position may be attached in any order, also in passes: what they make is the taint that is
built from them, listed by where they start, and that listing is never refused. -/
theorem attach_perm (disjoint : ranges.Pairwise Range.Disjoint) :
    ∃ t, (∀ order : List Range, order.Perm ranges →
        Edit.forEach order (fun r => Edit.step (·.addRange r)) untainted = { state := t } ∧
        attachInOnePass order untainted = { state := t }) ∧
      (∀ sorted : List Range, sorted.Perm ranges →
        (sorted.Pairwise fun a b => a.start ≤ b.start) → ofRanges sorted = .ok t) ∧
      ofRanges (ranges.mergeSort fun a b => a.start ≤ b.start) = .ok t := by
  obtain ⟨t, -, labels⟩ := forEach_addRange_untainted disjoint
  have built : ∀ sorted : List Range, sorted.Perm ranges →
      (sorted.Pairwise fun a b => a.start ≤ b.start) → ofRanges sorted = .ok t := by
    intro sorted perm starts
    have disjoint' := perm.symm.pairwise disjoint Range.Disjoint.symm
    obtain ⟨t', ok, labels'⟩ := ofRanges_spec_of_sorted disjoint' starts
    rw [ok, (labels'.congr (labelIn_perm disjoint' perm)).unique labels]
  refine ⟨t, fun order perm => ?_, built, built _ (List.mergeSort_perm ..)
    (pairwise_mergeSort_start ranges)⟩
  have disjoint' := perm.symm.pairwise disjoint Range.Disjoint.symm
  obtain ⟨t', done, labels'⟩ := forEach_addRange_untainted disjoint'
  rw [attachInOnePass_eq wellFormed_untainted, done,
    (labels'.congr (labelIn_perm disjoint' perm)).unique labels]
  exact ⟨rfl, rfl⟩

/-- Three ranges under one chain, the last of which closes the gap between the two others, and two
empty ones inside of them: in this order and in the reverse one they make one range. -/
theorem attach_perm_closed :
    let read : Chain := .ofSource { name := "read" } 0
    let join : Chain := .ofSource { name := "join" } 1
    let ranges : List Range := [⟨6, 9, read, by decide, by decide⟩,
      ⟨2, 2, join, by decide, by decide⟩, ⟨0, 3, read, by decide, by decide⟩,
      ⟨5, 5, read, by decide, by decide⟩, ⟨3, 6, read, by decide, by decide⟩]
    let t : Taint := ⟨some [⟨0, 9, read, by decide, by decide⟩]⟩
    ranges.Pairwise Range.Disjoint ∧ attachInOnePass ranges untainted = { state := t } ∧
      attachInOnePass ranges.reverse untainted = { state := t } ∧
      ofRanges (ranges.mergeSort fun a b => a.start ≤ b.start) = .ok t := by
  intro read join ranges t
  have disjoint : ranges.Pairwise Range.Disjoint := by decide
  obtain ⟨t', attached, built, sorted⟩ := attach_perm disjoint
  have listed : ofRanges [⟨0, 3, read, by decide, by decide⟩, ⟨2, 2, join, by decide, by decide⟩,
      ⟨3, 6, read, by decide, by decide⟩, ⟨5, 5, read, by decide, by decide⟩,
      ⟨6, 9, read, by decide, by decide⟩] = .ok t' := built _ (by decide) (by decide)
  obtain rfl : t' = t := Except.ok.inj (listed.symm.trans (by decide))
  exact ⟨disjoint, (attached _ (.refl _)).2, (attached _ (List.reverse_perm _)).2, sorted⟩

end Taint

end TextProvenance
