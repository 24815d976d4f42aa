import TextProvenance.Proofs.Taint.Words

/-!
# All ways to overwrite taint agree

A window is given a chain by attaching a range, or by clearing the window and inserting taint of its
length; a single position also by `Taint.set`.  Each of them leaves the same labels
(`Taint.replacedLabel`), and well-formed taint is canonical, so each leaves the same ranges
(`Taint.overwrites_agree`), wherever the window lies and whatever it touches.
-/

namespace TextProvenance.Taint

variable {t : Taint} {index : Nat} {label : Nat → Option Chain} {chain : Chain}

/-- A range gives its chain to its positions, as a range of its length does that is counted from
where it starts. -/
theorem label_or_eq_replacedLabel {r x : Range} (starts : x.start = 0)
    (stops : x.stop = r.stop - r.start) (chain : x.chain = r.chain) (p : Nat) :
    (r.label p).or (label p) = replacedLabel r.start r.stop label x.label p := by
  unfold replacedLabel
  by_cases covers : r.Covers p
  · have covered : r.start ≤ p ∧ p < r.stop := covers
    have inside : x.Covers (p - r.start) := ⟨by omega, by omega⟩
    rw [if_pos covered, Range.label_of_covers covers, Range.label_of_covers inside, chain,
      Option.some_or]
  · have free : ¬ (r.start ≤ p ∧ p < r.stop) := covers
    rw [if_neg free, Range.label_of_not_covers covers, Option.none_or]

/-- Attaching a range does what clearing its window and inserting a range of its length does. -/
theorem exists_clearBetween_insert_of_addRange {r x : Range} {attached : Taint} (wf : t.WellFormed)
    (filled : r.start < r.stop) (starts : x.start = 0) (stops : x.stop = r.stop - r.start)
    (chain : x.chain = r.chain) (attach : t.addRange r = .ok attached) :
    ∃ block cleared, ofRange x = .ok block ∧ block.WellFormed ∧
      t.clearBetween r.start r.stop = .ok cleared ∧ cleared.WellFormed ∧
      cleared.insert r.start block = .ok attached := by
  obtain ⟨block, made, holds, labels⟩ := exists_ofRange x
  obtain ⟨cleared, replaced, clear, wfCleared, insert, labels'⟩ :=
    exists_clearBetween_insert wf labels.wellFormed filled r.stop_le_last (by omega)
  have overwritten := HasLabels.of_eq_ok attach (addRange_spec wf r)
  refine ⟨block, cleared, made, labels.wellFormed, clear, wfCleared, overwritten.eq_ok
    ⟨replaced, insert, labels'.congr fun p => ?_⟩⟩
  rw [funext labels.chainAt, label_or_eq_replacedLabel starts stops chain]

/-- Giving a position a chain does what attaching a range of this one position does. -/
theorem set_eq_of_addRange {r : Range} {t' : Taint} (wf : t.WellFormed)
    (inside : index < Position.last) (bounds : Range.ofBounds index (index + 1) chain = .ok r)
    (attached : t.addRange r = .ok t') : set index chain t = { state := t' } := by
  obtain rfl : ⟨index, index + 1, chain, Nat.le_succ index, inside⟩ = r :=
    Except.ok.inj ((Range.ofBounds_eq_ok (Nat.le_succ index) inside).symm.trans bounds)
  have labels := HasLabels.of_eq_ok attached (addRange_spec wf _)
  obtain ⟨given, done, labels'⟩ := set_spec wf inside chain
  refine labels.eq_done ⟨given, done, labels'.congr fun p => ?_⟩
  rw [label_single, setLabel]
  split <;> rfl

/-! ## All ways -/

/-- **All ways to overwrite taint agree.**  Attaching a range leaves what is left by clearing its
window and inserting taint of the length of the window, under the same chain; and giving a position
a chain leaves what attaching a range of this position leaves.  None of them fails, and none leaves
other ranges than the others do; it makes no difference that they are worked out in machine words,
and that ranges behind the end are appended. -/
theorem overwrites_agree (wf : t.WellFormed) (chain : Chain) :
    (∀ start stop, start < stop → stop ≤ Position.last →
      ∃ r x block cleared t', Range.ofBounds start stop chain = .ok r ∧
        Range.ofBounds 0 (stop - start) chain = .ok x ∧ ofRange x = .ok block ∧
        t.addRange r = .ok t' ∧ t.addRangeInWords r = .ok t' ∧
        t.clearBetween start stop = .ok cleared ∧ t.clearBetweenInWords start stop = .ok cleared ∧
        cleared.insert start block = .ok t' ∧ cleared.insertInWords start block = .ok t' ∧
        t'.WellFormed ∧
        ∀ p, t'.chainAt p = if start ≤ p ∧ p < stop then some chain else t.chainAt p) ∧
    ∀ index < Position.last,
      ∃ r t', Range.ofBounds index (index + 1) chain = .ok r ∧
        t.addRange r = .ok t' ∧ t.addRangeInWords r = .ok t' ∧
        set index chain t = { state := t' } ∧ setInWords index chain t = { state := t' } := by
  refine ⟨fun start stop filled bounded => ?_, fun index inside => ?_⟩
  · have ordered := Nat.le_of_lt filled
    have shorter : stop - start ≤ Position.last := by omega
    let r : Range := ⟨start, stop, chain, ordered, bounded⟩
    let x : Range := ⟨0, stop - start, chain, Nat.zero_le _, shorter⟩
    obtain ⟨attached, attach, labels⟩ := addRange_spec wf r
    obtain ⟨block, cleared, made, wfBlock, clear, wfCleared, insert⟩ :=
      exists_clearBetween_insert_of_addRange (r := r) (x := x) wf filled rfl rfl rfl attach
    refine ⟨r, x, block, cleared, attached, Range.ofBounds_eq_ok ordered bounded,
      Range.ofBounds_eq_ok (Nat.zero_le _) shorter, made, attach,
      (addRangeInWords_eq wf r).trans attach, clear,
      (clearBetweenInWords_eq wf start stop).trans clear, insert,
      (insertInWords_eq wfCleared wfBlock start).trans insert, labels.wellFormed, fun p => ?_⟩
    rw [labels.chainAt]
    by_cases covers : r.Covers p
    · rw [Range.label_of_covers covers, Option.some_or]
      exact (if_pos covers).symm
    · rw [Range.label_of_not_covers covers, Option.none_or]
      exact (if_neg covers).symm
  · obtain ⟨attached, attach, -⟩ :=
      addRange_spec wf ⟨index, index + 1, chain, Nat.le_succ index, inside⟩
    have bounds := Range.ofBounds_eq_ok (c := chain) (Nat.le_succ index) inside
    have given := set_eq_of_addRange wf inside bounds attach
    exact ⟨_, attached, bounds, attach, (addRangeInWords_eq wf _).trans attach, given,
      (setInWords_eq wf (Nat.le_of_lt inside) chain).trans given⟩

/-- A window between two ranges under one chain, and its first position alone, are given the chain
of the ranges. -/
theorem overwrites_agree_between :
    let read : Chain := .ofSource { name := "read" } 0
    let t := ofList (Range.span 0 2 read ++ Range.span 4 6 read)
    t.WellFormed ∧
      (∃ r x block cleared, Range.ofBounds 2 4 read = .ok r ∧ Range.ofBounds 0 2 read = .ok x ∧
        ofRange x = .ok block ∧ t.clearBetween 2 4 = .ok cleared ∧
        cleared.insert 2 block = .ok (ofList (Range.span 0 6 read)) ∧
        t.addRange r = .ok (ofList (Range.span 0 6 read))) ∧
      ∃ r t', Range.ofBounds 2 3 read = .ok r ∧ t.addRange r = .ok t' ∧
        set 2 read t = { state := t' } := by
  intro read t
  have wf : t.WellFormed := by decide
  obtain ⟨overwrite, give⟩ := overwrites_agree wf read
  obtain ⟨r, x, block, cleared, t', bounds, bounds', made, attach, -, clear, -, insert, -⟩ :=
    overwrite 2 4 (by decide) (by decide)
  obtain ⟨r', t'', bounds'', attach', -, given, -⟩ := give 2 (by decide)
  have joined : t.addRange r = .ok (ofList (Range.span 0 6 read)) := by
    cases bounds
    decide
  obtain rfl := Except.ok.inj (joined.symm.trans attach)
  exact ⟨wf, ⟨r, x, block, cleared, bounds, bounds', made, clear, insert, attach⟩,
    r', t'', bounds'', attach', given⟩

end TextProvenance.Taint
