import TextProvenance.Proofs.Taint.Builder

/-!
# Well-formed taint is canonical

Well-formed taint is determined by the chains of its positions
(`Taint.WellFormed.eq_iff_chainAt_eq`).

Labels determine the first range of a list: it starts at the first labelled position, the label
there is its chain, and it stops where that label does, since a range that goes on where another one
stops has another chain (`labelIn_stop_ne`).  What is behind the first range is determined in the
same way, so two lists with the same labels are walked through together.
-/

namespace TextProvenance

open Taint (Separated)

variable {r s : Range} {ranges others : List Range} {p : Nat}

/-! ## The first range of a list -/

theorem Range.covers_start (filled : ¬ r.IsEmpty) : r.Covers r.start :=
  ⟨Nat.le_refl _, Nat.lt_of_le_of_ne r.start_le_stop filled⟩

/-- The label of the first range does not go on where the range stops. -/
theorem labelIn_stop_ne (filled : ∀ x ∈ ranges, ¬ x.IsEmpty)
    (separated : Separated (r :: ranges)) : labelIn (r :: ranges) r.stop ≠ some r.chain := by
  have order := Taint.inOrder_of_separated separated
  have behind := labelIn_tail order r.stop
  rw [if_neg (Nat.lt_irrefl _)] at behind
  rw [← behind]
  cases ranges with
  | nil => exact nofun
  | cons next rest =>
    have precedes : r.Precedes next := separated.1
    by_cases touching : r.stop = next.start
    · have covers : next.Covers r.stop := touching ▸ Range.covers_start (filled next (by simp))
      rw [labelIn_cons_of_covers covers]
      exact fun same => precedes.2 touching (Option.some.inj same).symm
    · have gap : r.stop < next.start := Nat.lt_of_le_of_ne precedes.1 touching
      rw [labelIn_eq_none_of_lt_start (inOrder_cons.mp order).2 gap]
      exact nofun

/-! ## Two lists with the same labels -/

section Same

variable (same : ∀ p, labelIn (r :: ranges) p = labelIn (s :: others) p)
include same

theorem start_le_of_labelIn_eq (order : InOrder (r :: ranges)) (filled : ¬ s.IsEmpty) :
    r.start ≤ s.start := by
  by_contra early
  have nothing := labelIn_eq_none_of_lt_start order (Nat.lt_of_not_le early)
  rw [same, labelIn_cons_of_covers (Range.covers_start filled)] at nothing
  cases nothing

theorem stop_le_of_labelIn_eq (filled : ∀ x ∈ r :: ranges, ¬ x.IsEmpty)
    (separated : Separated (r :: ranges)) (start : r.start = s.start)
    (chain : r.chain = s.chain) : s.stop ≤ r.stop := by
  by_contra longer
  have covers : s.Covers r.stop :=
    ⟨start ▸ r.start_le_stop, Nat.lt_of_not_le longer⟩
  have stops := labelIn_stop_ne (fun x mem => filled x (by simp [mem])) separated
  rw [same, labelIn_cons_of_covers covers] at stops
  exact stops (congrArg some chain.symm)

/-- The first ranges of two canonical lists with the same labels are the same. -/
theorem head_eq_of_labelIn_eq (filled : ∀ x ∈ r :: ranges, ¬ x.IsEmpty)
    (separated : Separated (r :: ranges)) (filled' : ∀ x ∈ s :: others, ¬ x.IsEmpty)
    (separated' : Separated (s :: others)) : r = s := by
  have order := Taint.inOrder_of_separated separated
  have order' := Taint.inOrder_of_separated separated'
  have start : r.start = s.start := Nat.le_antisymm
    (start_le_of_labelIn_eq same order (filled' s (by simp)))
    (start_le_of_labelIn_eq (fun p => (same p).symm) order' (filled r (by simp)))
  have chain : r.chain = s.chain := by
    have first := same r.start
    rw [labelIn_cons_of_covers (Range.covers_start (filled r (by simp))), start,
      labelIn_cons_of_covers (Range.covers_start (filled' s (by simp)))] at first
    exact Option.some.inj first
  have stop : r.stop = s.stop := Nat.le_antisymm
    (stop_le_of_labelIn_eq (fun p => (same p).symm) filled' separated' start.symm chain.symm)
    (stop_le_of_labelIn_eq same filled separated start chain)
  exact Range.eq_of_bounds start stop chain

end Same

/-- Canonical lists with the same labels are the same.  The induction is on both lists at once:
their first ranges are the same, so the labels behind these are the same too. -/
theorem eq_of_labelIn_eq (filled : ∀ x ∈ ranges, ¬ x.IsEmpty) (separated : Separated ranges)
    (filled' : ∀ x ∈ others, ¬ x.IsEmpty) (separated' : Separated others)
    (same : ∀ p, labelIn ranges p = labelIn others p) : ranges = others := by
  induction ranges generalizing others with
  | nil =>
    cases others with
    | nil => rfl
    | cons s _ =>
      have first := same s.start
      rw [labelIn_cons_of_covers (Range.covers_start (filled' s (by simp)))] at first
      cases first
  | cons r ranges ih =>
    cases others with
    | nil =>
      have first := same r.start
      rw [labelIn_cons_of_covers (Range.covers_start (filled r (by simp)))] at first
      cases first
    | cons s others =>
      obtain rfl := head_eq_of_labelIn_eq same filled separated filled' separated'
      have order := Taint.inOrder_of_separated separated
      have order' := Taint.inOrder_of_separated separated'
      have behind : ∀ p, labelIn ranges p = labelIn others p := fun p => by
        rw [labelIn_tail order, labelIn_tail order', same]
      rw [ih (fun x mem => filled x (by simp [mem])) (Taint.separated_tail separated)
        (fun x mem => filled' x (by simp [mem])) (Taint.separated_tail separated') behind]

namespace Taint

variable {t u : Taint}

/-- Well-formed taint is determined by its ranges, since it has no list without ranges. -/
theorem WellFormed.eq_ofList (wf : t.WellFormed) : t = ofList t.ranges := by
  match t, wf with
  | ⟨none⟩, _ => rfl
  | ⟨some []⟩, wf => exact absurd rfl wf.1
  | ⟨some (_ :: _)⟩, _ => rfl

theorem WellFormed.chainAt_of_last_le (wf : t.WellFormed) (late : Position.last ≤ p) :
    t.chainAt p = none :=
  wf.stop_le_iff.mp t.stop_le_last p late

theorem WellFormed.eq_of_chainAt_eq (wf : t.WellFormed) (wf' : u.WellFormed)
    (same : ∀ p ≤ Position.last, t.chainAt p = u.chainAt p) : t = u := by
  have everywhere : ∀ p, t.chainAt p = u.chainAt p := fun p => by
    rcases Nat.le_total p Position.last with bounded | late
    · exact same p bounded
    · rw [wf.chainAt_of_last_le late, wf'.chainAt_of_last_le late]
  have ranges : t.ranges = u.ranges :=
    eq_of_labelIn_eq wf.canonical.1 wf.canonical.2 wf'.canonical.1 wf'.canonical.2 fun p => by
      rw [← wf.chainAt_eq, ← wf'.chainAt_eq, everywhere]
  rw [wf.eq_ofList, wf'.eq_ofList, ranges]

/-! ## Results known by their labels -/

variable {label : Nat → Option Chain}

theorem HasLabels.unique (labels : t.HasLabels label) (labels' : u.HasLabels label) : t = u :=
  labels.wellFormed.eq_of_chainAt_eq labels'.wellFormed fun p _ => by
    rw [labels.chainAt, labels'.chainAt]

/-- A result is known once its labels are. -/
theorem HasLabels.eq_ok {result : Except Fault Taint} (labels : u.HasLabels label)
    (spec : ∃ t', result = .ok t' ∧ t'.HasLabels label) : result = .ok u := by
  obtain ⟨t', ok, labels'⟩ := spec
  rw [ok, labels'.unique labels]

/-- What an edit leaves is known once its labels are. -/
theorem HasLabels.eq_done {outcome : Outcome Taint} (labels : u.HasLabels label)
    (spec : ∃ t', outcome = { state := t' } ∧ t'.HasLabels label) : outcome = { state := u } := by
  obtain ⟨t', done, labels'⟩ := spec
  rw [done, labels'.unique labels]

/-! ## Equality -/

/-- **Well-formed taint is canonical.**  Two pieces of well-formed taint are equal exactly if every
position has the same chain in both, and each way to say that there is no taint means that no
position has a chain. -/
theorem WellFormed.eq_iff_chainAt_eq (wf : t.WellFormed) (wf' : u.WellFormed) :
    (t = u ↔ ∀ p ≤ Position.last, t.chainAt p = u.chainAt p) ∧
    (t.ranges? = none ↔ ∀ p ≤ Position.last, t.chainAt p = none) ∧
    (t = untainted ↔ ∀ p ≤ Position.last, t.chainAt p = none) ∧
    (t.isTainted = false ↔ ∀ p ≤ Position.last, t.chainAt p = none) := by
  have clean : t = untainted ↔ ∀ p ≤ Position.last, t.chainAt p = none :=
    ⟨fun same p _ => by rw [same, chainAt_untainted], wf.eq_of_chainAt_eq wellFormed_untainted⟩
  have absent : t.ranges? = none ↔ t = untainted := by
    cases t
    simp [untainted]
  have present : t.isTainted = false ↔ t.ranges? = none := by
    simp [isTainted]
  exact ⟨⟨fun same _ _ => by rw [same], wf.eq_of_chainAt_eq wf'⟩, absent.trans clean, clean,
    present.trans (absent.trans clean)⟩

/-- Two ranges that touch, under chains recorded apart from operations that agree, are not one
range over both: a position has another chain there. -/
theorem WellFormed.eq_iff_chainAt_eq_touching :
    ¬ ∀ p ≤ Position.last,
      chainAt ⟨some [⟨0, 2, .ofSource { name := "read" } 0, by decide, by decide⟩,
        ⟨2, 5, .ofSource { name := "read" } 1, by decide, by decide⟩]⟩ p =
      chainAt ⟨some [⟨0, 5, .ofSource { name := "read" } 0, by decide, by decide⟩]⟩ p := by
  have canonical := WellFormed.eq_iff_chainAt_eq
    (t := ⟨some [⟨0, 2, .ofSource { name := "read" } 0, by decide, by decide⟩,
      ⟨2, 5, .ofSource { name := "read" } 1, by decide, by decide⟩]⟩)
    (u := ⟨some [⟨0, 5, .ofSource { name := "read" } 0, by decide, by decide⟩]⟩)
    (by decide) (by decide)
  exact fun same => absurd (canonical.1.mpr same) (by decide)

end Taint

end TextProvenance
