import TextProvenance.Proofs.Edit
import TextProvenance.Proofs.Taint.Labels

/-!
# What a builder makes

`Builder.Pushed` says once what taking a range can do to a builder; everything else about builders
is a case analysis of it and an induction over the ranges taken:

* `Builder.pushAll_canonical`: what has been taken stays canonical,
* `Builder.label_pushAll`: it labels a position as the ranges do,
* `Builder.exists_pushAll`: no range in order is refused.

So taint built from ranges is well formed, and it is known by its labels (`Taint.ofRanges_spec`).
-/

namespace TextProvenance

namespace Builder

variable {b b' : Builder} {r : Range} {ranges : List Range} {p : Nat}

/-- The chain that the ranges taken so far give to a position. -/
def label (b : Builder) (p : Nat) : Option Chain := labelIn b.latestFirst.reverse p

/-- The ranges taken so far are not empty, and their neighbours may stand next to each other. -/
def Canonical (b : Builder) : Prop :=
  (∀ r ∈ b.latestFirst, ¬ r.IsEmpty) ∧ Taint.Separated b.latestFirst.reverse

/-! ## Taking one range -/

/-- How a builder goes on after taking a range. -/
inductive Pushed (b : Builder) (r : Range) : Builder → Prop
  | empty (isEmpty : r.IsEmpty) : Pushed b r b
  | first (filled : ¬ r.IsEmpty) (nothing : b.latestFirst = []) : Pushed b r ⟨[r]⟩
  | joined {last : Range} {earlier : List Range} (filled : ¬ r.IsEmpty)
      (taken : b.latestFirst = last :: earlier) (touching : last.stop = r.start)
      (chain : last.chain = r.chain) : Pushed b r ⟨last.joined r touching :: earlier⟩
  | next {last : Range} {earlier : List Range} (filled : ¬ r.IsEmpty)
      (taken : b.latestFirst = last :: earlier) (precedes : last.Precedes r) :
      Pushed b r ⟨r :: last :: earlier⟩

theorem stop_of_latestFirst {last : Range} {earlier : List Range}
    (taken : b.latestFirst = last :: earlier) : b.stop = last.stop := by
  simp [stop, taken]

theorem stop_of_latestFirst_nil (nothing : b.latestFirst = []) : b.stop = 0 := by
  simp [stop, nothing]

/-- A range is refused exactly if it is not empty and starts before the last one stops. -/
theorem push_eq_error_iff :
    (∃ fault, b.push r = .error fault) ↔ ¬ r.IsEmpty ∧ r.start < b.stop := by
  unfold push
  split
  · rename_i isEmpty
    simp [isEmpty]
  · rename_i filled
    split
    · rename_i nothing
      simp [stop_of_latestFirst_nil nothing]
    · rename_i last earlier taken
      rw [stop_of_latestFirst taken]
      split
      · rename_i early
        simp [filled, early]
      · rename_i late
        split <;> simp [late]

theorem pushed_of_push (ok : b.push r = .ok b') : Pushed b r b' := by
  unfold push at ok
  split at ok
  · cases ok
    exact .empty ‹_›
  · rename_i filled
    split at ok
    · cases ok
      exact .first filled ‹_›
    · rename_i last earlier taken
      split at ok
      · cases ok
      · rename_i late
        split at ok
        · rename_i joins
          cases ok
          exact .joined filled taken joins.1 joins.2
        · rename_i apart
          cases ok
          exact .next filled taken ⟨Nat.le_of_not_lt late, fun touching chain =>
            apart ⟨touching, chain⟩⟩

theorem exists_push (fits : r.IsEmpty ∨ b.stop ≤ r.start) : ∃ b', b.push r = .ok b' := by
  cases pushed : b.push r with
  | ok b' => exact ⟨b', rfl⟩
  | error fault =>
    obtain ⟨filled, early⟩ := push_eq_error_iff.mp ⟨fault, pushed⟩
    rcases fits with isEmpty | late
    · exact absurd isEmpty filled
    · omega

theorem Pushed.stop (pushed : Pushed b r b') : b'.stop = if r.IsEmpty then b.stop else r.stop := by
  cases pushed with
  | empty isEmpty => rw [if_pos isEmpty]
  | first filled _ => rw [if_neg filled]; rfl
  | joined filled _ _ _ => rw [if_neg filled]; rfl
  | next filled _ _ => rw [if_neg filled]; rfl

/-- The range that two touching ranges join to covers the positions of both. -/
theorem label_joined {a b : Range} (touching : a.stop = b.start) (chain : a.chain = b.chain) :
    (a.joined b touching).label p = (a.label p).or (b.label p) := by
  have first := a.start_le_stop
  have second := b.start_le_stop
  by_cases inFirst : a.Covers p
  · have covers : (a.joined b touching).Covers p :=
      ⟨inFirst.1, by have := inFirst.2; simp only [Range.joined]; omega⟩
    rw [Range.label_of_covers covers, Range.label_of_covers inFirst, Option.some_or]
    rfl
  · rw [Range.label_of_not_covers inFirst, Option.none_or]
    simp only [Range.label, Range.Covers, Range.joined, chain] at inFirst ⊢
    congr 1
    simp only [eq_iff_iff]
    omega

theorem Pushed.label (pushed : Pushed b r b') (p : Nat) :
    b'.label p = (b.label p).or (r.label p) := by
  cases pushed with
  | empty isEmpty => rw [Range.label_of_isEmpty isEmpty, Option.or_none]
  | first _ nothing => simp [Builder.label, nothing]
  | joined filled taken touching chain =>
    simp [Builder.label, taken, labelIn_append, label_joined touching chain, Option.or_assoc]
  | next filled taken precedes =>
    simp [Builder.label, taken, labelIn_append, Option.or_assoc]

/-- Taking a range keeps the ranges canonical.  Where it is joined to the last one, the joined range
starts where that one starts, so it may stand where that one stands. -/
theorem Pushed.canonical (pushed : Pushed b r b') (canonical : b.Canonical) : b'.Canonical := by
  rcases canonical with ⟨filledAll, separated⟩
  cases pushed with
  | empty _ => exact ⟨filledAll, separated⟩
  | first filled _ => exact ⟨by simpa using filled, trivial⟩
  | @joined last earlier filled taken touching chain =>
    rw [taken] at filledAll separated
    have lastFilled := filledAll last (by simp)
    constructor
    · intro x mem
      rcases List.mem_cons.mp mem with rfl | mem
      · have := last.start_le_stop
        have := r.start_le_stop
        simp only [Range.IsEmpty, Range.joined] at filled lastFilled ⊢
        omega
      · exact filledAll x (by simp [mem])
    · rw [Taint.separated_iff_isChain, List.reverse_cons, List.isChain_append] at separated ⊢
      refine ⟨separated.1, by simp, ?_⟩
      intro x memX y memY
      have precedes := separated.2.2 x memX last (by simp)
      cases Option.some.inj memY
      exact precedes
  | @next last earlier filled taken precedes =>
    rw [taken] at filledAll separated
    constructor
    · intro x mem
      rcases List.mem_cons.mp mem with rfl | mem
      · exact filled
      · exact filledAll x mem
    · rw [Taint.separated_iff_isChain] at separated ⊢
      rw [List.reverse_cons, List.isChain_append]
      refine ⟨separated, by simp, ?_⟩
      intro x memX y memY
      have lastX : last = x := by simpa using memX
      cases Option.some.inj memY
      exact lastX ▸ precedes

/-! ## Taking ranges one after the other -/

theorem pushAll_cons :
    b.pushAll (r :: ranges) = b.push r >>= fun b' => b'.pushAll ranges := by
  rw [pushAll, List.foldlM_cons]
  rfl

/-- A run of pushes is a first push and a run of pushes after it. -/
theorem exists_of_pushAll_cons (ok : b.pushAll (r :: ranges) = .ok b') :
    ∃ middle, Pushed b r middle ∧ middle.pushAll ranges = .ok b' := by
  rw [pushAll_cons] at ok
  rcases bind_eq_ok_iff.mp ok with ⟨middle, first, rest⟩
  exact ⟨middle, pushed_of_push first, rest⟩

theorem pushAll_canonical (canonical : b.Canonical) (ok : b.pushAll ranges = .ok b') :
    b'.Canonical := by
  induction ranges generalizing b with
  | nil => cases ok; exact canonical
  | cons r rest ih =>
    obtain ⟨middle, pushed, rest⟩ := exists_of_pushAll_cons ok
    exact ih (pushed.canonical canonical) rest

theorem label_pushAll (ok : b.pushAll ranges = .ok b') (p : Nat) :
    b'.label p = (b.label p).or (labelIn ranges p) := by
  induction ranges generalizing b with
  | nil => cases ok; simp
  | cons r rest ih =>
    obtain ⟨middle, pushed, rest⟩ := exists_of_pushAll_cons ok
    rw [ih rest, pushed.label, labelIn_cons, Option.or_assoc]

/-- Ranges in order, none of which starts before the last one taken stops, are all taken. -/
theorem exists_pushAll (order : InOrder ranges) (late : ∀ r ∈ ranges, b.stop ≤ r.start) :
    ∃ b', b.pushAll ranges = .ok b' := by
  induction ranges generalizing b with
  | nil => exact ⟨b, rfl⟩
  | cons r rest ih =>
    rcases inOrder_cons.mp order with ⟨later, orderRest⟩
    obtain ⟨middle, push⟩ := exists_push (b := b) (r := r) (.inr (late r (by simp)))
    have lateRest : ∀ x ∈ rest, middle.stop ≤ x.start := by
      intro x mem
      rw [(pushed_of_push push).stop]
      split
      · exact late x (by simp [mem])
      · exact later x mem
    rcases ih orderRest lateRest with ⟨b', run⟩
    exact ⟨b', by rw [pushAll_cons, push]; exact run⟩

theorem push_of_precedes (filled : ¬ r.IsEmpty)
    (precedes : ∀ last ∈ b.latestFirst.head?, last.Precedes r) :
    b.push r = .ok ⟨r :: b.latestFirst⟩ := by
  rw [push, if_neg filled]
  split
  · rename_i nothing
    rw [nothing]
  · rename_i last earlier taken
    rcases precedes last (by simp [taken]) with ⟨late, apart⟩
    rw [if_neg (Nat.not_lt_of_le late), dif_neg fun joins => apart joins.1 joins.2, taken]

/-- Ranges whose neighbours may stand next to each other, apart from empty ones, are taken as they
are. -/
theorem pushAll_of_separated (separated : Taint.Separated
      (b.latestFirst.reverse ++ ranges.filter fun r => ¬ r.IsEmpty)) :
    b.pushAll ranges = .ok ⟨(ranges.filter fun r => ¬ r.IsEmpty).reverse ++ b.latestFirst⟩ := by
  induction ranges generalizing b with
  | nil => rfl
  | cons r rest ih =>
    by_cases isEmpty : r.IsEmpty
    · rw [List.filter_cons_of_neg (by simpa using isEmpty)] at separated ⊢
      rw [pushAll_cons, push, if_pos isEmpty]
      exact ih separated
    · rw [List.filter_cons_of_pos (by simpa using isEmpty)] at separated ⊢
      have precedes : ∀ last ∈ b.latestFirst.head?, last.Precedes r := by
        rw [Taint.separated_iff_isChain, List.isChain_append, List.getLast?_reverse] at separated
        exact fun last atHead => separated.2.2 last atHead r rfl
      rw [pushAll_cons, push_of_precedes isEmpty precedes]
      refine (ih (b := ⟨r :: b.latestFirst⟩) ?_).trans ?_
      · rwa [List.reverse_cons, List.append_assoc]
      · rw [List.reverse_cons, List.append_assoc]
        rfl

/-- Empty ranges may be left out. -/
theorem pushAll_filter_filled :
    b.pushAll (ranges.filter fun r => ¬ r.IsEmpty) = b.pushAll ranges := by
  induction ranges generalizing b with
  | nil => rfl
  | cons r rest ih =>
    by_cases isEmpty : r.IsEmpty
    · rw [List.filter_cons_of_neg (by simpa using isEmpty), ih, pushAll_cons, push, if_pos isEmpty]
      rfl
    · rw [List.filter_cons_of_pos (by simpa using isEmpty), pushAll_cons, pushAll_cons]
      exact congrArg (b.push r >>= ·) (funext fun _ => ih)

theorem canonical_empty : empty.Canonical := ⟨by simp [empty], trivial⟩

/-! ## The taint of a builder -/

theorem ranges_finish : b.finish.ranges = b.latestFirst.reverse := Taint.ranges_ofList _

theorem Canonical.wellFormed_finish (canonical : b.Canonical) : b.finish.WellFormed :=
  Taint.wellFormed_ofList (by simpa using canonical.1) canonical.2

theorem Canonical.chainAt_finish (canonical : b.Canonical) (p : Nat) :
    b.finish.chainAt p = b.label p := by
  rw [canonical.wellFormed_finish.chainAt_eq, ranges_finish, label]

theorem stop_finish : b.finish.stop = b.stop := by
  rw [Taint.stop, Taint.last?, ranges_finish, List.getLast?_reverse, stop]

end Builder

namespace Taint

variable {t t' : Taint} {r : Range} {ranges : List Range} {p n : Nat}

/-- The taint is well formed, and its positions have the given chains. -/
structure HasLabels (t : Taint) (label : Nat → Option Chain) : Prop where
  wellFormed : t.WellFormed
  chainAt : ∀ p, t.chainAt p = label p

theorem HasLabels.of_eq_ok {label : Nat → Option Chain} {result : Except Fault Taint}
    (ok : result = .ok t) (spec : ∃ t', result = .ok t' ∧ t'.HasLabels label) :
    t.HasLabels label :=
  holds_of_eq_ok (P := (·.HasLabels label)) ok spec

theorem HasLabels.congr {label label' : Nat → Option Chain} (labels : t.HasLabels label)
    (same : ∀ p, label p = label' p) : t.HasLabels label' :=
  funext same ▸ labels

theorem WellFormed.canonical_ofTaint (wf : t.WellFormed) : (Builder.ofTaint t).Canonical := by
  constructor
  · simpa [Builder.ofTaint] using wf.canonical.1
  · simpa [Builder.ofTaint] using wf.canonical.2

theorem stop_ofTaint : (Builder.ofTaint t).stop = t.stop := by
  rw [Builder.stop, Builder.ofTaint, List.head?_reverse]
  rfl

theorem WellFormed.label_ofTaint (wf : t.WellFormed) (p : Nat) :
    (Builder.ofTaint t).label p = t.chainAt p := by
  rw [Builder.label, Builder.ofTaint, List.reverse_reverse, wf.chainAt_eq]

theorem exists_of_ofRanges (ok : ofRanges ranges = .ok t) :
    ∃ b, Builder.empty.pushAll ranges = .ok b ∧ b.Canonical ∧ t = b.finish := by
  rcases map_eq_ok_iff.mp ok with ⟨b, run, same⟩
  exact ⟨b, run, Builder.pushAll_canonical Builder.canonical_empty run, same.symm⟩

/-- Taint that could be built from ranges is well formed and labels positions as they do. -/
theorem hasLabels_of_ofRanges (ok : ofRanges ranges = .ok t) : t.HasLabels (labelIn ranges) := by
  obtain ⟨b, run, canonical, rfl⟩ := exists_of_ofRanges ok
  refine ⟨canonical.wellFormed_finish, fun p => ?_⟩
  rw [canonical.chainAt_finish, Builder.label_pushAll run]
  rfl

theorem wellFormed_of_ofRanges (ok : ofRanges ranges = .ok t) : t.WellFormed :=
  (hasLabels_of_ofRanges ok).wellFormed

/-- Ranges in order can be built from. -/
theorem ofRanges_spec (order : InOrder ranges) :
    ∃ t, ofRanges ranges = .ok t ∧ t.HasLabels (labelIn ranges) := by
  obtain ⟨b, run⟩ := Builder.exists_pushAll (b := .empty) order (fun _ _ => Nat.zero_le _)
  have ok : ofRanges ranges = .ok b.finish := by rw [ofRanges, run]; rfl
  exact ⟨b.finish, ok, hasLabels_of_ofRanges ok⟩

/-- Ranges whose neighbours may stand next to each other are the taint that is built from them. -/
theorem ofRanges_of_separated (separated : Separated (ranges.filter fun r => ¬ r.IsEmpty)) :
    ofRanges ranges = .ok (.ofList (ranges.filter fun r => ¬ r.IsEmpty)) := by
  have taken := Builder.pushAll_of_separated (b := .empty) separated
  rw [ofRanges, taken]
  refine congrArg (Except.ok ∘ ofList) ?_
  rw [Builder.empty, List.append_nil, List.reverse_reverse]

theorem ofRanges_filter_filled : ofRanges (ranges.filter fun r => ¬ r.IsEmpty) = ofRanges ranges :=
  congrArg (Builder.finish <$> ·) Builder.pushAll_filter_filled

/-! ## One more range at the end -/

theorem append_wellFormed (wf : t.WellFormed) (ok : t.append r = .ok t') : t'.WellFormed := by
  unfold append at ok
  split at ok
  · cases ok
    exact wf
  · rcases map_eq_ok_iff.mp ok with ⟨b, push, rfl⟩
    exact ((Builder.pushed_of_push push).canonical wf.canonical_ofTaint).wellFormed_finish

/-- A range is appended unless it is not empty and starts before the taint stops. -/
theorem append_spec (wf : t.WellFormed) (fits : r.IsEmpty ∨ t.stop ≤ r.start) :
    ∃ t', t.append r = .ok t' ∧ t'.HasLabels (fun p => (t.chainAt p).or (r.label p)) ∧
      t'.stop = if r.IsEmpty then t.stop else r.stop := by
  obtain ⟨b, push⟩ := Builder.exists_push (b := .ofTaint t) (stop_ofTaint (t := t) ▸ fits)
  have pushed := Builder.pushed_of_push push
  have canonical := pushed.canonical wf.canonical_ofTaint
  by_cases isEmpty : r.IsEmpty
  · have labels : t.HasLabels (fun p => (t.chainAt p).or (r.label p)) :=
      ⟨wf, fun p => by rw [Range.label_of_isEmpty isEmpty, Option.or_none]⟩
    exact ⟨t, if_pos isEmpty, labels, (if_pos isEmpty).symm⟩
  · refine ⟨b.finish, ?_, ⟨canonical.wellFormed_finish, fun p => ?_⟩, ?_⟩
    · rw [append, if_neg isEmpty, push]
      rfl
    · rw [canonical.chainAt_finish, pushed.label, wf.label_ofTaint]
    · rw [Builder.stop_finish, pushed.stop, stop_ofTaint]

/-! ## Where taint stops -/

theorem WellFormed.stop_le_stop (wf : t.WellFormed) (mem : r ∈ t.ranges) : r.stop ≤ t.stop := by
  cases tail : t.ranges.getLast? with
  | none => rw [List.getLast?_eq_none_iff.mp tail] at mem; cases mem
  | some final =>
    have stop : t.stop = final.stop := by simp [Taint.stop, Taint.last?, tail]
    rcases List.getLast?_eq_some_iff.mp tail with ⟨init, ends⟩
    have order := wf.inOrder
    rw [ends, inOrder_append] at order
    rw [ends] at mem
    rcases List.mem_append.mp mem with inInit | isFinal
    · have := order.2.2 r inInit final (by simp)
      have := final.start_le_stop
      omega
    · rw [stop, List.mem_singleton.mp isFinal]

theorem stop_eq_zero_or_exists (t : Taint) : t.stop = 0 ∨ ∃ r ∈ t.ranges, t.stop = r.stop := by
  cases tail : t.ranges.getLast? with
  | none => exact .inl (by simp [Taint.stop, Taint.last?, tail])
  | some final =>
    exact .inr ⟨final, List.mem_of_getLast? tail, by simp [Taint.stop, Taint.last?, tail]⟩

theorem stop_le_last (t : Taint) : t.stop ≤ Position.last := by
  rcases stop_eq_zero_or_exists t with zero | ⟨r, -, stop⟩
  · omega
  · rw [stop]
    exact r.stop_le_last

/-- Taint that stops behind the first position has taint right in front of where it stops. -/
theorem WellFormed.chainAt_stop (wf : t.WellFormed) (positive : 0 < t.stop) :
    t.chainAt (t.stop - 1) ≠ none := by
  rcases (stop_eq_zero_or_exists t).resolve_left (by omega) with ⟨r, mem, stop⟩
  have filled := wf.start_lt_stop mem
  exact wf.chainAt_of_mem mem ⟨by omega, by omega⟩

/-- Taint stops at the latest at `n` exactly if no position from `n` on is tainted. -/
theorem WellFormed.stop_le_iff (wf : t.WellFormed) :
    t.stop ≤ n ↔ ∀ p, n ≤ p → t.chainAt p = none := by
  constructor
  · intro stops p late
    rw [wf.chainAt_eq, labelIn_eq_none_iff]
    intro r mem covers
    have := wf.stop_le_stop mem
    have := covers.2
    omega
  · intro clean
    by_contra beyond
    exact wf.chainAt_stop (by omega) (clean _ (by omega))

theorem WellFormed.lt_stop (wf : t.WellFormed) (tainted : t.chainAt p ≠ none) : p < t.stop := by
  by_contra late
  exact tainted (wf.stop_le_iff.mp (Nat.le_of_not_lt late) p (Nat.le_refl p))

/-- Taint stops behind a position exactly if some range does. -/
theorem WellFormed.lt_stop_iff_exists (wf : t.WellFormed) :
    p < t.stop ↔ ∃ r ∈ t.ranges, p < r.stop := by
  constructor
  · intro late
    rcases (stop_eq_zero_or_exists t).resolve_left (by omega) with ⟨r, mem, stop⟩
    exact ⟨r, mem, stop ▸ late⟩
  · rintro ⟨r, mem, late⟩
    exact Nat.lt_of_lt_of_le late (wf.stop_le_stop mem)

theorem WellFormed.lt_last (wf : t.WellFormed) (tainted : t.chainAt p ≠ none) :
    p < Position.last :=
  Nat.lt_of_lt_of_le (wf.lt_stop tainted) t.stop_le_last

/-- Where taint stops depends on the tainted positions only. -/
theorem WellFormed.stop_congr (wf : t.WellFormed) (wf' : t'.WellFormed)
    (same : ∀ p, t.chainAt p = none ↔ t'.chainAt p = none) : t.stop = t'.stop := by
  have first : t.stop ≤ t'.stop := wf.stop_le_iff.mpr fun p late =>
    (same p).mpr (wf'.stop_le_iff.mp (Nat.le_refl _) p late)
  have second : t'.stop ≤ t.stop := wf'.stop_le_iff.mpr fun p late =>
    (same p).mp (wf.stop_le_iff.mp (Nat.le_refl _) p late)
  exact Nat.le_antisymm first second

/-- There is taint exactly if some position is tainted. -/
theorem WellFormed.isTainted_iff (wf : t.WellFormed) :
    t.isTainted = true ↔ ∃ p, t.chainAt p ≠ none := by
  match t, wf with
  | ⟨none⟩, _ => simp [isTainted, chainAt, firstEndingAfter, Taint.ranges]
  | ⟨some []⟩, wf => exact absurd rfl wf.1
  | ⟨some (r :: rest)⟩, wf =>
    have mem : r ∈ Taint.ranges ⟨some (r :: rest)⟩ := by simp [Taint.ranges]
    have filled := WellFormed.start_lt_stop wf mem
    exact ⟨fun _ => ⟨r.start, WellFormed.chainAt_of_mem wf mem ⟨Nat.le_refl _, filled⟩⟩,
      fun _ => rfl⟩

theorem WellFormed.chainAt_of_not_isTainted (wf : t.WellFormed) (untainted : ¬ t.isTainted)
    (p : Nat) : t.chainAt p = none := by
  by_contra tainted
  exact untainted (wf.isTainted_iff.mpr ⟨p, tainted⟩)

end Taint

end TextProvenance
