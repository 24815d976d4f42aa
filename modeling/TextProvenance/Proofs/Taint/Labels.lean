import Mathlib.Data.List.Chain
import TextProvenance.Taint.Window

/-!
# Taint position by position

`Range.label` and `labelIn` give the chain of a position in one range and in a list of ranges.
`InOrder` is the order that disjoint ranges are listed in; for such a list the look-up by
`Taint.chainAt`, which passes over the ranges that stop early, agrees with `labelIn`
(`Taint.chainAt_eq_labelIn`).  Disjoint ranges in any other order have the same labels
(`labelIn_perm`).

Operations on taint are described by what they do to labels.  Most of them replace every range by
some pieces, so the lemmas of the second half are about `List.flatMap`: `labelIn_flatMap` for the
labels and `inOrder_flatMap` for the order of the pieces.
-/

namespace TextProvenance

/-- Ranges are equal if their bounds and chains are. -/
theorem Range.eq_of_bounds {r s : Range} (start : r.start = s.start) (stop : r.stop = s.stop)
    (chain : r.chain = s.chain) : r = s := by
  cases r
  cases s
  cases start
  cases stop
  cases chain
  rfl

/-! ## Labels -/

/-- The chain that a range gives to a position. -/
def Range.label (r : Range) (p : Nat) : Option Chain := if r.Covers p then some r.chain else none

/-- The chain that the first range of a list with position `p` gives to it. -/
def labelIn (ranges : List Range) (p : Nat) : Option Chain := ranges.findSome? (·.label p)

variable {r : Range} {ranges : List Range} {p q : Nat} {c : Chain}

theorem Range.label_of_covers (covers : r.Covers p) : r.label p = some r.chain :=
  if_pos covers

theorem Range.label_of_not_covers (apart : ¬ r.Covers p) : r.label p = none :=
  if_neg apart

theorem Range.label_of_isEmpty (isEmpty : r.IsEmpty) : r.label p = none := by
  refine Range.label_of_not_covers fun covers => ?_
  have := covers.1
  have := covers.2
  unfold Range.IsEmpty at isEmpty
  omega

theorem Range.label_eq_none_iff : r.label p = none ↔ ¬ r.Covers p := by
  simp [Range.label]

theorem Range.label_eq_some_iff : r.label p = some c ↔ r.Covers p ∧ r.chain = c := by
  simp [Range.label]

@[simp] theorem labelIn_nil : labelIn [] p = none := rfl

@[simp] theorem labelIn_cons :
    labelIn (r :: ranges) p = (r.label p).or (labelIn ranges p) := by
  rw [labelIn, List.findSome?_cons]
  cases r.label p <;> rfl

theorem labelIn_cons_of_covers (covers : r.Covers p) : labelIn (r :: ranges) p = some r.chain := by
  rw [labelIn_cons, Range.label_of_covers covers, Option.some_or]

/-- Labels are looked up by finding the first range that covers the position. -/
theorem labelIn_eq_find? (ranges : List Range) (p : Nat) :
    labelIn ranges p = (ranges.find? fun r => r.Covers p).map Range.chain := by
  induction ranges with
  | nil => rfl
  | cons r rest ih =>
    by_cases covers : r.Covers p
    · rw [labelIn_cons_of_covers covers, List.find?_cons_of_pos (by simpa using covers),
        Option.map_some]
    · rw [labelIn_cons, Range.label_of_not_covers covers, Option.none_or, ih,
        List.find?_cons_of_neg (by simpa using covers)]

theorem labelIn_append (front back : List Range) :
    labelIn (front ++ back) p = (labelIn front p).or (labelIn back p) :=
  List.findSome?_append

theorem labelIn_singleton : labelIn [r] p = r.label p := by
  simp

theorem labelIn_eq_none_iff : labelIn ranges p = none ↔ ∀ r ∈ ranges, ¬ r.Covers p := by
  simp [labelIn, Range.label_eq_none_iff]

/-- A label comes from a range that covers the position. -/
theorem exists_of_labelIn_eq_some (found : labelIn ranges p = some c) :
    ∃ r ∈ ranges, r.Covers p ∧ r.chain = c := by
  obtain ⟨r, mem, label⟩ := List.exists_of_findSome?_eq_some found
  exact ⟨r, mem, Range.label_eq_some_iff.mp label⟩

theorem labelIn_ne_none_of_mem (mem : r ∈ ranges) (covers : r.Covers p) :
    labelIn ranges p ≠ none :=
  fun unlabelled => labelIn_eq_none_iff.mp unlabelled r mem covers

/-- If every range is replaced by pieces that label `p` as the range labels `q`, then the pieces
together label `p` as the ranges together label `q`. -/
theorem labelIn_flatMap {f : Range → List Range}
    (each : ∀ r ∈ ranges, labelIn (f r) p = r.label q) :
    labelIn (ranges.flatMap f) p = labelIn ranges q := by
  induction ranges with
  | nil => rfl
  | cons r rest ih =>
    rw [List.flatMap_cons, labelIn_append, labelIn_cons, each r (by simp),
      ih fun r mem => each r (by simp [mem])]

theorem labelIn_flatMap_eq_none {f : Range → List Range}
    (each : ∀ r ∈ ranges, labelIn (f r) p = none) : labelIn (ranges.flatMap f) p = none := by
  rw [labelIn_eq_none_iff]
  intro x mem
  rcases List.mem_flatMap.mp mem with ⟨r, memRanges, memPieces⟩
  exact labelIn_eq_none_iff.mp (each r memRanges) x memPieces

/-! ## Parts of a range -/

theorem Range.span_of_lt {start stop : Nat} (inside : start < stop)
    (bounded : stop ≤ Position.last) :
    Range.span start stop c = [⟨start, stop, c, Nat.le_of_lt inside, bounded⟩] := by
  simp [Range.span, Nat.min_eq_left bounded, inside]

theorem Range.span_of_le {start stop : Nat} (outside : stop ≤ start) :
    Range.span start stop c = [] :=
  dif_neg (by omega)

theorem Range.label_span {start stop : Nat} (bounded : stop ≤ Position.last) :
    labelIn (Range.span start stop c) p = if start ≤ p ∧ p < stop then some c else none := by
  unfold Range.span
  by_cases inside : start < min stop Position.last
  · rw [dif_pos inside, labelIn_singleton]
    simp only [Range.label, Range.Covers, Nat.min_eq_left bounded]
  · rw [dif_neg inside, labelIn_nil, if_neg (by omega)]

theorem Range.label_part {lo hi : Nat} :
    labelIn (r.part lo hi) p = if lo ≤ p ∧ p < hi then r.label p else none := by
  have bounded := r.stop_le_last
  rw [Range.part, Range.label_span (by omega)]
  by_cases window : lo ≤ p ∧ p < hi
  · rw [if_pos window]
    unfold Range.label Range.Covers
    congr 1
    simp only [eq_iff_iff]
    omega
  · rw [if_neg window, if_neg (by omega)]

theorem Range.label_before : labelIn (r.before q) p = if p < q then r.label p else none := by
  simp [Range.before, Range.label_part]

theorem Range.label_after : labelIn (r.after q) p = if q ≤ p then r.label p else none := by
  rw [Range.after, Range.label_part]
  by_cases late : p < Position.last
  · simp [late]
  · have apart : ¬ r.Covers p := fun covers => late (Nat.lt_of_lt_of_le covers.2 r.stop_le_last)
    simp [late, Range.label_of_not_covers apart]

/-- A part of the span between two positions lies between them. -/
theorem Range.mem_span {start stop : Nat} {x : Range} (mem : x ∈ Range.span start stop c) :
    x.start = start ∧ x.start < x.stop ∧ x.stop = min stop Position.last ∧ x.chain = c := by
  unfold Range.span at mem
  split at mem
  · cases List.mem_singleton.mp mem
    exact ⟨rfl, ‹_›, rfl, rfl⟩
  · cases mem

theorem Range.length_span_le (start stop : Nat) (c : Chain) :
    (Range.span start stop c).length ≤ 1 := by
  unfold Range.span
  split <;> simp

theorem Range.ofBounds_eq_ok {start stop : Nat} (ordered : start ≤ stop)
    (bounded : stop ≤ Position.last) :
    Range.ofBounds start stop c = .ok ⟨start, stop, c, ordered, bounded⟩ :=
  (dif_pos ordered).trans (dif_pos bounded)

/-! ## Ranges in order -/

/-- Every range stops where the next ones start, or in front of it. -/
def InOrder (ranges : List Range) : Prop := ranges.Pairwise fun a b => a.stop ≤ b.start

@[simp] theorem inOrder_nil : InOrder [] := List.Pairwise.nil

@[simp] theorem inOrder_cons :
    InOrder (r :: ranges) ↔ (∀ x ∈ ranges, r.stop ≤ x.start) ∧ InOrder ranges :=
  List.pairwise_cons

theorem inOrder_append {front back : List Range} :
    InOrder (front ++ back) ↔
      InOrder front ∧ InOrder back ∧ ∀ a ∈ front, ∀ b ∈ back, a.stop ≤ b.start :=
  List.pairwise_append

/-- It is enough that neighbours are in order. -/
theorem inOrder_of_isChain (neighbours : ranges.IsChain fun a b => a.stop ≤ b.start) :
    InOrder ranges := by
  have trans : IsTrans Range fun a b => a.stop ≤ b.start :=
    ⟨fun a b c ab bc => by have := b.start_le_stop; omega⟩
  exact List.isChain_iff_pairwise.mp neighbours

theorem inOrder_of_length_le_one (short : ranges.length ≤ 1) : InOrder ranges := by
  match ranges, short with
  | [], _ => exact inOrder_nil
  | [_], _ => simp

theorem inOrder_span (start stop : Nat) (c : Chain) : InOrder (Range.span start stop c) :=
  inOrder_of_length_le_one (Range.length_span_le start stop c)

theorem inOrder_part (r : Range) (lo hi : Nat) : InOrder (r.part lo hi) :=
  inOrder_span ..

/-- Pieces of ranges are in order if the pieces of each range are, and keep within bounds that are
in order themselves. -/
theorem inOrder_flatMap {f : Range → List Range} (first last : Range → Nat)
    (pieces : ∀ r ∈ ranges, InOrder (f r))
    (within : ∀ r ∈ ranges, ∀ x ∈ f r, first r ≤ x.start ∧ x.stop ≤ last r)
    (apart : ranges.Pairwise fun a b => last a ≤ first b) :
    InOrder (ranges.flatMap f) := by
  refine List.pairwise_flatMap.mpr ⟨pieces, apart.imp_of_mem ?_⟩
  intro a b memA memB le x memX y memY
  have stops := (within a memA x memX).2
  have starts := (within b memB y memY).1
  omega

theorem labelIn_eq_none_of_lt_start (order : InOrder (r :: ranges)) (early : p < r.start) :
    labelIn (r :: ranges) p = none := by
  have later := (inOrder_cons.mp order).1
  refine labelIn_eq_none_iff.mpr fun x mem covers => ?_
  have starts := covers.1
  rcases List.mem_cons.mp mem with rfl | mem
  · omega
  · have := later x mem
    have := r.start_le_stop
    omega

/-- Behind the first range, the other ranges have all the labels. -/
theorem labelIn_tail (order : InOrder (r :: ranges)) (p : Nat) :
    labelIn ranges p = if p < r.stop then none else labelIn (r :: ranges) p := by
  have later := (inOrder_cons.mp order).1
  split
  · refine labelIn_eq_none_iff.mpr fun x mem covers => ?_
    have := later x mem
    have := covers.1
    omega
  · have apart : ¬ r.Covers p := fun covers => by have := covers.2; omega
    rw [labelIn_cons, Range.label_of_not_covers apart, Option.none_or]

/-! ## Disjoint ranges -/

/-- No position is in both ranges. -/
def Range.Disjoint (a b : Range) : Prop := ∀ p, a.Covers p → ¬ b.Covers p

theorem Range.Disjoint.symm {a b : Range} (disjoint : a.Disjoint b) : b.Disjoint a :=
  fun p inB inA => disjoint p inA inB

theorem Range.disjoint_iff {a b : Range} :
    a.Disjoint b ↔ a.IsEmpty ∨ b.IsEmpty ∨ a.stop ≤ b.start ∨ b.stop ≤ a.start := by
  have := a.start_le_stop
  have := b.start_le_stop
  unfold Range.Disjoint Range.IsEmpty Range.Covers
  constructor
  · intro disjoint
    have := disjoint (max a.start b.start)
    omega
  · intro apart p
    omega

instance (a b : Range) : Decidable (a.Disjoint b) := decidable_of_iff' _ Range.disjoint_iff

theorem disjoint_of_inOrder (order : InOrder ranges) : ranges.Pairwise Range.Disjoint :=
  order.imp fun apart => Range.disjoint_iff.mpr (.inr (.inr (.inl apart)))

/-- Among disjoint ranges, a range gives its chain to all of its positions. -/
theorem labelIn_of_mem_of_disjoint (disjoint : ranges.Pairwise Range.Disjoint) (mem : r ∈ ranges)
    (covers : r.Covers p) : labelIn ranges p = some r.chain := by
  induction ranges with
  | nil => cases mem
  | cons first rest ih =>
    rcases List.pairwise_cons.mp disjoint with ⟨apart, disjointRest⟩
    rcases List.mem_cons.mp mem with rfl | memRest
    · exact labelIn_cons_of_covers covers
    · have missed : ¬ first.Covers p := fun early => apart r memRest p early covers
      rw [labelIn_cons, Range.label_of_not_covers missed, Option.none_or,
        ih disjointRest memRest]

theorem labelIn_of_mem (order : InOrder ranges) (mem : r ∈ ranges) (covers : r.Covers p) :
    labelIn ranges p = some r.chain :=
  labelIn_of_mem_of_disjoint (disjoint_of_inOrder order) mem covers

theorem labelIn_eq_some_iff (disjoint : ranges.Pairwise Range.Disjoint) :
    labelIn ranges p = some c ↔ ∃ r ∈ ranges, r.Covers p ∧ r.chain = c := by
  refine ⟨exists_of_labelIn_eq_some, ?_⟩
  rintro ⟨r, mem, covers, rfl⟩
  exact labelIn_of_mem_of_disjoint disjoint mem covers

/-- The order that disjoint ranges are listed in does not matter for labels. -/
theorem labelIn_perm {others : List Range} (disjoint : ranges.Pairwise Range.Disjoint)
    (perm : ranges.Perm others) (p : Nat) : labelIn ranges p = labelIn others p := by
  have disjoint' := perm.pairwise disjoint Range.Disjoint.symm
  refine Option.ext fun c => ?_
  simp only [labelIn_eq_some_iff disjoint, labelIn_eq_some_iff disjoint', perm.mem_iff]

/-- Empty ranges label no position. -/
theorem labelIn_filter_filled (ranges : List Range) (p : Nat) :
    labelIn (ranges.filter fun r => ¬ r.IsEmpty) p = labelIn ranges p := by
  induction ranges with
  | nil => rfl
  | cons r rest ih =>
    by_cases isEmpty : r.IsEmpty
    · rw [List.filter_cons_of_neg (by simpa using isEmpty), ih, labelIn_cons,
        Range.label_of_isEmpty isEmpty, Option.none_or]
    · rw [List.filter_cons_of_pos (by simpa using isEmpty), labelIn_cons, labelIn_cons, ih]

/-! ## Looking up -/

/-- In a list of ranges in order, the range with a position is the first that stops after it. -/
theorem head?_dropWhile_filter_covers (order : InOrder ranges) :
    (((ranges.dropWhile fun r => decide (r.stop ≤ p)).head?.filter
      fun r => decide (r.Covers p)).map Range.chain) = labelIn ranges p := by
  induction ranges with
  | nil => rfl
  | cons r rest ih =>
    by_cases early : r.stop ≤ p
    · rw [List.dropWhile_cons_of_pos (by simpa using early), ih (inOrder_cons.mp order).2,
        labelIn_tail order, if_neg (Nat.not_lt_of_le early)]
    · rw [List.dropWhile_cons_of_neg (by simpa using early), List.head?_cons]
      by_cases covers : r.Covers p
      · rw [labelIn_cons_of_covers covers]
        simp [Option.filter, covers]
      · have before : p < r.start := by
          unfold Range.Covers at covers
          omega
        rw [labelIn_eq_none_of_lt_start order before]
        simp [Option.filter, covers]

namespace Taint

variable {t : Taint}

@[simp] theorem ranges_ofList (ranges : List Range) : (ofList ranges).ranges = ranges := by
  cases ranges <;> rfl

theorem chainAt_eq_labelIn (order : InOrder t.ranges) : t.chainAt p = labelIn t.ranges p :=
  head?_dropWhile_filter_covers order

/-! ## Well-formed taint -/

theorem separated_iff_isChain : Separated ranges ↔ ranges.IsChain Range.Precedes := by
  induction ranges with
  | nil => simp [Separated]
  | cons a rest ih =>
    cases rest with
    | nil => simp [Separated]
    | cons b rest => rw [Separated, ih, List.isChain_cons_cons]

/-- Neighbours that may stand next to each other are in order, and so are all ranges. -/
theorem inOrder_of_separated (separated : Separated ranges) : InOrder ranges :=
  inOrder_of_isChain <|
    (separated_iff_isChain.mp separated).imp fun _ _ precedes => precedes.1

theorem separated_tail (separated : Separated (r :: ranges)) : Separated ranges :=
  separated_iff_isChain.mpr (separated_iff_isChain.mp separated).tail

/-- What well-formed taint says of its ranges. -/
theorem WellFormed.canonical (wf : t.WellFormed) :
    (∀ r ∈ t.ranges, ¬ r.IsEmpty) ∧ Separated t.ranges := by
  match t, wf with
  | ⟨none⟩, _ => exact ⟨by simp [ranges], trivial⟩
  | ⟨some _⟩, wf => exact wf.2

theorem wellFormed_ofList (filled : ∀ r ∈ ranges, ¬ r.IsEmpty) (separated : Separated ranges) :
    (ofList ranges).WellFormed := by
  cases ranges with
  | nil => trivial
  | cons r rest => exact ⟨List.cons_ne_nil r rest, filled, separated⟩

theorem wellFormed_untainted : untainted.WellFormed := trivial

theorem WellFormed.inOrder (wf : t.WellFormed) : InOrder t.ranges :=
  inOrder_of_separated wf.canonical.2

theorem WellFormed.chainAt_eq (wf : t.WellFormed) (p : Nat) :
    t.chainAt p = labelIn t.ranges p :=
  chainAt_eq_labelIn wf.inOrder

theorem WellFormed.start_lt_stop (wf : t.WellFormed) (mem : r ∈ t.ranges) : r.start < r.stop :=
  Nat.lt_of_le_of_ne r.start_le_stop (wf.canonical.1 r mem)

theorem chainAt_untainted (p : Nat) : untainted.chainAt p = none := rfl

/-- A range of well-formed taint gives its chain to its positions. -/
theorem WellFormed.chainAt_of_mem (wf : t.WellFormed) (mem : r ∈ t.ranges) (covers : r.Covers p) :
    t.chainAt p ≠ none := by
  rw [wf.chainAt_eq]
  exact labelIn_ne_none_of_mem mem covers

/-- A tainted position is a position of a range. -/
theorem WellFormed.exists_of_chainAt (wf : t.WellFormed) (tainted : t.chainAt p ≠ none) :
    ∃ r ∈ t.ranges, r.Covers p := by
  obtain ⟨c, found⟩ := Option.ne_none_iff_exists'.mp tainted
  rw [wf.chainAt_eq] at found
  obtain ⟨r, mem, covers, -⟩ := exists_of_labelIn_eq_some found
  exact ⟨r, mem, covers⟩

end Taint

end TextProvenance
