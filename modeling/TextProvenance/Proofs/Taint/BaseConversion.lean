import Mathlib.Algebra.Order.Floor.Div
import TextProvenance.Proofs.Taint.WellFormed

/-!
# Base conversion, position by position

Which positions a range reaches in units of another width (`Range.Reaches`), and that a converted
position has the chain of the first range that reaches it (`Taint.chainAt_convertBase`).

`Taint.scaled_cons` says once what scaling does with one range; the order and the labels of scaled
ranges are inductions over the ranges with its two cases.  That nothing leaves its machine word is
`Taint.convertBaseInWords_eq`.
-/

namespace TextProvenance

variable {t t' : Taint} {ranges : List Range} {r x : Range} {n m a b done p : Nat}

/-! ## Rounding -/

theorem div_le_iff_lt_mul (positive : 0 < m) : a / m ≤ p ↔ a < (p + 1) * m := by
  rw [← Nat.lt_succ_iff, Nat.div_lt_iff_lt_mul positive]

theorem lt_ceilDiv_iff_mul_lt (positive : 0 < m) : p < a ⌈/⌉ m ↔ p * m < a := by
  rw [← Nat.not_le, ceilDiv_le_iff_le_mul positive, Nat.not_le, Nat.mul_comm]

/-! ## What a range reaches -/

/-- The position is one of those that the range reaches in units of another width: its bounds are
multiplied by `n / m`, the start rounded down and the stop rounded up. -/
def Range.Reaches (r : Range) (n m p : Nat) : Prop :=
  r.start * n / m ≤ p ∧ p < r.stop * n ⌈/⌉ m

instance (r : Range) (n m p : Nat) : Decidable (r.Reaches n m p) :=
  inferInstanceAs (Decidable (_ ∧ _))

theorem Range.reaches_iff (positive : 0 < m) :
    r.Reaches n m p ↔ r.start * n < (p + 1) * m ∧ p * m < r.stop * n := by
  rw [Range.Reaches, div_le_iff_lt_mul positive, lt_ceilDiv_iff_mul_lt positive]

/-- A later range does not reach what is in front of all that a range reaches. -/
theorem Range.not_reaches_of_lt {later : Range} (behind : r.stop ≤ later.start)
    (early : p < r.start * n / m) : ¬ later.Reaches n m p := by
  intro reaches
  have inFront : r.start ≤ later.start := Nat.le_trans r.start_le_stop behind
  have le : r.start * n / m ≤ later.start * n / m :=
    Nat.div_le_div_right (Nat.mul_le_mul_right n inFront)
  have starts := reaches.1
  omega

namespace Taint

/-! ## Scaling a list of ranges -/

/-- The range that is listed for `r` after scaling: what `r` reaches, as far as that is behind what
is done and in front of the last position. -/
structure IsUnit (n m done : Nat) (r unit : Range) : Prop where
  start : unit.start = max (r.start * n / m) done
  stop : unit.stop = min (r.stop * n ⌈/⌉ m) Position.last
  filled : unit.start < unit.stop
  chain : unit.chain = r.chain

/-- A range is left out if nothing of it is left, and listed otherwise. -/
theorem scaled_cons (n m done : Nat) (r : Range) (ranges : List Range) :
    (min (r.stop * n ⌈/⌉ m) Position.last ≤ max (r.start * n / m) done ∧
      scaled n m done (r :: ranges) = scaled n m done ranges) ∨
    ∃ unit, IsUnit n m done r unit ∧
      scaled n m done (r :: ranges) = unit :: scaled n m unit.stop ranges := by
  by_cases inside : max (r.start * n / m) done < min (ceilDiv (r.stop * n) m) Position.last
  · refine .inr ⟨⟨_, _, r.chain, Nat.le_of_lt inside, Nat.min_le_right ..⟩,
      ⟨rfl, rfl, inside, rfl⟩, ?_⟩
    rw [scaled, Range.span, dif_pos inside]
  · refine .inl ⟨Nat.le_of_not_lt inside, ?_⟩
    rw [scaled, Range.span, dif_neg inside]

theorem done_le_of_mem_scaled (mem : x ∈ scaled n m done ranges) : done ≤ x.start := by
  induction ranges generalizing done with
  | nil => cases mem
  | cons r rest ih =>
    rcases scaled_cons n m done r rest with ⟨-, leftOut⟩ | ⟨unit, isUnit, listed⟩
    · exact ih (leftOut ▸ mem)
    · have start := isUnit.start
      have filled := isUnit.filled
      rcases List.mem_cons.mp (listed ▸ mem) with rfl | later
      · omega
      · have behind := ih later
        omega

/-- Every range starts where the one in front of it stops, or behind. -/
theorem inOrder_scaled (n m done : Nat) (ranges : List Range) :
    InOrder (scaled n m done ranges) := by
  induction ranges generalizing done with
  | nil => exact inOrder_nil
  | cons r rest ih =>
    rcases scaled_cons n m done r rest with ⟨-, leftOut⟩ | ⟨unit, -, listed⟩
    · rw [leftOut]
      exact ih done
    · rw [listed]
      exact inOrder_cons.mpr ⟨fun x => done_le_of_mem_scaled, ih unit.stop⟩

theorem IsUnit.covers_iff {unit : Range} (isUnit : IsUnit n m done r unit) (late : done ≤ p)
    (inside : p < Position.last) : unit.Covers p ↔ r.Reaches n m p := by
  have start := isUnit.start
  have stop := isUnit.stop
  unfold Range.Covers Range.Reaches
  omega

/-- A position behind what is done gets the chain of the first range that reaches it.  A range is
cut only where it reaches a position that an earlier one reaches too, since what a range reaches
starts behind the start of what the earlier ones reach. -/
theorem labelIn_scaled (order : InOrder ranges) (inside : p < Position.last) :
    labelIn (scaled n m done ranges) p =
      if p < done then none
      else (ranges.find? fun r => r.Reaches n m p).map Range.chain := by
  induction ranges generalizing done with
  | nil => simp [scaled]
  | cons r rest ih =>
    rcases inOrder_cons.mp order with ⟨later, orderRest⟩
    rcases scaled_cons n m done r rest with ⟨nothing, leftOut⟩ | ⟨unit, isUnit, listed⟩
    · rw [leftOut, ih orderRest]
      by_cases early : p < done
      · rw [if_pos early, if_pos early]
      · have apart : ¬ r.Reaches n m p := fun reaches => by
          have starts := reaches.1
          have stops := reaches.2
          omega
        rw [if_neg early, if_neg early, List.find?_cons_of_neg (by simpa using apart)]
    · rw [listed]
      have start := isUnit.start
      have filled := isUnit.filled
      by_cases early : p < done
      · have apart : ¬ unit.Covers p := fun covers => by
          have starts := covers.1
          omega
        rw [labelIn_cons, Range.label_of_not_covers apart, ih orderRest, if_pos early,
          if_pos (by omega), Option.none_or]
      · have same := isUnit.covers_iff (Nat.le_of_not_lt early) inside
        rw [if_neg early]
        by_cases reaches : r.Reaches n m p
        · rw [labelIn_cons_of_covers (same.mpr reaches), isUnit.chain,
            List.find?_cons_of_pos (by simpa using reaches), Option.map_some]
        · have apart := mt same.mp reaches
          rw [labelIn_cons, Range.label_of_not_covers apart, ih orderRest, Option.none_or,
            List.find?_cons_of_neg (by simpa using reaches)]
          by_cases inFront : p < unit.stop
          · have before : p < r.start * n / m := by
              unfold Range.Covers at apart
              omega
            have unreached : rest.find? (fun r => r.Reaches n m p) = none :=
              List.find?_eq_none.mpr fun y mem => by
                simpa using Range.not_reaches_of_lt (later y mem) before
            rw [if_pos inFront, unreached, Option.map_none]
          · rw [if_neg inFront]

/-! ## The conversion -/

section Conversion

variable {direction : BaseDirection} {unitWidth encodedWidth : Nat}

theorem widthBefore_pos (unitPositive : 0 < unitWidth) (encodedPositive : 0 < encodedWidth)
    (direction : BaseDirection) : 0 < direction.widthBefore unitWidth encodedWidth := by
  cases direction with
  | encode => exact unitPositive
  | decode => exact encodedPositive

theorem widthAfter_pos (unitPositive : 0 < unitWidth) (encodedPositive : 0 < encodedWidth)
    (direction : BaseDirection) : 0 < direction.widthAfter unitWidth encodedWidth := by
  cases direction with
  | encode => exact encodedPositive
  | decode => exact unitPositive

theorem convertBase_eq_ofRanges (t : Taint) (direction : BaseDirection)
    (unitPositive : 0 < unitWidth) (encodedPositive : 0 < encodedWidth) :
    t.convertBase direction unitWidth encodedWidth =
      ofRanges (scaled (direction.widthBefore unitWidth encodedWidth)
        (direction.widthAfter unitWidth encodedWidth) 0 t.ranges) := by
  unfold convertBase
  rw [if_neg (by omega)]
  cases direction with
  | encode => rfl
  | decode => rfl

theorem exists_convertBase (t : Taint) (direction : BaseDirection)
    (unitPositive : 0 < unitWidth) (encodedPositive : 0 < encodedWidth) :
    ∃ t', t.convertBase direction unitWidth encodedWidth = .ok t' := by
  obtain ⟨t', ok, -⟩ := ofRanges_spec (inOrder_scaled _ _ 0 t.ranges)
  exact ⟨t', (convertBase_eq_ofRanges t direction unitPositive encodedPositive).trans ok⟩

/-- A position gets the chain of the first range that reaches it. -/
theorem chainAt_of_convertBase (wf : t.WellFormed) (unitPositive : 0 < unitWidth)
    (encodedPositive : 0 < encodedWidth)
    (ok : t.convertBase direction unitWidth encodedWidth = .ok t') (inside : p < Position.last) :
    t'.chainAt p = (t.ranges.find? fun r => r.Reaches
      (direction.widthBefore unitWidth encodedWidth)
      (direction.widthAfter unitWidth encodedWidth) p).map Range.chain := by
  rw [convertBase_eq_ofRanges t direction unitPositive encodedPositive] at ok
  rw [(hasLabels_of_ofRanges ok).chainAt, labelIn_scaled wf.inOrder inside,
    if_neg (Nat.not_lt_zero p)]

/-- **A base conversion maps every range to its hull in units of the other width.**  Between units
that have a width it succeeds.  Every position in front of the last one then has the chain of the
first range whose bounds, multiplied by the ratio of the widths and rounded to whole units, enclose
it, and no chain if there is no such range. -/
theorem chainAt_convertBase (wf : t.WellFormed) (direction : BaseDirection)
    (unitPositive : 0 < unitWidth) (encodedPositive : 0 < encodedWidth) :
    let n := direction.widthBefore unitWidth encodedWidth
    let m := direction.widthAfter unitWidth encodedWidth
    ∃ t', t.convertBase direction unitWidth encodedWidth = .ok t' ∧
      ∀ p < Position.last, t'.chainAt p =
        (t.ranges.find? fun r => r.start * n / m ≤ p ∧ p < r.stop * n ⌈/⌉ m).map Range.chain := by
  intro n m
  obtain ⟨t', ok⟩ := exists_convertBase t direction unitPositive encodedPositive
  exact ⟨t', ok, fun p => chainAt_of_convertBase wf unitPositive encodedPositive ok⟩

/-- Bytes to base-64 digits: the digit that two bytes share goes to the first of them, and the second
one is left with the other of its two digits. -/
theorem chainAt_convertBase_shared :
    let read : Chain := .ofSource { name := "read" } 0
    let join : Chain := .ofSource { name := "join" } 1
    let t := ofList (Range.span 1 2 read ++ Range.span 2 3 join)
    t.WellFormed ∧ (0 < 8 ∧ 0 < 6) ∧ ∃ t', t.convertBase .encode 8 6 = .ok t' ∧
      t'.chainAt 0 = none ∧ t'.chainAt 2 = some read ∧ t'.chainAt 3 = some join := by
  intro read join t
  have wf : t.WellFormed := by decide
  have positive : 0 < 8 ∧ 0 < 6 := by decide
  obtain ⟨t', ok, hull⟩ := chainAt_convertBase wf .encode positive.1 positive.2
  refine ⟨wf, positive, t', ok, ?_, ?_, ?_⟩
  · exact (hull 0 (by decide)).trans (by decide)
  · exact (hull 2 (by decide)).trans (by decide)
  · exact (hull 3 (by decide)).trans (by decide)

end Conversion

/-! ## In machine words -/

section Words

variable {unitWidth encodedWidth : Nat}

theorem product_eq_ok (left : a ≤ Position.last) (right : b ≤ Position.last) :
    Offset.product a b = .ok (a * b) ∧ a * b ≤ Offset.last := by
  have bounded : a * b ≤ Offset.last := Nat.le_trans (Nat.mul_le_mul left right) (by decide)
  exact ⟨if_pos bounded, bounded⟩

/-- Rounding a quotient up is no step out of the word: if there is a remainder, the quotient is less
than what was divided. -/
theorem ceilDivInWord_eq_ok (positive : 0 < m) (bounded : a ≤ Offset.last) :
    ceilDivInWord a m = .ok (ceilDiv a m) := by
  change ceilDivInWord a m = .ok (a ⌈/⌉ m)
  unfold ceilDivInWord
  by_cases whole : a % m = 0
  · obtain ⟨k, rfl⟩ := Nat.dvd_of_mod_eq_zero whole
    rw [if_pos whole, Nat.mul_div_cancel_left k positive, ← smul_eq_mul, smul_ceilDiv positive]
  · have split := Nat.div_add_mod' a m
    have least : a / m ≤ a / m * m := Nat.le_mul_of_pos_right (a / m) positive
    have upper : a ⌈/⌉ m ≤ a / m + 1 :=
      (ceilDiv_le_iff_le_mul positive).mpr (Nat.le_of_lt (Nat.lt_mul_div_succ a positive))
    have lower : a / m < a ⌈/⌉ m := (lt_ceilDiv_iff_mul_lt positive).mpr (by omega)
    rw [if_neg whole, Nat.le_antisymm upper lower]
    exact if_pos (by omega)

theorem scaledInWords_eq_ok (width : n ≤ Position.last) (positive : 0 < m) :
    scaledInWords n m done ranges = .ok (scaled n m done ranges) := by
  induction ranges generalizing done with
  | nil => rfl
  | cons r rest ih =>
    have bounded := r.stop_le_last
    have first := product_eq_ok (Nat.le_trans r.start_le_stop bounded) width
    have last := product_eq_ok bounded width
    simp only [scaledInWords, first.1, last.1, ceilDivInWord_eq_ok positive last.2, bind,
      Except.bind, scaled]
    split
    · exact ih
    · rw [ih]
      rfl

/-- Between units whose widths are positions, no product and no sum leaves its word. -/
theorem convertBaseInWords_eq (t : Taint) (direction : BaseDirection)
    (unitPositive : 0 < unitWidth) (encodedPositive : 0 < encodedWidth)
    (unitBounded : unitWidth ≤ Position.last) (encodedBounded : encodedWidth ≤ Position.last) :
    t.convertBaseInWords direction unitWidth encodedWidth =
      t.convertBase direction unitWidth encodedWidth := by
  unfold convertBaseInWords convertBase
  cases direction with
  | encode =>
    simp only [BaseDirection.widthBefore, BaseDirection.widthAfter,
      scaledInWords_eq_ok unitBounded encodedPositive]
    rfl
  | decode =>
    simp only [BaseDirection.widthBefore, BaseDirection.widthAfter,
      scaledInWords_eq_ok encodedBounded unitPositive]
    rfl

end Words

end Taint

end TextProvenance
