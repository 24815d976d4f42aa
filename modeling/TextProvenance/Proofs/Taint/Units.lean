import TextProvenance.Proofs.Taint.BaseConversion
import TextProvenance.Proofs.Taint.Canonical

/-!
# Base conversion unit by unit

Units of two widths overlap if they have a bit in common (`ShareBit`).  After a base conversion a
unit is tainted exactly if it overlaps a tainted unit
(`Taint.chainAt_ne_none_iff_of_convertBase`).  From that:

* taint is lost where units are behind the last position, and nowhere else
  (`Taint.convertBase_keeps_iff`),
* encoding and decoding keep all taint, and give back the same taint where units are encoded in
  equal parts (`Taint.convertBase_roundTrip`).
-/

namespace TextProvenance

variable {t t' encoded decoded : Taint} {r : Range} {n m k p q : Nat}

/-! ## Overlapping units -/

/-- Unit `p` of width `n` and unit `q` of width `m` have a bit in common. -/
def ShareBit (n m p q : Nat) : Prop := ∃ bit, bit / n = p ∧ bit / m = q

theorem ShareBit.symm (share : ShareBit n m p q) : ShareBit m n q p := by
  obtain ⟨bit, first, second⟩ := share
  exact ⟨bit, second, first⟩

/-- The first bit of a unit is shared with the unit that it is in. -/
theorem shareBit_first (before : 0 < n) : ShareBit n m p (p * n / m) :=
  ⟨p * n, Nat.mul_div_cancel p before, rfl⟩

theorem ShareBit.div_le (before : 0 < n) (share : ShareBit n m p q) : p * n / m ≤ q := by
  obtain ⟨bit, first, rfl⟩ := share
  exact Nat.div_le_div_right ((Nat.le_div_iff_mul_le before).mp (Nat.le_of_eq first.symm))

/-- A position in unit `p` of `k` positions each. -/
theorem max_div_eq {start : Nat} (positive : 0 < k) (early : start < (p + 1) * k) :
    max start (p * k) / k = p := by
  have next : p * k < (p + 1) * k := Nat.mul_lt_mul_of_pos_right (Nat.lt_succ_self p) positive
  refine Nat.le_antisymm ((div_le_iff_lt_mul positive).mpr ?_)
    ((Nat.le_div_iff_mul_le positive).mpr (Nat.le_max_right ..))
  omega

namespace Range

/-- What a range reaches are the units that overlap its units. -/
theorem reaches_iff_shareBit (filled : r.start < r.stop) (before : 0 < n) (after : 0 < m) :
    r.Reaches n m q ↔ ∃ p, r.Covers p ∧ ShareBit n m p q := by
  rw [reaches_iff after]
  constructor
  · rintro ⟨starts, stops⟩
    have bits : r.start * n < r.stop * n := Nat.mul_lt_mul_of_pos_right filled before
    have covers : r.Covers (max (r.start * n) (q * m) / n) :=
      ⟨(Nat.le_div_iff_mul_le before).mpr (Nat.le_max_left ..),
        (Nat.div_lt_iff_lt_mul before).mpr (by omega)⟩
    exact ⟨_, covers, _, rfl, max_div_eq after starts⟩
  · rintro ⟨p, covers, bit, rfl, rfl⟩
    have first : r.start * n ≤ bit := (Nat.le_div_iff_mul_le before).mp covers.1
    have last : bit < r.stop * n := (Nat.div_lt_iff_lt_mul before).mp covers.2
    exact ⟨Nat.lt_of_le_of_lt first ((div_le_iff_lt_mul after).mp (Nat.le_refl _)),
      Nat.lt_of_le_of_lt (Nat.div_mul_le_self bit m) last⟩

/-- If every unit has `k` parts, a range reaches the parts of its own units. -/
theorem reaches_parts_iff (after : 0 < m) (parts : 0 < k) :
    r.Reaches (m * k) m q ↔ r.Covers (q / k) := by
  have start : r.start * (m * k) = r.start * k * m := by rw [Nat.mul_assoc, Nat.mul_comm m k]
  have stop : r.stop * (m * k) = r.stop * k * m := by rw [Nat.mul_assoc, Nat.mul_comm m k]
  rw [reaches_iff after, Covers, start, stop, Nat.mul_lt_mul_right after,
    Nat.mul_lt_mul_right after, Nat.le_div_iff_mul_le parts, Nat.div_lt_iff_lt_mul parts,
    Nat.lt_succ_iff]

/-- If every unit has `k` parts, a range of parts reaches the units that it has parts of. -/
theorem reaches_unit_iff (before : 0 < n) (parts : 0 < k) :
    r.Reaches n (n * k) p ↔ r.start < (p + 1) * k ∧ p * k < r.stop := by
  have first : (p + 1) * (n * k) = (p + 1) * k * n := by rw [Nat.mul_assoc, Nat.mul_comm n k]
  have last : p * (n * k) = p * k * n := by rw [Nat.mul_assoc, Nat.mul_comm n k]
  rw [reaches_iff (Nat.mul_pos before parts), first, last, Nat.mul_lt_mul_right before,
    Nat.mul_lt_mul_right before]

end Range

namespace Taint

variable {direction : BaseDirection} {unitWidth encodedWidth : Nat}

/-! ## What is kept -/

/-- After a conversion a unit is tainted if it overlaps a tainted unit, and only then. -/
theorem chainAt_ne_none_iff_of_convertBase (wf : t.WellFormed) (unitPositive : 0 < unitWidth)
    (encodedPositive : 0 < encodedWidth)
    (ok : t.convertBase direction unitWidth encodedWidth = .ok t') (inside : q < Position.last) :
    t'.chainAt q ≠ none ↔ ∃ p, t.chainAt p ≠ none ∧
      ShareBit (direction.widthBefore unitWidth encodedWidth)
        (direction.widthAfter unitWidth encodedWidth) p q := by
  have before := widthBefore_pos unitPositive encodedPositive direction
  have after := widthAfter_pos unitPositive encodedPositive direction
  rw [chainAt_of_convertBase wf unitPositive encodedPositive ok inside, ne_eq,
    Option.map_eq_none_iff, List.find?_eq_none]
  constructor
  · intro reached
    simp only [decide_eq_true_eq, not_forall, not_not] at reached
    obtain ⟨r, mem, reaches⟩ := reached
    obtain ⟨p, covers, share⟩ :=
      (Range.reaches_iff_shareBit (wf.start_lt_stop mem) before after).mp reaches
    exact ⟨p, wf.chainAt_of_mem mem covers, share⟩
  · rintro ⟨p, tainted, share⟩ unreached
    obtain ⟨r, mem, covers⟩ := wf.exists_of_chainAt tainted
    refine unreached r mem (decide_eq_true ?_)
    exact (Range.reaches_iff_shareBit (wf.start_lt_stop mem) before after).mpr ⟨p, covers, share⟩

/-- **What taint a base conversion keeps.**  Between units whose widths are positions other than
zero, it succeeds without a product or a sum that leaves its machine word.  A tainted position is
then overlapped by a tainted one exactly if the unit with its first bit is in front of the last
position; and there is taint left exactly if there was such a position. -/
theorem convertBase_keeps_iff (wf : t.WellFormed) (direction : BaseDirection)
    (unitPositive : 0 < unitWidth) (encodedPositive : 0 < encodedWidth)
    (unitBounded : unitWidth ≤ Position.last) (encodedBounded : encodedWidth ≤ Position.last) :
    let n := direction.widthBefore unitWidth encodedWidth
    let m := direction.widthAfter unitWidth encodedWidth
    ∃ t', t.convertBaseInWords direction unitWidth encodedWidth = .ok t' ∧
      t.convertBase direction unitWidth encodedWidth = .ok t' ∧
      (∀ p, t.chainAt p ≠ none →
        ((∃ q, t'.chainAt q ≠ none ∧ ShareBit n m p q) ↔ p * n / m < Position.last)) ∧
      (t'.isTainted = true ↔ ∃ p, t.chainAt p ≠ none ∧ p * n / m < Position.last) := by
  intro n m
  have before : 0 < n := widthBefore_pos unitPositive encodedPositive direction
  obtain ⟨t', ok⟩ := exists_convertBase t direction unitPositive encodedPositive
  have inWords := convertBaseInWords_eq t direction unitPositive encodedPositive unitBounded
    encodedBounded
  have wf' : t'.WellFormed := convertBase_wellFormed ok
  have first {p : Nat} (tainted : t.chainAt p ≠ none) (inside : p * n / m < Position.last) :
      t'.chainAt (p * n / m) ≠ none :=
    (chainAt_ne_none_iff_of_convertBase wf unitPositive encodedPositive ok inside).mpr
      ⟨p, tainted, shareBit_first before⟩
  refine ⟨t', inWords.trans ok, ok, fun p tainted => ⟨?_, fun inside => ?_⟩, ?_⟩
  · rintro ⟨q, tainted', share⟩
    exact Nat.lt_of_le_of_lt (share.div_le before) (wf'.lt_last tainted')
  · exact ⟨_, first tainted inside, shareBit_first before⟩
  · rw [wf'.isTainted_iff]
    constructor
    · rintro ⟨q, tainted'⟩
      have inside := wf'.lt_last tainted'
      obtain ⟨p, tainted, share⟩ :=
        (chainAt_ne_none_iff_of_convertBase wf unitPositive encodedPositive ok inside).mp tainted'
      exact ⟨p, tainted, Nat.lt_of_le_of_lt (share.div_le before) inside⟩
    · rintro ⟨p, tainted, inside⟩
      exact ⟨_, first tainted inside⟩

/-- Bytes to hexadecimal digits, across the last byte whose digits are positions: that byte keeps its
taint, and the byte behind it loses it. -/
theorem convertBase_keeps_iff_across :
    let t := ofList (Range.span 2147483640 2147483650 (.ofSource { name := "read" } 0))
    t.WellFormed ∧ (0 < 8 ∧ 0 < 4) ∧ (8 ≤ Position.last ∧ 4 ≤ Position.last) ∧
      ∃ t', t.convertBaseInWords .encode 8 4 = .ok t' ∧ t'.isTainted = true ∧
        (∃ q, t'.chainAt q ≠ none ∧ ShareBit 8 4 2147483647 q) ∧
        ¬ ∃ q, t'.chainAt q ≠ none ∧ ShareBit 8 4 2147483648 q := by
  intro t
  have wf : t.WellFormed := by decide
  have positive : 0 < 8 ∧ 0 < 4 := by decide
  have bounded : 8 ≤ Position.last ∧ 4 ≤ Position.last := by decide
  obtain ⟨t', ok, -, keeps, left⟩ := convertBase_keeps_iff wf .encode positive.1 positive.2
    bounded.1 bounded.2
  refine ⟨wf, positive, bounded, t', ok, left.mpr ⟨2147483647, by decide, by decide⟩, ?_, ?_⟩
  · exact (keeps 2147483647 (by decide)).mpr (by decide)
  · exact mt (keeps 2147483648 (by decide)).mp (by decide)

/-- A byte whose hexadecimal digits are behind the last position loses its taint, and with it all
taint is gone. -/
theorem convertBase_high_untainted :
    let t := ofList (Range.span 4000000000 4000000001 (.ofSource { name := "read" } 0))
    t.WellFormed ∧ t.isTainted = true ∧ t.chainAt 4000000000 ≠ none ∧
      t.convertBase .encode 8 4 = .ok untainted ∧ untainted.isTainted = false ∧
      ¬ ∃ q, untainted.chainAt q ≠ none ∧ ShareBit 8 4 4000000000 q := by
  intro t
  exact ⟨by decide, rfl, by decide, by decide, rfl, fun ⟨_, tainted, _⟩ => tainted rfl⟩

/-! ## There and back -/

/-- Taint whose encoding ends at a position keeps all tainted positions there and back. -/
theorem chainAt_ne_none_of_roundTrip (wf : t.WellFormed) (unitPositive : 0 < unitWidth)
    (encodedPositive : 0 < encodedWidth)
    (fits : t.stop * unitWidth ⌈/⌉ encodedWidth ≤ Position.last)
    (encode : t.convertBase .encode unitWidth encodedWidth = .ok encoded)
    (decode : encoded.convertBase .decode unitWidth encodedWidth = .ok decoded)
    (tainted : t.chainAt p ≠ none) : decoded.chainAt p ≠ none := by
  have bits : p * unitWidth < t.stop * unitWidth :=
    Nat.mul_lt_mul_of_pos_right (wf.lt_stop tainted) unitPositive
  have within : p * unitWidth / encodedWidth < t.stop * unitWidth ⌈/⌉ encodedWidth :=
    (lt_ceilDiv_iff_mul_lt encodedPositive).mpr
      (Nat.lt_of_le_of_lt (Nat.div_mul_le_self _ encodedWidth) bits)
  have share : ShareBit unitWidth encodedWidth p (p * unitWidth / encodedWidth) :=
    shareBit_first unitPositive
  have there : encoded.chainAt (p * unitWidth / encodedWidth) ≠ none :=
    (chainAt_ne_none_iff_of_convertBase wf unitPositive encodedPositive encode
      (Nat.lt_of_lt_of_le within fits)).mpr ⟨p, tainted, share⟩
  exact (chainAt_ne_none_iff_of_convertBase (convertBase_wellFormed encode) unitPositive
    encodedPositive decode (wf.lt_last tainted)).mpr ⟨_, there, share.symm⟩

/-- Every part of a unit gets the chain of the unit. -/
theorem chainAt_of_encode_parts (wf : t.WellFormed) (positive : 0 < m) (parts : 0 < k)
    (fits : t.stop * k ≤ Position.last) (encode : t.convertBase .encode (m * k) m = .ok encoded)
    (q : Nat) : encoded.chainAt q = t.chainAt (q / k) := by
  rcases Nat.lt_or_ge q Position.last with inside | outside
  · rw [chainAt_of_convertBase wf (Nat.mul_pos positive parts) positive encode inside,
      wf.chainAt_eq, labelIn_eq_find?]
    simp only [BaseDirection.widthBefore, BaseDirection.widthAfter,
      Range.reaches_parts_iff positive parts]
  · have late : t.stop ≤ q / k := (Nat.le_div_iff_mul_le parts).mpr (Nat.le_trans fits outside)
    rw [(convertBase_wellFormed encode).chainAt_of_last_le outside,
      wf.stop_le_iff.mp late (q / k) (Nat.le_refl _)]

/-- A unit whose parts all have the chain `label p`, or all have none, gets that back. -/
theorem chainAt_of_decode_parts {label : Nat → Option Chain} (wf : encoded.WellFormed)
    (positive : 0 < m) (parts : 0 < k) (each : ∀ q, encoded.chainAt q = label (q / k))
    (decode : encoded.convertBase .decode (m * k) m = .ok decoded) (inside : p < Position.last) :
    decoded.chainAt p = label p := by
  rw [chainAt_of_convertBase wf (Nat.mul_pos positive parts) positive decode inside]
  simp only [BaseDirection.widthBefore, BaseDirection.widthAfter,
    Range.reaches_unit_iff positive parts]
  cases found : encoded.ranges.find? fun r => r.start < (p + 1) * k ∧ p * k < r.stop with
  | none =>
    have clean : encoded.chainAt (p * k) = none := by
      rw [wf.chainAt_eq, labelIn_eq_none_iff]
      intro r mem covers
      have next : p * k < (p + 1) * k := Nat.mul_lt_mul_of_pos_right (Nat.lt_succ_self p) parts
      have missed := List.find?_eq_none.mp found r mem
      exact missed (decide_eq_true ⟨Nat.lt_of_le_of_lt covers.1 next, covers.2⟩)
    rw [Option.map_none, ← clean, each, Nat.mul_div_cancel p parts]
  | some r =>
    have mem := List.mem_of_find?_eq_some found
    have reaches : r.start < (p + 1) * k ∧ p * k < r.stop := by
      simpa using List.find?_some found
    have covers : r.Covers (max r.start (p * k)) :=
      ⟨Nat.le_max_left .., Nat.max_lt.mpr ⟨wf.start_lt_stop mem, reaches.2⟩⟩
    rw [Option.map_some, ← labelIn_of_mem wf.inOrder mem covers, ← wf.chainAt_eq, each,
      max_div_eq parts reaches.1]

/-- **There and back, a base conversion keeps all taint.**  Of well-formed taint whose encoding ends
at a position, every tainted position is tainted again after it is encoded and decoded; and where
the width of a unit is a multiple of the encoded width, the taint is the same again. -/
theorem convertBase_roundTrip (wf : t.WellFormed) (unitPositive : 0 < unitWidth)
    (encodedPositive : 0 < encodedWidth)
    (fits : t.stop * unitWidth ⌈/⌉ encodedWidth ≤ Position.last) :
    ∃ encoded decoded, t.convertBase .encode unitWidth encodedWidth = .ok encoded ∧
      encoded.convertBase .decode unitWidth encodedWidth = .ok decoded ∧
      (∀ p, t.chainAt p ≠ none → decoded.chainAt p ≠ none) ∧
      (encodedWidth ∣ unitWidth → decoded = t) := by
  obtain ⟨encoded, encode⟩ := exists_convertBase t .encode unitPositive encodedPositive
  obtain ⟨decoded, decode⟩ := exists_convertBase encoded .decode unitPositive encodedPositive
  refine ⟨encoded, decoded, encode, decode, fun p =>
    chainAt_ne_none_of_roundTrip wf unitPositive encodedPositive fits encode decode, ?_⟩
  rintro ⟨k, rfl⟩
  have parts : 0 < k := Nat.pos_of_mul_pos_left unitPositive
  have fitsParts : t.stop * k ≤ Position.last := by
    rw [ceilDiv_le_iff_le_mul encodedPositive, Nat.mul_left_comm] at fits
    exact Nat.le_of_mul_le_mul_left fits encodedPositive
  have wf' : decoded.WellFormed := convertBase_wellFormed decode
  refine wf'.eq_of_chainAt_eq wf fun p _ => ?_
  rcases Nat.lt_or_ge p Position.last with inside | outside
  · exact chainAt_of_decode_parts (convertBase_wellFormed encode) encodedPositive parts
      (chainAt_of_encode_parts wf encodedPositive parts fitsParts encode) decode inside
  · rw [wf'.chainAt_of_last_le outside, wf.chainAt_of_last_le outside]

/-- Two ranges that touch, up to the last byte whose hexadecimal digits are positions, are encoded
and decoded: they still are two, and stop where they did. -/
theorem convertBase_roundTrip_hexadecimal :
    let t := ofList (Range.span 2147483640 2147483645 (.ofSource { name := "read" } 0) ++
      Range.span 2147483645 2147483647 (.ofSource { name := "read" } 1))
    t.WellFormed ∧ (0 < 8 ∧ 0 < 4) ∧ t.stop * 8 ⌈/⌉ 4 ≤ Position.last ∧
      ∃ encoded decoded, t.convertBase .encode 8 4 = .ok encoded ∧
        encoded.convertBase .decode 8 4 = .ok decoded ∧
        decoded.chainAt 2147483646 ≠ none ∧ decoded = t := by
  intro t
  have wf : t.WellFormed := by decide
  have positive : 0 < 8 ∧ 0 < 4 := by decide
  have fits : t.stop * 8 ⌈/⌉ 4 ≤ Position.last := by decide
  obtain ⟨encoded, decoded, encode, decode, keeps, same⟩ :=
    convertBase_roundTrip wf positive.1 positive.2 fits
  exact ⟨wf, positive, fits, encoded, decoded, encode, decode, keeps _ (by decide),
    same (by decide)⟩

end Taint

end TextProvenance
