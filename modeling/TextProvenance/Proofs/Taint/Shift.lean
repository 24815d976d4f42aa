import TextProvenance.Proofs.Taint.Canonical
import TextProvenance.Proofs.Taint.Splice

/-!
# Taint moves with its text

What `Taint.shift` does to every position, with signed amounts (`Taint.chainAt_shift`).  To the
right it makes a gap; to the left it takes out the positions in front of `index`.
-/

namespace TextProvenance.Taint

variable {t t' : Taint} {index : Nat} {amount : Int}

/-- **Taint is shifted as text is edited.**  Inserting `amount` positions at `index` leaves what is
in front of it, puts untainted positions there, and moves the rest right.  Deleting positions in
front of `index` leaves what is in front of them, and moves what is behind them left. -/
theorem chainAt_shift (wf : t.WellFormed) (ok : t.shift index amount = .ok t') (p : Nat) :
    (0 ≤ amount → t'.chainAt p =
      if (p : Int) < index then t.chainAt p
      else if (p : Int) < index + amount then none
      else t.chainAt (p - amount).toNat) ∧
    (amount < 0 → t'.chainAt p =
      if (p : Int) < index + amount then t.chainAt p
      else if (p : Int) - amount ≤ Position.last then t.chainAt (p - amount).toNat
      else none) := by
  obtain ⟨target, reached, labels⟩ := labels_of_shift wf ok
  have moved : ∀ q : Nat, target ≤ q → ((q : Int) - amount).toNat = q - target + index := by omega
  rw [labels.chainAt, shiftedLabel]
  constructor
  · intro inserted
    by_cases inFront : p < index
    · rw [if_pos (by omega), if_pos (by omega)]
    · rw [if_neg (by omega)]
      by_cases inGap : p < target
      · rw [if_pos inGap, if_neg (by omega), if_pos (by omega)]
      · rw [if_neg inGap, if_neg (by omega), if_neg (by omega), moved p (by omega)]
  · intro deleted
    by_cases inFront : p < target
    · rw [if_pos (by omega), if_pos (by omega)]
    · rw [if_neg (by omega), if_neg inFront, if_neg (by omega), ← moved p (by omega)]
      by_cases inside : (p : Int) - amount ≤ Position.last
      · rw [if_pos inside]
      · rw [if_neg inside]
        exact wf.chainAt_of_last_le (by omega)

/-- Three positions in front of 7 are deleted: the two ranges that they cut are shortened, the one
between them goes, and the ends that meet are one range again. -/
theorem chainAt_shift_rejoined :
    let read : Chain := .ofSource { name := "read" } 0
    let join : Chain := .ofSource { name := "join" } 1
    let t : Taint := ⟨some [⟨0, 5, read, by decide, by decide⟩, ⟨5, 6, join, by decide, by decide⟩,
      ⟨6, 9, read, by decide, by decide⟩]⟩
    let t' : Taint := ⟨some [⟨0, 6, read, by decide, by decide⟩]⟩
    t.WellFormed ∧ t.shift 7 (-3) = .ok t' ∧
      t'.chainAt 5 = t.chainAt 8 ∧ t'.chainAt 6 = none := by
  intro read join t t'
  have wf : t.WellFormed := by decide
  have ok : t.shift 7 (-3) = .ok t' := by decide
  exact ⟨wf, ok, (chainAt_shift wf ok 5).2 (by decide), (chainAt_shift wf ok 6).2 (by decide)⟩

end TextProvenance.Taint
