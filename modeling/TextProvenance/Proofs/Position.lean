import TextProvenance.Position

/-!
# Arithmetic of positions

Sums, differences and moves of positions that stay within the positions, and within their machine
words, give what they give without the checks.
-/

namespace TextProvenance

namespace Position

variable {amount : Int}

theorem ofOffset_eq_ok {offset : Nat} (bounded : offset ≤ last) : ofOffset offset = .ok offset :=
  if_pos bounded

theorem ofOffset_eq_error {offset : Nat} (late : last < offset) :
    ofOffset offset = .error (.offsetTooLarge offset) :=
  if_neg (Nat.not_le_of_lt late)

theorem difference_eq_ok {a b : Nat} (ordered : b ≤ a) : difference a b = .ok (a - b) :=
  if_pos ordered

theorem fitsWord_of_le_last {n : Int} (starts : 0 ≤ n) (stops : n ≤ last) :
    FitsWord n := by
  unfold FitsWord last at *
  omega

theorem move_eq_ok {position : Nat} {fault : Fault} (starts : 0 ≤ position + amount)
    (stops : position + amount ≤ last) :
    move position amount fault = .ok (position + amount).toNat := by
  have word := fitsWord_of_le_last starts stops
  unfold move sum
  rw [if_pos word]
  exact if_pos ⟨starts, stops⟩

theorem move_eq_error {position : Nat} (fault : Fault)
    (leaves : position + amount < 0 ∨ last < position + amount) :
    ∃ fault', move position amount fault = .error fault' := by
  unfold move sum
  split
  · exact ⟨fault, if_neg (by omega)⟩
  · exact ⟨.overflow, rfl⟩

end Position

theorem Offset.sum_eq_ok {a b : Nat} (bounded : a + b ≤ Offset.last) :
    Offset.sum a b = .ok (a + b) :=
  if_pos bounded

end TextProvenance
