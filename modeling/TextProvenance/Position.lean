import TextProvenance.Fault

/-!
# Positions

Positions in a text are natural numbers up to `Position.last`.  They are moved by signed amounts in
64-bit words, so a move can fail in two ways: the sum leaves the word (`Fault.overflow`), or it is
no position (a fault of the caller's choice).
-/

namespace TextProvenance

namespace Position

/-- The last position; a range stops there at the latest, so its character carries no taint. -/
def last : Nat := 4294967295

/-- An offset into a text as a position. -/
def ofOffset (offset : Nat) : Except Fault Nat :=
  if offset ≤ last then .ok offset else .error (.offsetTooLarge offset)

/-- The sum of two positions, as long as it is one. -/
def add (a b : Nat) : Except Fault Nat := if a + b ≤ last then .ok (a + b) else .error .overflow

/-- The difference of two positions, as long as it is one. -/
def difference (a b : Nat) : Except Fault Nat := if b ≤ a then .ok (a - b) else .error .overflow

/-- The numbers that a signed 64-bit word holds. -/
def FitsWord (n : Int) : Prop := -9223372036854775808 ≤ n ∧ n ≤ 9223372036854775807

instance (n : Int) : Decidable (FitsWord n) := inferInstanceAs (Decidable (_ ∧ _))

/-- A position and a signed amount, added in a word. -/
def sum (position : Nat) (amount : Int) : Except Fault Int :=
  if FitsWord (position + amount) then .ok (position + amount) else .error .overflow

/-- A position moved by a signed amount; `outside` is the fault of a sum that is no position. -/
def move (position : Nat) (amount : Int) (outside : Fault) : Except Fault Nat := do
  let target ← sum position amount
  if 0 ≤ target ∧ target ≤ last then .ok target.toNat else .error outside

end Position

/-- The last offset into a text that a machine word holds. -/
def Offset.last : Nat := 18446744073709551615

/-- The sum of two offsets into a text. -/
def Offset.sum (a b : Nat) : Except Fault Nat :=
  if a + b ≤ Offset.last then .ok (a + b) else .error .overflow

/-- The product of two offsets, as long as a machine word holds it. -/
def Offset.product (a b : Nat) : Except Fault Nat :=
  if a * b ≤ Offset.last then .ok (a * b) else .error .overflow

end TextProvenance
