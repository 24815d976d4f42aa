/-!
# Decimal numerals

Natural numbers as digits, the most significant first, without leading zeros; reading allows
leading zeros.
-/

namespace TextProvenance.Decimal

/-- The digits of a number. -/
def digits (n : Nat) : List Char :=
  if n < 10 then [Nat.digitChar n] else digits (n / 10) ++ [Nat.digitChar (n % 10)]

/-- The number that digits stand for. -/
def value (digits : List Char) : Nat :=
  digits.foldl (fun n d => 10 * n + (d.toNat - '0'.toNat)) 0

/-- The number that characters stand for, if they are digits and there is at least one. -/
def read? (chars : List Char) : Option Nat :=
  if !chars.isEmpty && chars.all Char.isDigit then some (value chars) else none

end TextProvenance.Decimal
