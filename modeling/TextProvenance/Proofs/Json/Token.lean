import TextProvenance.Json.Printer
import TextProvenance.Json.Reader

/-!
# Printed texts and numbers

A printed text is read back in front of every input (`Json.readText_escaped`), and a printed number
in front of every input that does not go on with it (`Json.readNumber_digits`).
-/

namespace TextProvenance

namespace Decimal

variable {n : Nat} {d : Char} {rest : List Char}

theorem digits_eq_toDigits (n : Nat) : digits n = Nat.toDigits 10 n := by
  fun_induction digits n with
  | case1 n small => rw [Nat.toDigits_of_lt_base small]
  | case2 n large ih => rw [ih, ← Nat.toDigits_of_base_le (by decide) (Nat.not_lt.mp large)]

theorem digits_ne_nil (n : Nat) : digits n ≠ [] := by
  rw [digits_eq_toDigits]
  exact Nat.toDigits_ne_nil

theorem isDigit_of_mem_digits (mem : d ∈ digits n) : d.isDigit = true := by
  rw [digits_eq_toDigits] at mem
  exact Nat.isDigit_of_mem_toDigits (by decide) (by decide) mem

theorem exists_digits_cons (n : Nat) : ∃ d others, digits n = d :: others ∧ d.isDigit = true := by
  obtain ⟨d, others, digits⟩ := List.exists_cons_of_ne_nil (digits_ne_nil n)
  exact ⟨d, others, digits, isDigit_of_mem_digits (digits ▸ List.mem_cons_self)⟩

theorem value_digits (n : Nat) : value (digits n) = n := by
  rw [digits_eq_toDigits]
  exact Nat.ofDigitChars_ten_toDigits

/-- A leading zero is the only digit. -/
theorem eq_nil_of_digits_eq_zero_cons (zero : digits n = '0' :: rest) : rest = [] := by
  fun_induction digits n generalizing rest with
  | case1 n small => exact (List.cons.inj zero).2.symm
  | case2 n large ih =>
    -- The digits in front of the last one have a leading zero too, and so are those of no number
    -- but zero.
    obtain ⟨d, ds, front, -⟩ := exists_digits_cons (n / 10)
    rw [front, List.cons_append] at zero
    obtain ⟨rfl, -⟩ := List.cons.inj zero
    obtain rfl := ih front
    have none : n / 10 = 0 := (value_digits _).symm.trans (congrArg value front)
    omega

end Decimal

namespace Json

variable {c d : Char} {rest : List Char}

/-! ## Texts -/

/-- The form of a character is a backslash with a letter for it, its number, or the character. -/
theorem escape_cases (c : Char) :
    (∃ letter, escape c = ['\\', letter] ∧ letter ≠ 'u' ∧ unescape? letter = some c) ∨
    (escape c = ['\\', 'u', '0', '0', Nat.digitChar (c.toNat / 16), Nat.digitChar (c.toNat % 16)] ∧
      c.toNat < 0x20) ∨
    (escape c = [c] ∧ c ≠ '"' ∧ c ≠ '\\' ∧ ¬ c.toNat < 0x20) := by
  by_cases short : c ∈ ['"', '\\', '\x08', '\t', '\n', '\x0c', '\r']
  · left
    simp only [List.mem_cons, List.not_mem_nil, or_false] at short
    rcases short with rfl | rfl | rfl | rfl | rfl | rfl | rfl <;>
      exact ⟨_, rfl, by decide, rfl⟩
  · simp only [List.mem_cons, List.not_mem_nil, or_false, not_or] at short
    by_cases control : c.toNat < 0x20
    · exact .inr (.inl ⟨by simp only [escape, short, control, if_true, if_false], control⟩)
    · exact .inr (.inr ⟨by simp only [escape, short, control, if_false], short.1, short.2.1,
        control⟩)

theorem hexWord?_control {n : Nat} (small : n < 0x20) :
    hexWord? '0' '0' (Nat.digitChar (n / 16)) (Nat.digitChar (n % 16)) = some n := by
  revert n
  decide

/-- The form of a character is read as its code point. -/
theorem readCodes_escape (c : Char) (rest : List Char) :
    readCodes (escape c ++ rest) = do
      let (codes, after) ← readCodes rest
      return (c.toNat :: codes, after) := by
  rcases escape_cases c with ⟨letter, form, notNumber, means⟩ | ⟨form, control⟩ |
    ⟨form, notQuote, notBackslash, visible⟩
  · rw [form, List.cons_append, List.cons_append, List.nil_append, readCodes, means]
    · rfl
    · exact fun _ _ _ _ _ isNumber _ => notNumber isNumber
  · simp only [form, List.cons_append, List.nil_append, readCodes, hexWord?_control control]
    rfl
  · rw [form, List.singleton_append, readCodes,
      if_neg fun either => either.elim notBackslash visible]
    · exact notQuote
    · exact fun _ _ _ _ _ backslash _ => notBackslash backslash
    · exact fun _ _ backslash _ => notBackslash backslash

theorem readCodes_escaped (chars rest : List Char) :
    readCodes (chars.flatMap escape ++ '"' :: rest) = some (chars.map Char.toNat, rest) := by
  induction chars with
  | nil => rfl
  | cons c chars ih =>
    rw [List.flatMap_cons, List.append_assoc, readCodes_escape, ih]
    rfl

/-- A character is no surrogate. -/
theorem not_surrogate_toNat (c : Char) :
    isHighSurrogate c.toNat = false ∧ isLowSurrogate c.toNat = false := by
  have valid : c.toNat < 0xd800 ∨ (0xdfff < c.toNat ∧ c.toNat < 0x110000) := c.valid
  unfold isHighSurrogate isLowSurrogate
  constructor <;> simp <;> omega

theorem joinSurrogates_map_toNat (chars : List Char) :
    joinSurrogates (chars.map Char.toNat) = some chars := by
  induction chars with
  | nil => rfl
  | cons c chars ih =>
    obtain ⟨notHigh, notLow⟩ := not_surrogate_toNat c
    cases chars with
    | nil => simp [joinSurrogates, notHigh, notLow]
    | cons next chars =>
      rw [List.map_cons] at ih
      simp [joinSurrogates, notHigh, notLow, ih]

/-- What is read behind the quote in front of a printed text is the text. -/
theorem readText_escaped (s : String) (rest : List Char) :
    readText (s.toList.flatMap escape ++ '"' :: rest) = some (some s, rest) := by
  rw [readText, readCodes_escaped]
  simp [joinSurrogates_map_toNat]

/-! ## Numbers -/

theorem ne_of_isDigit (isDigit : c.isDigit = true) (other : d.isDigit = false) : c ≠ d :=
  fun same => absurd (isDigit.symm.trans (same ▸ other)) Bool.false_ne_true.symm

/-- The input does not go on with a number. -/
def EndsNumber : List Char → Prop
  | [] => True
  | c :: _ => c.isDigit = false ∧ c ≠ '.' ∧ c ≠ 'e' ∧ c ≠ 'E'

theorem readDigits_append {digits : List Char} (nonempty : digits ≠ [])
    (all : ∀ d ∈ digits, d.isDigit = true) (ends : EndsNumber rest) :
    readDigits (digits ++ rest) = some (digits, rest) := by
  have stop : rest.takeWhile Char.isDigit = [] ∧ rest.dropWhile Char.isDigit = rest := by
    cases rest with
    | nil => exact ⟨rfl, rfl⟩
    | cons c rest => simp [ends.1]
  rw [readDigits, List.takeWhile_append_of_pos all, List.dropWhile_append_of_pos all, stop.1,
    stop.2, List.append_nil, if_neg (by simpa using nonempty)]

theorem readWhole_digits (n : Nat) (ends : EndsNumber rest) :
    readWhole (Decimal.digits n ++ rest) = some (Decimal.digits n, rest) := by
  obtain ⟨d, others, digits, -⟩ := Decimal.exists_digits_cons n
  by_cases zero : d = '0'
  · subst zero
    obtain rfl := Decimal.eq_nil_of_digits_eq_zero_cons digits
    rw [digits]
    rfl
  · rw [← readDigits_append (Decimal.digits_ne_nil n) (fun _ => Decimal.isDigit_of_mem_digits) ends,
      digits, List.cons_append, readWhole]
    exact fun _ isZero => zero (List.cons.inj isZero).1

theorem skipFraction_of_ends (ends : EndsNumber rest) : skipFraction rest = some rest := by
  unfold skipFraction
  split
  · exact absurd rfl ends.2.1
  · rfl

theorem skipExponent_of_ends (ends : EndsNumber rest) : skipExponent rest = some rest := by
  rcases rest with _ | ⟨c, _ | ⟨d, rest⟩⟩
  · rfl
  · simp [skipExponent, ends.2.2.1, ends.2.2.2]
  · simp [skipExponent, ends.2.2.1, ends.2.2.2]

theorem isContinued_of_ends (ends : EndsNumber rest) : isContinued rest = false := by
  cases rest with
  | nil => rfl
  | cons c rest => simp [isContinued, ends.2.1, ends.2.2.1, ends.2.2.2]

theorem readNumber_digits (n : Nat) (ends : EndsNumber rest) :
    readNumber (Decimal.digits n ++ rest) = some (natural n, rest) := by
  have whole := readWhole_digits n ends
  obtain ⟨d, others, digits, isDigit⟩ := Decimal.exists_digits_cons n
  have notMinus : d ≠ '-' := ne_of_isDigit isDigit rfl
  have value := Decimal.value_digits n
  rw [digits] at whole value ⊢
  simp only [readNumber, List.cons_append] at whole ⊢
  split
  · exact absurd (List.cons.inj ‹_›).1 notMinus
  · simp [whole, skipFraction_of_ends ends, skipExponent_of_ends ends, isContinued_of_ends ends,
      notMinus, value]

end Json

end TextProvenance
