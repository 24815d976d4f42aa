import Mathlib.Tactic.Common
import TextProvenance.Utf8

/-!
# Byte offsets between characters

A text can be taken apart at an offset exactly if some of its characters take that many bytes, and
then those characters are in front (`Utf8.splitAt?_eq_some_iff`).
-/

namespace TextProvenance.Utf8

variable {chars front back : List Char} {offset start stop : Nat}

@[simp] theorem byteLength_append (front back : List Char) :
    byteLength (front ++ back) = byteLength front + byteLength back := by
  induction front with
  | nil => simp [byteLength]
  | cons c rest ih =>
    rw [List.cons_append, byteLength, byteLength, ih]
    omega

theorem eq_nil_of_byteLength (zero : byteLength chars = 0) : chars = [] := by
  cases chars with
  | nil => rfl
  | cons c rest =>
    have := c.utf8Size_pos
    rw [byteLength] at zero
    omega

/-- The bytes of characters. -/
def encode (chars : List Char) : List UInt8 := chars.flatMap String.utf8EncodeChar

theorem encode_append (front back : List Char) :
    encode (front ++ back) = encode front ++ encode back :=
  List.flatMap_append

theorem length_encode (chars : List Char) : (encode chars).length = byteLength chars := by
  induction chars with
  | nil => rfl
  | cons c rest ih =>
    rw [encode, List.flatMap_cons, List.length_append, String.length_utf8EncodeChar, byteLength,
      ← ih]
    rfl

/-- The bytes of a string are those of its characters. -/
theorem bytes_eq_encode (text : String) : text.toByteArray.data.toList = encode text.toList := by
  rw [← String.utf8Encode_toList, List.utf8Encode, List.data_toByteArray]
  rfl

/-- Every character with the offsets where it starts and stops. -/
theorem getElem?_placed (offset : Nat) (chars : List Char) (i : Nat) :
    (placed offset chars)[i]? = chars[i]?.map fun c =>
      (c, offset + byteLength (chars.take i), offset + byteLength (chars.take (i + 1))) := by
  induction chars generalizing offset i with
  | nil => rfl
  | cons c rest ih =>
    cases i with
    | zero => simp [placed, byteLength]
    | succ i =>
      rw [placed, List.getElem?_cons_succ, List.getElem?_cons_succ, ih]
      simp only [List.take_succ_cons, byteLength, Nat.add_assoc]

/-! ## Taking a text apart -/

theorem splitAt?_append (front back : List Char) :
    splitAt? (byteLength front) (front ++ back) = some (front, back) := by
  induction front with
  | nil => rw [byteLength, splitAt?]; rfl
  | cons c rest ih =>
    have positive := c.utf8Size_pos
    obtain ⟨n, length⟩ : ∃ n, byteLength (c :: rest) = n + 1 :=
      ⟨c.utf8Size + byteLength rest - 1, by rw [byteLength]; omega⟩
    have remaining : n + 1 - c.utf8Size = byteLength rest := by
      rw [← length, byteLength]
      omega
    rw [byteLength] at length
    rw [byteLength, length, List.cons_append, splitAt?, if_pos (by omega), remaining, ih]
    rfl

theorem splitAt?_eq_some_iff :
    splitAt? offset chars = some (front, back) ↔
      chars = front ++ back ∧ byteLength front = offset := by
  constructor
  · intro split
    induction chars generalizing offset front with
    | nil =>
      cases offset with
      | zero => cases split; exact ⟨rfl, rfl⟩
      | succ n => cases split
    | cons c rest ih =>
      cases offset with
      | zero => cases split; exact ⟨rfl, rfl⟩
      | succ n =>
        rw [splitAt?] at split
        by_cases fits : c.utf8Size ≤ n + 1
        · rw [if_pos fits] at split
          rcases Option.map_eq_some_iff.mp split with ⟨⟨inFront, behind⟩, found, same⟩
          cases same
          rcases ih found with ⟨rfl, length⟩
          exact ⟨rfl, by rw [byteLength]; omega⟩
        · rw [if_neg fits] at split
          cases split
  · rintro ⟨rfl, rfl⟩
    exact splitAt?_append front back

theorem truncate?_append (front back : List Char) :
    truncate? (byteLength front) (front ++ back) = some front := by
  have inside : byteLength front ≤ byteLength (front ++ back) := by
    rw [byteLength_append]
    exact Nat.le_add_right ..
  rw [truncate?, if_pos inside, splitAt?_append]
  rfl

theorem cut?_eq_some_iff {cut : Cut} :
    cut? start stop chars = some cut ↔
      start ≤ stop ∧ chars = cut.front ++ (cut.middle ++ cut.back) ∧
        byteLength cut.front = start ∧ byteLength cut.middle = stop - start := by
  unfold cut?
  by_cases ordered : start ≤ stop
  · rw [if_pos ordered]
    constructor
    · intro found
      rcases Option.bind_eq_some_iff.mp found with ⟨⟨front, rest⟩, first, found⟩
      rcases Option.bind_eq_some_iff.mp found with ⟨⟨middle, back⟩, second, same⟩
      cases same
      rcases splitAt?_eq_some_iff.mp first with ⟨rfl, lengthFront⟩
      rcases splitAt?_eq_some_iff.mp second with ⟨rfl, lengthMiddle⟩
      exact ⟨ordered, rfl, lengthFront, lengthMiddle⟩
    · rintro ⟨-, rfl, lengthFront, lengthMiddle⟩
      have first := splitAt?_append cut.front (cut.middle ++ cut.back)
      have second := splitAt?_append cut.middle cut.back
      rw [lengthFront] at first
      rw [lengthMiddle] at second
      simp only [first, second, bind, Option.bind]
  · rw [if_neg ordered]
    exact ⟨fun found => (nomatch found), fun ⟨le, _⟩ => absurd le ordered⟩

/-- The offset is between two characters, or at one of the ends. -/
def Boundary (chars : List Char) (offset : Nat) : Prop :=
  ∃ front back, chars = front ++ back ∧ byteLength front = offset

theorem isSome_splitAt?_iff : (splitAt? offset chars).isSome = true ↔ Boundary chars offset := by
  rw [Option.isSome_iff_exists]
  constructor
  · rintro ⟨⟨front, back⟩, found⟩
    exact ⟨front, back, splitAt?_eq_some_iff.mp found⟩
  · rintro ⟨front, back, parts⟩
    exact ⟨(front, back), splitAt?_eq_some_iff.mpr parts⟩

instance (chars : List Char) (offset : Nat) : Decidable (Boundary chars offset) :=
  decidable_of_iff _ isSome_splitAt?_iff

/-- A text can be taken apart at two offsets between characters. -/
theorem exists_cut (ordered : start ≤ stop) (first : Boundary chars start)
    (second : Boundary chars stop) : ∃ cut, cut? start stop chars = some cut := by
  rcases first with ⟨front, rest, rfl, lengthFront⟩
  rcases second with ⟨front', back, same, lengthFront'⟩
  rcases List.append_eq_append_iff.mp same with ⟨middle, rfl, rfl⟩ | ⟨middle, rfl, rfl⟩
  · rw [byteLength_append] at lengthFront'
    have lengthMiddle : byteLength middle = stop - start := by omega
    exact ⟨⟨front, middle, back⟩,
      cut?_eq_some_iff.mpr ⟨ordered, rfl, lengthFront, lengthMiddle⟩⟩
  · rw [byteLength_append] at lengthFront
    have nothing : byteLength middle = 0 := by omega
    obtain rfl := eq_nil_of_byteLength nothing
    have lengthFront'' : byteLength front' = start := by omega
    refine ⟨⟨front', [], rest⟩, cut?_eq_some_iff.mpr ⟨ordered, by simp, lengthFront'', ?_⟩⟩
    rw [byteLength]
    omega

/-- Offsets at which a text is taken apart are between characters. -/
theorem boundaries_of_cut {cut : Cut} (found : cut? start stop chars = some cut) :
    Boundary chars start ∧ Boundary chars stop := by
  rcases cut?_eq_some_iff.mp found with ⟨ordered, parts, front, middle⟩
  refine ⟨⟨cut.front, cut.middle ++ cut.back, parts, front⟩,
    ⟨cut.front ++ cut.middle, cut.back, by rw [parts, List.append_assoc], ?_⟩⟩
  rw [byteLength_append]
  omega

end TextProvenance.Utf8
