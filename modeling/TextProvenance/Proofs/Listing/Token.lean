import TextProvenance.Listing.Token
import TextProvenance.Proofs.Utf8

/-!
# How tokens are spelled

Which characters make which tokens, in both directions: `tokens_spelled` finds the token that
characters spell, and `exists_spelled` finds the characters that spell a token.  A word ends where
its characters do only if what is behind it does not go on with word characters (`Apart`).
-/

namespace TextProvenance.Listing

open Utf8 (byteLength)

variable {c quote : Char} {chars blanks spelled rest : List Char} {offset start : Nat}
  {token : Token} {others : List Placed}

/-! ## Kinds of characters -/

/-- Blank characters only, or none. -/
def Blanks (chars : List Char) : Prop := ∀ c ∈ chars, Unicode.isBlank c = true

/-- One or more word characters. -/
def IsWord (chars : List Char) : Prop := chars ≠ [] ∧ ∀ c ∈ chars, isWordCharacter c = true

/-- A character that is neither blank nor part of a word or a quoted text. -/
def IsSymbol (c : Char) : Prop :=
  Unicode.isBlank c = false ∧ isWordCharacter c = false ∧ isQuote c = false

instance (c : Char) : Decidable (IsSymbol c) := inferInstanceAs (Decidable (_ ∧ _ ∧ _))

/-- A word in front of the characters does not go on in them. -/
def Apart (chars : List Char) : Prop := ∀ c ∈ chars.head?, isWordCharacter c = false

theorem blanks_nil : Blanks [] := nofun

theorem blanks_cons : Blanks (c :: chars) ↔ Unicode.isBlank c = true ∧ Blanks chars :=
  List.forall_mem_cons

theorem toNat_of_isWordCharacter (word : isWordCharacter c = true) :
    48 ≤ c.toNat ∧ c.toNat ≤ 57 ∨ 65 ≤ c.toNat ∧ c.toNat ≤ 90 ∨ c.toNat = 95 ∨
      97 ≤ c.toNat ∧ c.toNat ≤ 122 := by
  have codes {first last : UInt32} (between : first ≤ c.val ∧ c.val ≤ last) :
      first.toNat ≤ c.toNat ∧ c.toNat ≤ last.toNat :=
    between.imp UInt32.le_iff_toNat_le.mp UInt32.le_iff_toNat_le.mp
  rcases Bool.or_eq_true_iff.mp word with alphanumeric | underscore
  · rcases Bool.or_eq_true_iff.mp alphanumeric with letter | digit
    · rcases Bool.or_eq_true_iff.mp letter with upper | lower
      · exact .inr (.inl (codes (of_decide_eq_true upper)))
      · exact .inr (.inr (.inr (codes
          ((Bool.and_eq_true_iff.mp lower).imp of_decide_eq_true of_decide_eq_true))))
    · exact .inl (codes ((Bool.and_eq_true_iff.mp digit).imp of_decide_eq_true of_decide_eq_true))
  · rw [beq_iff_eq.mp underscore]
    decide

theorem not_isWordCharacter_of_isBlank (blank : Unicode.isBlank c = true) :
    isWordCharacter c = false := by
  rw [Bool.eq_false_iff]
  intro word
  have codes := toNat_of_isWordCharacter word
  simp only [Unicode.isBlank, Unicode.blankRuns, List.any_cons, List.any_nil, Bool.or_false,
    Bool.or_eq_true, Bool.and_eq_true, decide_eq_true_eq] at blank
  omega

theorem not_isBlank_not_isWordCharacter_of_isQuote (isQuote : isQuote quote = true) :
    Unicode.isBlank quote = false ∧ isWordCharacter quote = false := by
  rcases Bool.or_eq_true_iff.mp isQuote with single | double
  · rw [beq_iff_eq.mp single]
    decide
  · rw [beq_iff_eq.mp double]
    decide

/-- A word ends in front of blanks, and in front of symbols. -/
theorem apart_blanks (blank : Blanks blanks) (symbol : IsSymbol c) (rest : List Char) :
    Apart (blanks ++ c :: rest) := by
  intro first atHead
  cases blanks with
  | nil => exact Option.some.inj atHead ▸ symbol.2.1
  | cons b _ => exact Option.some.inj atHead ▸
      not_isWordCharacter_of_isBlank (blanks_cons.mp blank).1

/-! ## Spelled tokens -/

/-- The characters that a token stands for.  A quote without a partner has none of its own: it takes
all that is behind it. -/
inductive Spells : List Char → Token → Prop
  | word {first : Char} {more : List Char} (isWord : IsWord (first :: more)) :
    Spells (first :: more) (.word first more)
  | quoted {quote : Char} {content : List Char} (isQuote : isQuote quote = true)
    (closed : quote ∉ content) : Spells (quote :: (content ++ [quote])) (.quoted quote content)
  | symbol {c : Char} (isSymbol : IsSymbol c) : Spells [c] (.symbol c)

theorem tokens_blanks (blank : Blanks blanks) (rest : List Char) (offset : Nat) :
    tokens offset (blanks ++ rest) = tokens (offset + byteLength blanks) rest := by
  induction blanks generalizing offset with
  | nil => rfl
  | cons b blanks ih =>
    rcases blanks_cons.mp blank with ⟨first, others⟩
    rw [List.cons_append, tokens, if_pos first, ih others, byteLength, Nat.add_assoc]

theorem tokens_nil (blank : Blanks blanks) (offset : Nat) : tokens offset blanks = [] := by
  have nothing := tokens_blanks blank [] offset
  rw [List.append_nil] at nothing
  rw [nothing, tokens]

theorem takeWhile_append_apart {p : Char → Bool} (all : ∀ c ∈ chars, p c = true)
    (stops : ∀ c ∈ rest.head?, p c = false) :
    (chars ++ rest).takeWhile p = chars ∧ (chars ++ rest).dropWhile p = rest := by
  rw [List.takeWhile_append_of_pos all, List.dropWhile_append_of_pos all]
  cases rest with
  | nil => simp
  | cons c rest =>
    have stop := stops c rfl
    simp [stop]

/-- The content of a quoted text goes to the first quote of its kind. -/
theorem takeWhile_append_quote {content : List Char} (closed : quote ∉ content)
    (rest : List Char) :
    (content ++ quote :: rest).takeWhile (· != quote) = content ∧
      (content ++ quote :: rest).dropWhile (· != quote) = quote :: rest :=
  takeWhile_append_apart (fun _ mem => bne_iff_ne.mpr fun same => closed (same ▸ mem)) (by simp)

theorem byteLength_quoted (quote : Char) (content : List Char) :
    byteLength (quote :: (content ++ [quote])) =
      byteLength (quote :: content) + quote.utf8Size := by
  rw [← List.cons_append, Utf8.byteLength_append]
  rfl

/-- Characters that spell a token give that token, at the place where they are. -/
theorem tokens_spelled (spells : Spells spelled token) (rest : List Char)
    (apart : ∀ first more, token = .word first more → Apart rest) (offset : Nat) :
    tokens offset (spelled ++ rest) =
      ⟨offset, token⟩ :: tokens (offset + byteLength spelled) rest := by
  cases spells with
  | @word first more isWord =>
    have firstWord := isWord.2 first (by simp)
    have notBlank : ¬ Unicode.isBlank first = true := fun blank => by
      rw [not_isWordCharacter_of_isBlank blank] at firstWord
      cases firstWord
    rcases takeWhile_append_apart (fun c mem => isWord.2 c (List.mem_cons_of_mem first mem))
      (apart first more rfl) with ⟨take, drop⟩
    rw [List.cons_append, tokens, if_neg notBlank, if_pos firstWord, take, drop]
  | @quoted quote content isQuote closed =>
    rcases not_isBlank_not_isWordCharacter_of_isQuote isQuote with ⟨notBlank, notWord⟩
    rcases takeWhile_append_quote closed rest with ⟨take, drop⟩
    rw [byteLength_quoted, ← Nat.add_assoc, List.cons_append, List.append_assoc,
      List.singleton_append, tokens, if_neg (by simp [notBlank]), if_neg (by simp [notWord]),
      if_pos isQuote, if_pos (by simp), take, drop, List.tail_cons]
  | @symbol c isSymbol =>
    rcases isSymbol with ⟨notBlank, notWord, notQuote⟩
    rw [List.singleton_append, tokens, if_neg (by simp [notBlank]), if_neg (by simp [notWord]),
      if_neg (by simp [notQuote])]
    rfl

/-- The first of some tokens stands behind blanks, and the others are the tokens of what is behind
it.  The induction is on the characters, as the lexer goes through them. -/
theorem exists_spelled (found : tokens offset chars = ⟨start, token⟩ :: others)
    (closed : ∀ quote, token ≠ .unclosed quote) :
    ∃ blanks spelled rest, Blanks blanks ∧ Spells spelled token ∧
      chars = blanks ++ (spelled ++ rest) ∧ start = offset + byteLength blanks ∧
      others = tokens (start + byteLength spelled) rest := by
  fun_induction tokens offset chars with
  | case1 => cases found
  | case2 offset c rest blank ih =>
    rcases ih found with ⟨blanks, spelled, behind, blank', spells, same, starts, following⟩
    refine ⟨c :: blanks, spelled, behind, blanks_cons.mpr ⟨blank, blank'⟩, spells, ?_, ?_,
      following⟩
    · rw [same, List.cons_append]
    · rw [starts, byteLength, Nat.add_assoc]
  | case3 offset c rest notBlank word more ih =>
    cases found
    refine ⟨[], c :: more, _, blanks_nil, .word ⟨by simp, ?_⟩, ?_, rfl, rfl⟩
    · intro d mem
      rcases List.mem_cons.mp mem with rfl | mem
      · exact word
      · exact List.all_eq_true.mp List.all_takeWhile d mem
    · rw [List.nil_append, List.cons_append, List.takeWhile_append_dropWhile]
  | case4 offset c rest notBlank notWord isQuote partner content ih =>
    obtain ⟨inside, behind, rfl, first⟩ := List.eq_append_cons_of_mem partner
    rcases takeWhile_append_quote first behind with ⟨take, drop⟩
    simp only [content, take, drop, List.tail_cons] at found
    cases found
    refine ⟨[], c :: (inside ++ [c]), behind, blanks_nil, .quoted isQuote first, ?_, rfl, ?_⟩
    · rw [List.nil_append, List.cons_append, List.append_assoc, List.singleton_append]
    · rw [byteLength_quoted, Nat.add_assoc]
  | case5 offset c =>
    cases found
    exact absurd rfl (closed c)
  | case6 offset c rest notBlank notWord notQuote ih =>
    cases found
    refine ⟨[], [c], rest, blanks_nil, .symbol ⟨?_, ?_, ?_⟩, rfl, rfl, rfl⟩
    · simpa using notBlank
    · simpa using notWord
    · simpa using notQuote

theorem blanks_of_tokens_eq_nil (nothing : tokens offset chars = []) : Blanks chars := by
  fun_induction tokens offset chars with
  | case1 => exact blanks_nil
  | case2 offset c rest blank ih => exact blanks_cons.mpr ⟨blank, ih nothing⟩
  | case3 | case4 | case5 | case6 => cases nothing

end TextProvenance.Listing
