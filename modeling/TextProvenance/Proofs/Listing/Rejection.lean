import Mathlib.Data.List.DropRight
import TextProvenance.Proofs.Listing.Meaning
import TextProvenance.Proofs.Listing.Token

/-!
# What a rejection says is so

`Rejection.HoldsOf` is what a rejection says of the characters that are rejected: which character
stands where, what is missing there, or how two bounds lie to each other.  Whatever a text is
rejected for holds of it (`holdsOf_of_read_error`).

The reader works on tokens, so a rejection is first traced back to a token of the input
(`Rejection.Blames`), and from there to the characters at the place of that token
(`Placed.StandsIn`).  No rejection is about the end of the text: the tokens of a framed text end
with the closing bracket, or with a quote that takes the bracket in and has no partner (`Closed`),
and neither is passed over by the reader.
-/

namespace TextProvenance.Listing

open Utf8 (byteLength)

variable {c : Char} {chars front rest : List Char} {offset textEnd previousStop : Nat}
  {input behind : List Placed} {t value : Placed} {reason : Rejection} {fields fields' : Fields}
  {entry : Entry}

/-! ## Blanks around a text -/

/-- The characters without the blanks in front of them and behind them. -/
def trimmed (chars : List Char) : List Char :=
  (chars.dropWhile Unicode.isBlank).rdropWhile Unicode.isBlank

/-- Apart from blanks around it, the text starts and ends with the brackets of a list. -/
def Framed (chars : List Char) : Prop :=
  (trimmed chars).head? = some '[' ∧ (trimmed chars).getLast? = some ']'

theorem trimmed_eq_nil_iff : trimmed chars = [] ↔ Blanks chars := by
  rw [trimmed, List.rdropWhile_eq_nil_iff]
  constructor
  · intro blank c mem
    rw [← List.takeWhile_append_dropWhile (p := Unicode.isBlank) (l := chars)] at mem
    rcases List.mem_append.mp mem with inFront | inside
    · exact List.mem_takeWhile_imp inFront
    · exact blank c inside
  · exact fun blank c mem => blank c ((List.dropWhile_suffix _).subset mem)

/-- Unless nothing is left of the text, it starts as it does with the blanks behind it. -/
theorem head?_trimmed (left : trimmed chars ≠ []) :
    (trimmed chars).head? = (chars.dropWhile Unicode.isBlank).head? := by
  obtain ⟨blanks, same⟩ := List.rdropWhile_prefix Unicode.isBlank
    (l := chars.dropWhile Unicode.isBlank)
  rw [← same, ← trimmed, List.head?_append_of_ne_nil _ left]

/-- Unless nothing is left of the text, it ends as it does with the blanks in front of it. -/
theorem getLast?_trimmed (left : trimmed chars ≠ []) :
    (trimmed chars).getLast? = (chars.reverse.dropWhile Unicode.isBlank).head? := by
  have stops : (chars.dropWhile Unicode.isBlank).reverse.dropWhile Unicode.isBlank ≠ [] := by
    simpa only [trimmed, List.rdropWhile, ne_eq, List.reverse_eq_nil_iff] using left
  have reversed : chars.reverse = (chars.dropWhile Unicode.isBlank).reverse ++
      (chars.takeWhile Unicode.isBlank).reverse := by
    rw [← List.reverse_append, List.takeWhile_append_dropWhile]
  rw [reversed, List.dropWhile_append, if_neg (by simpa using stops),
    List.head?_append_of_ne_nil _ stops, trimmed, List.rdropWhile, List.getLast?_reverse]

theorem isFramed_iff : isFramed chars = true ↔ Framed chars := by
  rw [isFramed, Bool.and_eq_true, beq_iff_eq, beq_iff_eq, Framed]
  by_cases nothing : trimmed chars = []
  · rw [List.dropWhile_eq_nil_iff.mpr (trimmed_eq_nil_iff.mp nothing), nothing]
    exact ⟨fun framed => (nomatch framed.1), fun framed => (nomatch framed.1)⟩
  · rw [head?_trimmed nothing, getLast?_trimmed nothing]

/-! ## Where tokens stand -/

/-- The token stands in the characters, which start at `offset`; a quote without a partner has none
behind it. -/
def Placed.StandsIn (t : Placed) (offset : Nat) (chars : List Char) : Prop :=
  ∃ front back, chars = front ++ t.token.firstCharacter :: back ∧
    t.offset = offset + byteLength front ∧
    ∀ quote, t.token = .unclosed quote → isQuote quote = true ∧ quote ∉ back

theorem Placed.StandsIn.prepend (front : List Char)
    (stands : t.StandsIn (offset + byteLength front) rest) : t.StandsIn offset (front ++ rest) := by
  obtain ⟨before, back, rfl, place, alone⟩ := stands
  refine ⟨front ++ before, back, by rw [List.append_assoc], ?_, alone⟩
  rw [place, Utf8.byteLength_append, Nat.add_assoc]

theorem Placed.standsIn_head {token : Token}
    (alone : ∀ quote, token = .unclosed quote → isQuote quote = true ∧ quote ∉ rest) :
    Placed.StandsIn ⟨offset, token⟩ offset (token.firstCharacter :: rest) :=
  ⟨[], rest, rfl, rfl, alone⟩

/-- Every token stands where it says.  The induction is on the characters, as the lexer goes through
them: a token further on is found behind what the lexer passes over. -/
theorem standsIn_of_mem_tokens (mem : t ∈ tokens offset chars) : t.StandsIn offset chars := by
  fun_induction tokens offset chars with
  | case1 => cases mem
  | case2 offset c rest blank ih => exact (ih mem).prepend [c]
  | case3 offset c rest notBlank word more ih =>
    rcases List.mem_cons.mp mem with rfl | mem
    · exact Placed.standsIn_head fun quote same => by cases same
    · have stands := (ih mem).prepend (c :: more)
      rwa [List.cons_append, List.takeWhile_append_dropWhile] at stands
  | case4 offset c rest notBlank notWord isQuote partner content ih =>
    rcases List.mem_cons.mp mem with rfl | mem
    · exact Placed.standsIn_head fun quote same => by cases same
    · obtain ⟨inside, behind, rfl, first⟩ := List.eq_append_cons_of_mem partner
      rcases takeWhile_append_quote first behind with ⟨take, drop⟩
      simp only [content, take, drop, List.tail_cons] at ih mem
      rw [Nat.add_assoc, ← byteLength_quoted] at ih mem
      have stands := (ih mem).prepend (c :: (inside ++ [c]))
      rwa [List.cons_append, List.append_assoc, List.singleton_append] at stands
  | case5 offset c rest notBlank notWord isQuote single =>
    cases List.mem_singleton.mp mem
    refine Placed.standsIn_head fun quote same => ?_
    cases same
    exact ⟨isQuote, single⟩
  | case6 offset c rest notBlank notWord notQuote ih =>
    rcases List.mem_cons.mp mem with rfl | mem
    · exact Placed.standsIn_head fun quote same => by cases same
    · exact (ih mem).prepend [c]

/-! ## How tokens end -/

/-- A token that the reader does not pass over: the closing bracket of a list, or a quote without a
partner. -/
def Token.Closes (token : Token) : Prop := token = .symbol ']' ∨ ∃ quote, token = .unclosed quote

/-- The last of the tokens is not passed over. -/
def Closed (input : List Placed) : Prop := ∃ t ∈ input.getLast?, t.token.Closes

theorem not_closed_nil : ¬ Closed [] := fun ⟨_, last, _⟩ => nomatch last

theorem closed_singleton (closes : t.token.Closes) : Closed [t] := ⟨t, rfl, closes⟩

theorem Closed.cons (closed : Closed input) (t : Placed) : Closed (t :: input) := by
  obtain ⟨last, mem, closes⟩ := closed
  refine ⟨last, ?_, closes⟩
  rw [List.getLast?_cons, Option.mem_def.mp mem]
  rfl

theorem Closed.of_cons (closed : Closed (t :: input)) (more : input ≠ []) : Closed input := by
  obtain ⟨last, mem, closes⟩ := closed
  obtain ⟨next, others, rfl⟩ := List.exists_cons_of_ne_nil more
  rw [List.getLast?_cons_cons] at mem
  exact ⟨last, mem, closes⟩

/-- Tokens that are passed over are not the last ones. -/
theorem Closed.tail (closed : Closed (t :: input)) (passes : ¬ t.token.Closes) : Closed input := by
  refine closed.of_cons ?_
  rintro rfl
  obtain ⟨last, mem, closes⟩ := closed
  cases mem
  exact passes closes

theorem not_closes_word {first : Char} {more : List Char} : ¬ (Token.word first more).Closes := by
  simp [Token.Closes]

theorem not_closes_symbol (other : c ≠ ']') : ¬ (Token.symbol c).Closes := by
  simpa [Token.Closes] using other

/-- The characters end with a closing bracket, apart from blanks. -/
def EndsClosed (chars : List Char) : Prop :=
  ∃ inner blanks, Blanks blanks ∧ chars = inner ++ ']' :: blanks

theorem endsClosed_of_isFramed (framed : isFramed chars = true) : EndsClosed chars := by
  rw [isFramed, Bool.and_eq_true, beq_iff_eq, beq_iff_eq] at framed
  have last : (chars.rdropWhile Unicode.isBlank).getLast? = some ']' := by
    rw [List.rdropWhile, List.getLast?_reverse, framed.2]
  obtain ⟨inner, same⟩ := List.getLast?_eq_some_iff.mp last
  refine ⟨inner, chars.rtakeWhile Unicode.isBlank, fun c mem => List.mem_rtakeWhile_imp mem, ?_⟩
  have parts := List.rdropWhile_append_rtakeWhile (p := Unicode.isBlank) (l := chars)
  rw [same, List.append_assoc, List.singleton_append] at parts
  exact parts.symm

theorem exists_dropWhile_append {p : Char → Bool} (stops : p c = false) (front rest : List Char) :
    ∃ kept, (front ++ c :: rest).dropWhile p = kept ++ c :: rest := by
  rw [List.dropWhile_append]
  split
  · exact ⟨[], List.dropWhile_cons_of_neg (by simp [stops])⟩
  · exact ⟨_, rfl⟩

/-- Behind another character, characters end closed as they do with it. -/
theorem EndsClosed.tail (ends : EndsClosed (c :: rest)) (other : c ≠ ']') : EndsClosed rest := by
  obtain ⟨inner, blanks, blank, same⟩ := ends
  cases inner with
  | nil => exact absurd (List.cons.inj same).1 other
  | cons d inner => exact ⟨inner, blanks, blank, (List.cons.inj same).2⟩

theorem EndsClosed.dropWhile {p : Char → Bool} (ends : EndsClosed chars) (stops : p ']' = false) :
    EndsClosed (chars.dropWhile p) := by
  obtain ⟨inner, blanks, blank, rfl⟩ := ends
  obtain ⟨kept, same⟩ := exists_dropWhile_append stops inner blanks
  exact ⟨kept, blanks, blank, same⟩

/-- A quote that is no blank has its partner in front of the bracket. -/
theorem EndsClosed.tail_dropWhile_quote {quote : Char} (ends : EndsClosed chars)
    (isQuote : isQuote quote = true) (partner : quote ∈ chars) :
    EndsClosed (chars.dropWhile (· != quote)).tail := by
  obtain ⟨inner, blanks, blank, rfl⟩ := ends
  rcases List.mem_append.mp partner with inside | behind
  · obtain ⟨content, others, rfl, first⟩ := List.eq_append_cons_of_mem inside
    rw [List.append_assoc, List.cons_append, (takeWhile_append_quote first _).2, List.tail_cons]
    exact ⟨others, blanks, blank, rfl⟩
  · rcases List.mem_cons.mp behind with rfl | inBlanks
    · cases isQuote
    · have notBlank := (not_isBlank_not_isWordCharacter_of_isQuote isQuote).1
      rw [blank quote inBlanks] at notBlank
      cases notBlank

/-- The last token of characters that end closed is not passed over: whatever the lexer takes for a
word or a quoted text stops in front of the bracket. -/
theorem closed_tokens (ends : EndsClosed chars) (offset : Nat) : Closed (tokens offset chars) := by
  fun_induction tokens offset chars with
  | case1 =>
    obtain ⟨inner, blanks, -, same⟩ := ends
    cases inner <;> cases same
  | case2 offset c rest isBlank ih =>
    refine ih (ends.tail ?_)
    rintro rfl
    cases isBlank
  | case3 offset c rest notBlank word more ih =>
    refine (ih ((ends.tail ?_).dropWhile rfl)).cons _
    rintro rfl
    cases word
  | case4 offset c rest notBlank notWord isQuote partner content ih =>
    refine (ih ((ends.tail ?_).tail_dropWhile_quote isQuote partner)).cons _
    rintro rfl
    cases isQuote
  | case5 => exact closed_singleton (.inr ⟨_, rfl⟩)
  | case6 offset c rest notBlank notWord notQuote ih =>
    obtain ⟨inner, blanks, blank, same⟩ := ends
    cases inner with
    | nil =>
      cases same
      rw [tokens_nil blank]
      exact closed_singleton (.inl rfl)
    | cons d inner =>
      cases same
      exact (ih ⟨inner, blanks, blank, rfl⟩).cons _

/-! ## Which tokens a rejection is about -/

/-- The rejection is about tokens of the input, or about bounds that are at odds.  It is not about
the end of the text, nor about its brackets. -/
def Rejection.Blames (input : List Placed) : Rejection → Prop
  | .unframed => False
  | .unexpectedEnd _ => False
  | .unexpectedCharacter found offset =>
    ∃ t ∈ input, t.token.firstCharacter = found ∧ t.offset = offset
  | .unterminatedString offset =>
    ∃ t ∈ input, (∃ quote, t.token = .unclosed quote) ∧ t.offset = offset
  | .invalidInteger key value =>
    (key = .start ∨ key = .stop) ∧ ¬ ∃ n, IsNumeral value.toList n
  | .missingKey _ offset => ⟨offset, .symbol '{'⟩ ∈ input
  | .invertedRange start stop => stop < start
  | .overlapping start stop previousStop => start < previousStop ∧ start ≤ stop

theorem Rejection.Blames.mono (blames : reason.Blames behind) (part : behind ⊆ input) :
    reason.Blames input := by
  cases reason with
  | unframed | unexpectedEnd => exact blames
  | unexpectedCharacter | unterminatedString =>
    obtain ⟨t, mem, fits⟩ := blames
    exact ⟨t, part mem, fits⟩
  | missingKey key offset => exact part blames
  | invalidInteger | invertedRange | overlapping => exact blames

/-- There is a token where the input does not go on as it should. -/
theorem blames_unexpected (closed : Closed input) : (unexpected textEnd input).Blames input := by
  cases input with
  | nil => exact absurd closed not_closed_nil
  | cons t others => exact ⟨t, List.mem_cons_self, rfl, rfl⟩

theorem blames_of_readValue_error (failed : readValue value = .error reason) :
    reason.Blames [value] := by
  rcases value with ⟨offset, token⟩
  cases token with
  | word | quoted => cases failed
  | unclosed quote =>
    cases failed
    exact ⟨_, List.mem_singleton_self _, ⟨quote, rfl⟩, rfl⟩
  | symbol c =>
    cases failed
    exact ⟨_, List.mem_singleton_self _, rfl, rfl⟩

/-- A token with a value is passed over. -/
theorem not_closes_of_readValue_ok {content : List Char} (read : readValue value = .ok content) :
    ¬ value.token.Closes := by
  rcases value with ⟨offset, token⟩
  cases token with
  | word first more => exact not_closes_word
  | quoted quote content => simp [Token.Closes]
  | unclosed quote | symbol c => cases read

theorem blames_of_readBound_error {key : Key} {content : List Char}
    (bound : key = .start ∨ key = .stop) (failed : readBound key content = .error reason) :
    reason.Blames input := by
  unfold readBound at failed
  split at failed
  · cases failed
  · rename_i unread
    cases failed
    refine ⟨bound, ?_⟩
    rw [String.toList_ofList, exists_isNumeral_iff, unread]
    exact fun ⟨_, read⟩ => nomatch read

theorem blames_of_set_error {key content : List Char}
    (failed : fields.set key content = .error reason) : reason.Blames input := by
  unfold Fields.set at failed
  split at failed
  · rcases bind_eq_error_iff.mp failed with bound | ⟨_, _, done⟩
    · exact blames_of_readBound_error (.inl rfl) bound
    · cases done
  · split at failed
    · rcases bind_eq_error_iff.mp failed with bound | ⟨_, _, done⟩
      · exact blames_of_readBound_error (.inr rfl) bound
      · cases done
    · split at failed <;> cases failed

theorem Closed.behind_key {first : Char} {more : List Char} {keyAt colonAt : Nat}
    (closed : Closed (⟨keyAt, .word first more⟩ :: ⟨colonAt, .symbol ':'⟩ :: input)) :
    Closed input :=
  (closed.tail not_closes_word).tail (not_closes_symbol (by decide))

theorem blames_of_readFields_error (closed : Closed input)
    (failed : readFields textEnd fields input = .error reason) : reason.Blames input := by
  fun_induction readFields textEnd fields input with
  | case1 fields keyAt first more colonAt value rest reason' refused =>
    cases failed
    rcases bind_eq_error_iff.mp refused with unread | ⟨content, read, unset⟩
    · exact (blames_of_readValue_error unread).mono (by simp)
    · exact blames_of_set_error unset
  | case2 fields keyAt first more colonAt value middle noted commaAt rest ih =>
    rcases bind_eq_ok_iff.mp noted with ⟨content, read, set⟩
    have closedRest := (closed.behind_key.tail (not_closes_of_readValue_ok read)).tail
      (not_closes_symbol (by decide))
    exact (ih closedRest failed).mono fun t mem => by simp [mem]
  | case3 => cases failed
  | case4 fields keyAt first more colonAt value middle noted rest notComma notBrace =>
    cases failed
    rcases bind_eq_ok_iff.mp noted with ⟨content, read, set⟩
    have closedRest := closed.behind_key.tail (not_closes_of_readValue_ok read)
    exact (blames_unexpected closedRest).mono fun t mem => by simp [mem]
  | case5 => exact absurd closed.behind_key not_closed_nil
  | case6 fields keyAt first more rest notPair notColon =>
    cases failed
    exact (blames_unexpected (closed.tail not_closes_word)).mono (by simp)
  | case7 fields rest notWord =>
    cases failed
    exact blames_unexpected closed

/-- What comes behind the pairs of an entry is part of the input, with its last token. -/
theorem closed_of_readFields_ok (closed : Closed input)
    (ok : readFields textEnd fields input = .ok (fields', behind)) :
    Closed behind ∧ behind ⊆ input := by
  fun_induction readFields textEnd fields input with
  | case2 fields keyAt first more colonAt value middle noted commaAt rest ih =>
    rcases bind_eq_ok_iff.mp noted with ⟨content, read, set⟩
    have closedRest := (closed.behind_key.tail (not_closes_of_readValue_ok read)).tail
      (not_closes_symbol (by decide))
    rcases ih closedRest ok with ⟨closedBehind, part⟩
    exact ⟨closedBehind, fun t mem => by simp [part mem]⟩
  | case3 fields keyAt first more colonAt value middle noted braceAt rest =>
    cases ok
    rcases bind_eq_ok_iff.mp noted with ⟨content, read, set⟩
    refine ⟨?_, fun t mem => by simp [mem]⟩
    exact (closed.behind_key.tail (not_closes_of_readValue_ok read)).tail
      (not_closes_symbol (by decide))
  | case1 | case4 | case5 | case6 | case7 => cases ok

theorem blames_of_require_error {α : Type} {key : Key} {found : Option α}
    (failed : require key offset found = .error reason) : reason = .missingKey key offset := by
  cases found with
  | none => exact (Except.error.inj failed).symm
  | some value => cases failed

/-- Pairs are no entry because a key is missing behind the opening brace, or because the bounds are
inverted. -/
theorem blames_of_entry_error (opens : ⟨offset, .symbol '{'⟩ ∈ input)
    (failed : fields.entry offset = .error reason) : reason.Blames input := by
  unfold Fields.entry at failed
  rcases bind_eq_error_iff.mp failed with missing | ⟨start, _, failed⟩
  · rw [blames_of_require_error missing]
    exact opens
  rcases bind_eq_error_iff.mp failed with missing | ⟨stop, _, failed⟩
  · rw [blames_of_require_error missing]
    exact opens
  rcases bind_eq_error_iff.mp failed with missing | ⟨source, _, failed⟩
  · rw [blames_of_require_error missing]
    exact opens
  split at failed
  · cases failed
  · rename_i inverted
    cases failed
    exact Nat.lt_of_not_le inverted

theorem blames_of_readEntry_error (closed : Closed input)
    (failed : readEntry textEnd input = .error reason) : reason.Blames input := by
  unfold readEntry at failed
  split at failed
  · exact blames_of_entry_error (by simp) (map_eq_error_iff.mp failed)
  · have closedRest := closed.tail (not_closes_symbol (by decide))
    split at failed
    · rename_i refused
      cases failed
      exact (blames_of_readFields_error closedRest refused).mono (by simp)
    · exact blames_of_entry_error (by simp) (map_eq_error_iff.mp failed)
  · cases failed
    exact blames_unexpected closed

theorem closed_of_readEntry_ok (closed : Closed input)
    (ok : readEntry textEnd input = .ok (entry, behind)) : Closed behind ∧ behind ⊆ input := by
  unfold readEntry at ok
  split at ok
  · rw [← rest_eq_of_map ok]
    exact ⟨(closed.tail (not_closes_symbol (by decide))).tail (not_closes_symbol (by decide)),
      by simp⟩
  · have closedRest := closed.tail (not_closes_symbol (by decide))
    split at ok
    · cases ok
    · rename_i pairs
      rw [← rest_eq_of_map ok]
      rcases closed_of_readFields_ok closedRest pairs with ⟨closedBehind, part⟩
      exact ⟨closedBehind, fun t mem => by simp [part mem]⟩
  · cases ok

theorem blames_of_following_error (closed : Closed input)
    (failed : following textEnd input = .error reason) : reason.Blames input := by
  unfold following at failed
  split at failed
  · cases failed
  · cases failed
  · rename_i more
    cases failed
    exact (blames_unexpected (closed.of_cons more)).mono (by simp)
  · cases failed
    exact blames_unexpected closed

theorem closed_of_following_ok {next : List Placed} (closed : Closed input)
    (ok : following textEnd input = .ok (some next)) : Closed next ∧ next ⊆ input := by
  unfold following at ok
  split at ok
  · cases ok
    exact ⟨closed.tail (not_closes_symbol (by decide)), by simp⟩
  all_goals cases ok

/-- Reading entries fails at tokens of the input, or because two bounds are at odds.  The induction
is on the entries that are read, each from what is left behind the one in front of it. -/
theorem blames_of_readEntries_error (closed : Closed input)
    (failed : readEntries textEnd previousStop input = .error reason) : reason.Blames input := by
  fun_induction readEntries textEnd previousStop input with
  | case1 previousStop input reason' refused =>
    cases failed
    exact blames_of_readEntry_error closed refused
  | case2 previousStop input entry rest read early =>
    cases failed
    exact ⟨early, entry.start_le_stop⟩
  | case3 previousStop input entry rest read late reason' refused =>
    cases failed
    rcases closed_of_readEntry_ok closed read with ⟨closedRest, part⟩
    exact (blames_of_following_error closedRest refused).mono part
  | case4 => cases failed
  | case5 previousStop input entry rest read late next comma ih =>
    rcases closed_of_readEntry_ok closed read with ⟨closedRest, part⟩
    rcases closed_of_following_ok closedRest comma with ⟨closedNext, partNext⟩
    exact (ih closedNext (map_eq_error_iff.mp failed)).mono (List.Subset.trans partNext part)

/-! ## What a rejection says of a text -/

/-- What a rejection says is so: the character or the quote that it names stands at its offset, an
entry starts there, a value is no numeral, or two bounds are the wrong way round. -/
def Rejection.HoldsOf (chars : List Char) : Rejection → Prop
  | .unframed => ¬ Framed chars
  | .unexpectedEnd _ => False
  | .unexpectedCharacter found offset =>
    ∃ front back, chars = front ++ found :: back ∧ byteLength front = offset
  | .unterminatedString offset =>
    ∃ front quote back, chars = front ++ quote :: back ∧ byteLength front = offset ∧
      isQuote quote = true ∧ quote ∉ back
  | .invalidInteger key value =>
    (key = .start ∨ key = .stop) ∧ ¬ ∃ n, IsNumeral value.toList n
  | .missingKey _ offset => ∃ front back, chars = front ++ '{' :: back ∧ byteLength front = offset
  | .invertedRange start stop => stop < start
  | .overlapping start stop previousStop => start < previousStop ∧ start ≤ stop

theorem Rejection.Blames.holdsOf (blames : reason.Blames (tokens 0 chars)) :
    reason.HoldsOf chars := by
  cases reason with
  | unframed | unexpectedEnd => exact blames.elim
  | unexpectedCharacter found offset =>
    obtain ⟨t, mem, rfl, rfl⟩ := blames
    obtain ⟨front, back, same, place, -⟩ := standsIn_of_mem_tokens mem
    exact ⟨front, back, same, by rw [place, Nat.zero_add]⟩
  | unterminatedString offset =>
    obtain ⟨t, mem, ⟨quote, unclosed⟩, rfl⟩ := blames
    obtain ⟨front, back, same, place, alone⟩ := standsIn_of_mem_tokens mem
    rw [unclosed] at same
    exact ⟨front, quote, back, same, by rw [place, Nat.zero_add], alone quote unclosed⟩
  | missingKey key offset =>
    obtain ⟨front, back, same, place, -⟩ := standsIn_of_mem_tokens blames
    exact ⟨front, back, same, (place.trans (Nat.zero_add _)).symm⟩
  | invalidInteger | invertedRange | overlapping => exact blames

/-- A framed text is rejected for tokens of it. -/
theorem blames_of_read_error {text : String} (framed : isFramed text.toList = true)
    (rejected : read text = .error reason) : reason.Blames (tokens 0 text.toList) := by
  have closed := closed_tokens (endsClosed_of_isFramed framed) 0
  simp only [read, if_pos framed] at rejected
  generalize tokens 0 text.toList = input at closed rejected
  split at rejected
  · cases rejected
  · rename_i openAt closeAt rest more
    cases rejected
    have closedRest := (closed.tail (not_closes_symbol (by decide))).of_cons (by simpa using more)
    exact (blames_unexpected closedRest).mono fun t mem => by simp [mem]
  · have closedRest := closed.tail (not_closes_symbol (by decide))
    exact (blames_of_readEntries_error closedRest rejected).mono (by simp)
  · cases rejected
    exact blames_unexpected closed

/-- **Rejections are truthful.**  A text is rejected for its frame exactly if it has none, and
whatever it is rejected for holds of it.  It is never rejected for its end. -/
theorem holdsOf_of_read_error {text : String} (rejected : read text = .error reason) :
    (reason = .unframed ↔ ¬ Framed text.toList) ∧ reason.HoldsOf text.toList := by
  by_cases framed : isFramed text.toList = true
  · have blames := blames_of_read_error framed rejected
    refine ⟨⟨?_, fun unframed => absurd (isFramed_iff.mp framed) unframed⟩, blames.holdsOf⟩
    rintro rfl
    exact blames.elim
  · have unframed : ¬ Framed text.toList := fun frame => framed (isFramed_iff.mpr frame)
    simp only [read, if_neg framed] at rejected
    cases rejected
    exact ⟨⟨fun _ => unframed, fun _ => rfl⟩, unframed⟩

/-- The second quote has no partner: it takes in the brackets that end the text.  Its offset counts
bytes, two of them for the letter between the first quotes. -/
theorem holdsOf_of_read_error_unclosed :
    ∃ text reason, text = "[\x7bsource:'é',end:\"9\x7d]" ∧ reason = .unterminatedString 18 ∧
      read text = .error reason ∧ (reason = .unframed ↔ ¬ Framed text.toList) ∧
      reason.HoldsOf text.toList := by
  obtain ⟨text, same⟩ : ∃ text, text = "[\x7bsource:'é',end:\"9\x7d]" := ⟨_, rfl⟩
  have rejected : (match read text with | .error reason => some reason | .ok _ => none) =
      some (.unterminatedString 18) := by
    rw [same]
    decide +kernel
  cases found : read text with
  | ok entries =>
    rw [found] at rejected
    cases rejected
  | error reason =>
    rw [found] at rejected
    exact ⟨text, reason, same, Option.some.inj rejected, found, holdsOf_of_read_error found⟩

end TextProvenance.Listing
