import TextProvenance.Proofs.Listing.Meaning
import TextProvenance.Proofs.Listing.Token

/-!
# The grammar of listings

`IsListing` says which characters are a listing, and of which entries, as a grammar over characters:
blanks may stand between all of its parts, and only there.  The reader, which works on tokens,
accepts exactly the listings (`read_eq_ok_iff`).

For every part of the grammar there are two lemmas.  One says that the reader accepts the part and
goes on behind it; it is an induction on the grammar.  The other says that what the reader has
accepted is such a part; it is an induction on the reader's recursion.
-/

namespace TextProvenance.Listing

open Utf8 (byteLength)

variable {chars spelled rest blanks value : List Char} {pair : Pair} {pairs : List Pair}
  {entry : Entry} {entries : List Entry} {token : Token} {others : List Placed} {c : Char}
  {offset start textEnd previousStop : Nat} {fields fields' : Fields}

/-! ## The grammar -/

/-- A value: a word, or a text between quotes that has no such quote inside. -/
inductive IsValue : List Char → List Char → Prop
  | word {word : List Char} (isWord : IsWord word) : IsValue word word
  | quoted {quote : Char} {content : List Char} (isQuote : isQuote quote = true)
    (closed : quote ∉ content) : IsValue (quote :: (content ++ [quote])) content

/-- A key and its value, with a colon between them. -/
inductive IsPair : List Char → Pair → Prop
  | mk {key front back spelled value : List Char} (isWord : IsWord key) (blankFront : Blanks front)
    (blankBack : Blanks back) (isValue : IsValue spelled value) :
    IsPair (key ++ (front ++ ':' :: (back ++ spelled))) ⟨key, value⟩

/-- One or more items with commas between them. -/
inductive Series {α : Type} (Item : List Char → α → Prop) : List Char → List α → Prop
  | last {chars : List Char} {item : α} (isItem : Item chars item) : Series Item chars [item]
  | next {chars front back others : List Char} {item : α} {items : List α}
    (isItem : Item chars item) (blankFront : Blanks front) (blankBack : Blanks back)
    (series : Series Item others items) :
    Series Item (chars ++ (front ++ ',' :: (back ++ others))) (item :: items)

/-- An entry: pairs between braces. -/
inductive IsEntry : List Char → Entry → Prop
  | mk {front inner back : List Char} {pairs : List Pair} {entry : Entry}
    (blankFront : Blanks front) (series : Series IsPair inner pairs) (blankBack : Blanks back)
    (means : Means pairs entry) : IsEntry ('{' :: (front ++ (inner ++ (back ++ ['}'])))) entry

/-- No entry starts before `previousStop`, or before the entry in front of it stops. -/
def Ascending (previousStop : Nat) : List Entry → Prop
  | [] => True
  | entry :: entries => previousStop ≤ entry.start ∧ Ascending entry.stop entries

/-- A listing: entries between brackets, or nothing between them. -/
inductive IsListing : List Char → List Entry → Prop
  | empty {front inner back : List Char} (blankFront : Blanks front) (blankInner : Blanks inner)
    (blankBack : Blanks back) : IsListing (front ++ '[' :: (inner ++ ']' :: back)) []
  | filled {front innerFront inner innerBack back : List Char} {entries : List Entry}
    (blankFront : Blanks front) (blankInnerFront : Blanks innerFront)
    (series : Series IsEntry inner entries) (blankInnerBack : Blanks innerBack)
    (blankBack : Blanks back) (ascending : Ascending 0 entries) :
    IsListing (front ++ '[' :: (innerFront ++ (inner ++ (innerBack ++ ']' :: back)))) entries

theorem IsListing.ascending (isListing : IsListing chars entries) : Ascending 0 entries := by
  cases isListing with
  | empty => trivial
  | filled _ _ _ _ _ ascending => exact ascending

/-! ## Words, values and symbols -/

theorem tokens_symbol (blank : Blanks blanks) (symbol : IsSymbol c) (rest : List Char)
    (offset : Nat) :
    ∃ start stop, tokens offset (blanks ++ c :: rest) = ⟨start, .symbol c⟩ :: tokens stop rest :=
  ⟨_, _, (tokens_blanks blank _ offset).trans (tokens_spelled (.symbol symbol) rest nofun _)⟩

theorem exists_of_tokens_symbol (found : tokens offset chars = ⟨start, .symbol c⟩ :: others) :
    ∃ blanks rest stop, Blanks blanks ∧ chars = blanks ++ c :: rest ∧
      tokens stop rest = others := by
  rcases exists_spelled found nofun with ⟨blanks, _, rest, blank, spells, same, -, following⟩
  cases spells
  exact ⟨blanks, rest, _, blank, same, following.symm⟩

theorem exists_of_tokens_word {first : Char} {more : List Char}
    (found : tokens offset chars = ⟨start, .word first more⟩ :: others) :
    ∃ blanks rest stop, Blanks blanks ∧ IsWord (first :: more) ∧
      chars = blanks ++ (first :: more ++ rest) ∧ tokens stop rest = others := by
  rcases exists_spelled found nofun with ⟨blanks, _, rest, blank, spells, same, -, following⟩
  cases spells with
  | word isWord => exact ⟨blanks, rest, _, blank, isWord, same, following.symm⟩

theorem tokens_value (isValue : IsValue spelled value) (apart : Apart rest) (offset : Nat) :
    ∃ token stop, tokens offset (spelled ++ rest) = ⟨offset, token⟩ :: tokens stop rest ∧
      readValue ⟨offset, token⟩ = .ok value := by
  cases isValue with
  | word isWord =>
    cases spelled with
    | nil => exact absurd rfl isWord.1
    | cons first more =>
      exact ⟨_, _, tokens_spelled (.word isWord) rest (fun _ _ _ => apart) offset, rfl⟩
  | quoted isQuote closed =>
    exact ⟨_, _, tokens_spelled (.quoted isQuote closed) rest nofun offset, rfl⟩

theorem exists_of_readValue (found : tokens offset chars = ⟨start, token⟩ :: others)
    (ok : readValue ⟨start, token⟩ = .ok value) :
    ∃ blanks spelled rest stop, Blanks blanks ∧ IsValue spelled value ∧
      chars = blanks ++ (spelled ++ rest) ∧ tokens stop rest = others := by
  have closed : ∀ quote, token ≠ .unclosed quote := by
    rintro quote rfl
    cases ok
  rcases exists_spelled found closed with
    ⟨blanks, spelled, rest, blank, spells, same, -, following⟩
  refine ⟨blanks, spelled, rest, _, blank, ?_, same, following.symm⟩
  cases spells with
  | word isWord =>
    cases ok
    exact .word isWord
  | quoted isQuote closedContent =>
    cases ok
    exact .quoted isQuote closedContent
  | symbol => cases ok

/-! ## Pairs -/

theorem tokens_pair (isPair : IsPair spelled pair) (apart : Apart rest) (offset : Nat) :
    ∃ first more colon placed stop, pair.key = first :: more ∧
      tokens offset (spelled ++ rest) =
        ⟨offset, .word first more⟩ :: ⟨colon, .symbol ':'⟩ :: placed :: tokens stop rest ∧
      readValue placed = .ok pair.value := by
  cases isPair with
  | @mk key front back spelled value isWord blankFront blankBack isValue =>
    cases key with
    | nil => exact absurd rfl isWord.1
    | cons first more =>
      have colon : IsSymbol ':' := by decide
      have word := tokens_spelled (.word isWord) (front ++ ':' :: (back ++ (spelled ++ rest)))
        (fun _ _ _ => apart_blanks blankFront colon _) offset
      obtain ⟨colonAt, colonStop, symbol⟩ := tokens_symbol blankFront colon
        (back ++ (spelled ++ rest)) (offset + byteLength (first :: more))
      obtain ⟨token, stop, token', read⟩ := tokens_value isValue apart (colonStop + byteLength back)
      refine ⟨first, more, colonAt, _, stop, rfl, ?_, read⟩
      simp only [List.append_assoc, List.cons_append] at word ⊢
      rw [word, symbol, tokens_blanks blankBack, token']

theorem exists_of_readPair {first : Char} {more : List Char} {colon : Nat} {placed : Placed}
    (found : tokens offset chars =
      ⟨start, .word first more⟩ :: ⟨colon, .symbol ':'⟩ :: placed :: others)
    (ok : readValue placed >>= fields.set (first :: more) = .ok fields') :
    ∃ front spelled rest stop pair, Blanks front ∧ IsPair spelled pair ∧
      chars = front ++ (spelled ++ rest) ∧ tokens stop rest = others ∧
      fields.set pair.key pair.value = .ok fields' := by
  rcases bind_eq_ok_iff.mp ok with ⟨value, read, set⟩
  rcases exists_of_tokens_word found with ⟨front, _, _, blankFront, isWord, rfl, afterKey⟩
  rcases exists_of_tokens_symbol afterKey with ⟨before, _, _, blankBefore, rfl, afterColon⟩
  rcases exists_of_readValue afterColon read with
    ⟨behind, spelled, rest, stop, blankBehind, isValue, rfl, afterValue⟩
  refine ⟨front, _, rest, stop, ⟨first :: more, value⟩, blankFront,
    .mk isWord blankBefore blankBehind isValue, ?_, afterValue, set⟩
  simp only [List.append_assoc, List.cons_append]

section ReadFields

variable {first : Char} {more : List Char} {keyAt colonAt symbolAt : Nat} {placed : Placed}

theorem readFields_comma (read : readValue placed = .ok value)
    (set : fields.set (first :: more) value = .ok fields') :
    readFields textEnd fields (⟨keyAt, .word first more⟩ :: ⟨colonAt, .symbol ':'⟩ :: placed ::
      ⟨symbolAt, .symbol ','⟩ :: others) = readFields textEnd fields' others := by
  simp only [readFields, read, bind, Except.bind, set]

theorem readFields_brace (read : readValue placed = .ok value)
    (set : fields.set (first :: more) value = .ok fields') :
    readFields textEnd fields (⟨keyAt, .word first more⟩ :: ⟨colonAt, .symbol ':'⟩ :: placed ::
      ⟨symbolAt, .symbol '}'⟩ :: others) = .ok (fields', others) := by
  simp only [readFields, read, bind, Except.bind, set]

end ReadFields

/-- Reading the pairs of an entry goes on behind the closing brace. -/
theorem readFields_of_series (textEnd : Nat) (series : Series IsPair spelled pairs)
    (blank : Blanks blanks) (ok : fields.noteAll pairs = .ok fields') (rest : List Char)
    (offset : Nat) :
    ∃ stop, readFields textEnd fields (tokens offset (spelled ++ (blanks ++ '}' :: rest))) =
      .ok (fields', tokens stop rest) := by
  induction series generalizing fields offset with
  | @last chars pair isPair =>
    rcases noteAll_cons_eq_ok_iff.mp ok with ⟨middle, set, same⟩
    cases same
    have brace : IsSymbol '}' := by decide
    obtain ⟨first, more, colon, placed, stop, key, found, read⟩ :=
      tokens_pair isPair (apart_blanks blank brace rest) offset
    obtain ⟨start, stop, symbol⟩ := tokens_symbol blank brace rest stop
    rw [key] at set
    exact ⟨stop, by rw [found, symbol, readFields_brace read set]⟩
  | @next chars front back others pair pairs isPair blankFront blankBack series ih =>
    rcases noteAll_cons_eq_ok_iff.mp ok with ⟨middle, set, ok⟩
    have comma : IsSymbol ',' := by decide
    obtain ⟨first, more, colon, placed, stop, key, found, read⟩ := tokens_pair isPair
      (apart_blanks blankFront comma (back ++ (others ++ (blanks ++ '}' :: rest)))) offset
    obtain ⟨start, stop, symbol⟩ :=
      tokens_symbol blankFront comma (back ++ (others ++ (blanks ++ '}' :: rest))) stop
    obtain ⟨last, readOthers⟩ := ih ok (stop + byteLength back)
    rw [key] at set
    refine ⟨last, ?_⟩
    simp only [List.append_assoc, List.cons_append]
    rw [found, symbol, readFields_comma read set, tokens_blanks blankBack, readOthers]

theorem exists_of_readFields
    (ok : readFields textEnd fields (tokens offset chars) = .ok (fields', others)) :
    ∃ front spelled back rest stop pairs, Blanks front ∧ Series IsPair spelled pairs ∧
      Blanks back ∧ chars = front ++ (spelled ++ (back ++ '}' :: rest)) ∧
      tokens stop rest = others ∧ fields.noteAll pairs = .ok fields' := by
  generalize found : tokens offset chars = input at ok
  fun_induction readFields textEnd fields input generalizing offset chars with
  | case2 fields keyAt first more colonAt placed middle noted symbolAt input ih =>
    rcases exists_of_readPair found noted with
      ⟨front, _, _, _, pair, blankFront, isPair, rfl, afterPair, set⟩
    rcases exists_of_tokens_symbol afterPair with ⟨before, _, _, blankBefore, rfl, afterComma⟩
    rcases ih afterComma ok with
      ⟨behind, _, back, rest, stop, pairs, blankBehind, series, blankBack, rfl, afterBrace, others⟩
    refine ⟨front, _, back, rest, stop, pair :: pairs, blankFront,
      .next isPair blankBefore blankBehind series, blankBack, ?_, afterBrace,
      noteAll_cons_eq_ok_iff.mpr ⟨middle, set, others⟩⟩
    simp only [List.append_assoc, List.cons_append]
  | case3 fields keyAt first more colonAt placed middle noted symbolAt input =>
    rcases exists_of_readPair found noted with
      ⟨front, spelled, _, _, pair, blankFront, isPair, rfl, afterPair, set⟩
    rcases exists_of_tokens_symbol afterPair with ⟨back, rest, stop, blankBack, rfl, afterBrace⟩
    cases ok
    exact ⟨front, spelled, back, rest, stop, [pair], blankFront, .last isPair, blankBack, rfl,
      afterBrace, noteAll_cons_eq_ok_iff.mpr ⟨_, set, rfl⟩⟩
  | case1 | case4 | case5 | case6 | case7 => cases ok

/-! ## Entries -/

theorem readEntry_of_readFields {behind : List Placed}
    (ok : readFields textEnd {} others = .ok (fields, behind)) :
    readEntry textEnd (⟨start, .symbol '{'⟩ :: others) = (·, behind) <$> fields.entry start := by
  unfold readEntry
  split
  · rename_i same
    cases same
    cases ok
  · rename_i same
    cases same
    rw [ok]
  · rename_i notBrace
    exact absurd rfl (notBrace start others)

/-- Reading an entry goes on behind it. -/
theorem readEntry_of_isEntry (textEnd : Nat) (isEntry : IsEntry spelled entry) (rest : List Char)
    (offset : Nat) :
    ∃ stop, readEntry textEnd (tokens offset (spelled ++ rest)) =
      .ok (entry, tokens stop rest) := by
  cases isEntry with
  | @mk front inner back pairs entry blankFront series blankBack means =>
    have brace : IsSymbol '{' := by decide
    obtain ⟨start, stop, symbol⟩ :=
      tokens_symbol blanks_nil brace (front ++ (inner ++ (back ++ '}' :: rest))) offset
    obtain ⟨fields, noted, made⟩ := (noteAll_entry_iff start).mpr means
    obtain ⟨last, read⟩ := readFields_of_series textEnd series blankBack noted rest
      (stop + byteLength front)
    refine ⟨last, ?_⟩
    simp only [List.append_assoc, List.cons_append, List.nil_append] at symbol ⊢
    rw [symbol, tokens_blanks blankFront, readEntry_of_readFields read, made]
    rfl

theorem exists_of_readEntry
    (ok : readEntry textEnd (tokens offset chars) = .ok (entry, others)) :
    ∃ front spelled rest stop, Blanks front ∧ IsEntry spelled entry ∧
      chars = front ++ (spelled ++ rest) ∧ tokens stop rest = others := by
  generalize found : tokens offset chars = input at ok
  unfold readEntry at ok
  split at ok
  · cases ok
  · rename_i start input _
    split at ok
    · cases ok
    · rename_i fields behind read
      rcases exists_of_tokens_symbol found with ⟨front, _, _, blankFront, rfl, rfl⟩
      rcases exists_of_readFields read with
        ⟨inside, inner, back, rest, stop, pairs, blankInside, series, blankBack, rfl, rfl, noted⟩
      rcases map_eq_ok_iff.mp ok with ⟨_, made, same⟩
      cases same
      have means := (noteAll_entry_iff start).mp ⟨fields, noted, made⟩
      refine ⟨front, _, rest, stop, blankFront, .mk blankInside series blankBack means, ?_, rfl⟩
      simp only [List.append_assoc, List.cons_append, List.nil_append]
  · cases ok

theorem following_eq_some {next : List Placed} (ok : following textEnd others = .ok (some next)) :
    ∃ start, others = ⟨start, .symbol ','⟩ :: next := by
  unfold following at ok
  split at ok
  · cases ok
    exact ⟨_, rfl⟩
  all_goals cases ok

theorem following_eq_none (ok : following textEnd others = .ok none) :
    ∃ start, others = [⟨start, .symbol ']'⟩] := by
  unfold following at ok
  split at ok
  · cases ok
  · exact ⟨_, rfl⟩
  all_goals cases ok

/-- What reading entries does: it reads one, and then others if a comma follows. -/
theorem readEntries_eq_ok_iff :
    readEntries textEnd previousStop others = .ok entries ↔
      ∃ entry rest, readEntry textEnd others = .ok (entry, rest) ∧ previousStop ≤ entry.start ∧
        (following textEnd rest = .ok none ∧ entries = [entry] ∨
          ∃ next entries', following textEnd rest = .ok (some next) ∧
            readEntries textEnd entry.stop next = .ok entries' ∧ entries = entry :: entries') := by
  constructor
  · intro ok
    rw [readEntries] at ok
    split at ok
    · cases ok
    · rename_i entry rest first
      split at ok
      · cases ok
      · rename_i late
        split at ok
        · cases ok
        · rename_i final
          cases ok
          exact ⟨entry, rest, first, Nat.le_of_not_lt late, .inl ⟨final, rfl⟩⟩
        · rename_i next comma
          rcases map_eq_ok_iff.mp ok with ⟨entries', others, same⟩
          exact ⟨entry, rest, first, Nat.le_of_not_lt late,
            .inr ⟨next, entries', comma, others, same.symm⟩⟩
  · rintro ⟨entry, rest, first, late, continues⟩
    rw [readEntries]
    split
    · rename_i failed
      cases first.symm.trans failed
    · rename_i read
      cases first.symm.trans read
      rw [if_neg (Nat.not_lt_of_le late)]
      rcases continues with ⟨final, rfl⟩ | ⟨next, entries', comma, others, rfl⟩
      · split
        · rename_i failed
          cases final.symm.trans failed
        · rfl
        · rename_i comma
          cases final.symm.trans comma
      · split
        · rename_i failed
          cases comma.symm.trans failed
        · rename_i final
          cases comma.symm.trans final
        · rename_i found
          cases comma.symm.trans found
          rw [others]
          rfl

/-- No entry starts with a closing bracket. -/
theorem readEntries_bracket_ne_ok :
    readEntries textEnd previousStop (⟨start, .symbol ']'⟩ :: others) ≠ .ok entries := by
  intro ok
  rcases readEntries_eq_ok_iff.mp ok with ⟨_, _, read, _⟩
  cases read

/-- Reading the entries of a series ends with the closing bracket. -/
theorem readEntries_of_series {final : List Char} (textEnd : Nat)
    (series : Series IsEntry spelled entries) (ascending : Ascending previousStop entries)
    (blank : Blanks blanks) (blankFinal : Blanks final) (offset : Nat) :
    readEntries textEnd previousStop (tokens offset (spelled ++ (blanks ++ ']' :: final))) =
      .ok entries := by
  induction series generalizing previousStop offset with
  | @last chars entry isEntry =>
    have bracket : IsSymbol ']' := by decide
    obtain ⟨behind, read⟩ :=
      readEntry_of_isEntry textEnd isEntry (blanks ++ ']' :: final) offset
    obtain ⟨start, stop, symbol⟩ := tokens_symbol blank bracket final behind
    rw [symbol, tokens_nil blankFinal] at read
    exact readEntries_eq_ok_iff.mpr ⟨entry, _, read, ascending.1, .inl ⟨rfl, rfl⟩⟩
  | @next chars front back others entry entries isEntry blankFront blankBack series ih =>
    have comma : IsSymbol ',' := by decide
    obtain ⟨behind, read⟩ := readEntry_of_isEntry textEnd isEntry
      (front ++ ',' :: (back ++ (others ++ (blanks ++ ']' :: final)))) offset
    obtain ⟨start, stop, symbol⟩ :=
      tokens_symbol blankFront comma (back ++ (others ++ (blanks ++ ']' :: final))) behind
    rw [symbol, tokens_blanks blankBack] at read
    simp only [List.append_assoc, List.cons_append]
    exact readEntries_eq_ok_iff.mpr ⟨entry, _, read, ascending.1,
      .inr ⟨_, entries, rfl, ih ascending.2 _, rfl⟩⟩

theorem exists_of_readEntries
    (ok : readEntries textEnd previousStop (tokens offset chars) = .ok entries) :
    ∃ front spelled back final, Blanks front ∧ Series IsEntry spelled entries ∧ Blanks back ∧
      Blanks final ∧ chars = front ++ (spelled ++ (back ++ ']' :: final)) ∧
      Ascending previousStop entries := by
  induction entries generalizing previousStop offset chars with
  | nil =>
    rcases readEntries_eq_ok_iff.mp ok with ⟨_, _, _, _, ⟨_, same⟩ | ⟨_, _, _, _, same⟩⟩
    · cases same
    · cases same
  | cons entry entries ih =>
    rcases readEntries_eq_ok_iff.mp ok with ⟨first, _, read, late, continues⟩
    rcases exists_of_readEntry read with ⟨front, item, rest, stop, blankFront, isEntry, rfl, rfl⟩
    rcases continues with ⟨closed, same⟩ | ⟨next, entries', comma, others, same⟩
    · cases same
      rcases following_eq_none closed with ⟨start, bracket⟩
      rcases exists_of_tokens_symbol bracket with ⟨back, final, _, blankBack, rfl, nothing⟩
      exact ⟨front, item, back, final, blankFront, .last isEntry, blankBack,
        blanks_of_tokens_eq_nil nothing, rfl, late, trivial⟩
    · cases same
      rcases following_eq_some comma with ⟨start, symbol⟩
      rcases exists_of_tokens_symbol symbol with ⟨before, _, _, blankBefore, rfl, rfl⟩
      rcases ih others with
        ⟨behind, spelled, back, final, blankBehind, series, blankBack, blankFinal, rfl, ascending⟩
      refine ⟨front, _, back, final, blankFront, .next isEntry blankBefore blankBehind series,
        blankBack, blankFinal, ?_, late, ascending⟩
      simp only [List.append_assoc, List.cons_append]

/-! ## Listings -/

theorem head?_dropWhile_blanks (blank : Blanks blanks) (symbol : IsSymbol c) :
    ((blanks ++ c :: rest).dropWhile Unicode.isBlank).head? = some c := by
  have stops : ∀ d ∈ (c :: rest).head?, Unicode.isBlank d = false := fun _ atHead =>
    Option.some.inj atHead ▸ symbol.1
  rw [(takeWhile_append_apart blank stops).2, List.head?_cons]

theorem isFramed_of_brackets {front inner back : List Char} (blankFront : Blanks front)
    (blankBack : Blanks back) : isFramed (front ++ '[' :: (inner ++ ']' :: back)) = true := by
  have opens : IsSymbol '[' := by decide
  have closes : IsSymbol ']' := by decide
  have blankReverse : Blanks back.reverse := fun c mem => blankBack c (List.mem_reverse.mp mem)
  have reverse : (front ++ '[' :: (inner ++ ']' :: back)).reverse =
      back.reverse ++ ']' :: (front ++ '[' :: inner).reverse := by
    simp only [List.reverse_append, List.reverse_cons, List.append_assoc, List.cons_append,
      List.nil_append]
  rw [isFramed, reverse, head?_dropWhile_blanks blankFront opens,
    head?_dropWhile_blanks blankReverse closes]
  rfl

/-- After the opening bracket, entries are read if there are any: a closing bracket would not be
one. -/
theorem read_of_opening {text : String} (framed : isFramed text.toList = true)
    (opening : tokens 0 text.toList = ⟨start, .symbol '['⟩ :: others)
    (ok : readEntries (byteLength text.toList) 0 others = .ok entries) :
    read text = .ok entries := by
  simp only [read]
  rw [if_pos framed, opening]
  split
  · rename_i same
    cases same
    exact absurd ok readEntries_bracket_ne_ok
  · rename_i same
    cases same
    exact absurd ok readEntries_bracket_ne_ok
  · rename_i same
    cases same
    exact ok
  · rename_i opened
    exact absurd rfl (opened start others)

theorem read_of_isListing {text : String} (isListing : IsListing text.toList entries) :
    read text = .ok entries := by
  have opens : IsSymbol '[' := by decide
  have closes : IsSymbol ']' := by decide
  generalize same : text.toList = chars at isListing
  cases isListing with
  | @empty front inner back blankFront blankInner blankBack =>
    obtain ⟨first, behind, opening⟩ := tokens_symbol blankFront opens (inner ++ ']' :: back) 0
    obtain ⟨second, last, closing⟩ := tokens_symbol blankInner closes back behind
    simp only [read, same]
    rw [if_pos (isFramed_of_brackets blankFront blankBack), opening, closing, tokens_nil blankBack]
    rfl
  | @filled front innerFront inner innerBack back entries blankFront blankInnerFront series
      blankInnerBack blankBack ascending =>
    have framed : isFramed
        (front ++ '[' :: (innerFront ++ (inner ++ (innerBack ++ ']' :: back)))) = true := by
      rw [← List.append_assoc inner, ← List.append_assoc innerFront]
      exact isFramed_of_brackets blankFront blankBack
    obtain ⟨first, behind, opening⟩ := tokens_symbol blankFront opens
      (innerFront ++ (inner ++ (innerBack ++ ']' :: back))) 0
    rw [tokens_blanks blankInnerFront] at opening
    exact read_of_opening (same ▸ framed) (same ▸ opening)
      (readEntries_of_series _ series ascending blankInnerBack blankBack _)

theorem isListing_of_read {text : String} (ok : read text = .ok entries) :
    IsListing text.toList entries := by
  simp only [read] at ok
  split at ok
  · split at ok
    · rename_i found
      cases ok
      rcases exists_of_tokens_symbol found with ⟨front, _, _, blankFront, same, closing⟩
      rcases exists_of_tokens_symbol closing with ⟨inner, back, _, blankInner, rfl, nothing⟩
      rw [same]
      exact .empty blankFront blankInner (blanks_of_tokens_eq_nil nothing)
    · cases ok
    · rename_i found
      rcases exists_of_tokens_symbol found with ⟨front, _, _, blankFront, same, rfl⟩
      rcases exists_of_readEntries ok with ⟨innerFront, inner, innerBack, back, blankInnerFront,
        series, blankInnerBack, blankBack, rfl, ascending⟩
      rw [same]
      exact .filled blankFront blankInnerFront series blankInnerBack blankBack ascending
    · cases ok
  · cases ok

/-- The reader accepts the listings, and finds their entries. -/
theorem read_eq_ok_iff {text : String} :
    read text = .ok entries ↔ IsListing text.toList entries :=
  ⟨isListing_of_read, read_of_isListing⟩

end TextProvenance.Listing
