import Mathlib.Data.List.TakeWhile
import TextProvenance.Listing.Cursor
import TextProvenance.Proofs.Listing.Decode
import TextProvenance.Proofs.Listing.Token

/-!
# Decoding never crashes

The decoder with a cursor (`Cursor.decode`) ends for every text as a session that decodes it, and
never with a crash (`Cursor.decode_never_crashes`).

The proof follows the reader on tokens, function by function.  `At` says where the cursor stands in
the characters, always between two of them; `Before` and `Faces` say in front of which tokens that
is, before and after blanks have been skipped.  For each part of a listing there is a lemma for what
the decoder does in front of it, and one for what it does where the part is missing.
-/

namespace TextProvenance.Listing.Cursor

open Utf8 (byteLength)

variable {α β σ : Type} {text chars spelled rest : List Char} {c : Char} {offset next : Nat}
  {input others behind : List Placed} {stop : Stop} {reason : Rejection}

/-! ## Running a scan -/

section Scan

variable {scan : Scan α} {f : α → Scan β} {a : α}

theorem bind_of_ok (ran : scan offset = .ok (a, next)) : (scan >>= f) offset = f a next := by
  simp only [bind, StateT.bind, ran, Except.bind]

theorem bind_of_error (failed : scan offset = .error stop) :
    (scan >>= f) offset = .error stop := by
  simp only [bind, StateT.bind, failed, Except.bind]

theorem get_bind (f : Nat → Scan β) : ((get : Scan Nat) >>= f) offset = f offset offset := rfl

theorem ofRead_ok (offset : Nat) : ofRead (.ok a) offset = .ok (a, offset) := rfl

end Scan

section Loop

variable {round : σ → Scan (σ ⊕ α)} {state state' : σ} {result : α}

theorem loop_next (ran : round state offset = .ok (.inl state', next)) (moves : offset < next)
    (inside : next ≤ byteLength text) :
    loop text round state offset = loop text round state' next := by
  rw [loop, ran]
  exact if_pos ⟨moves, inside⟩

theorem loop_done (ran : round state offset = .ok (.inr result, next)) (moves : offset < next)
    (inside : next ≤ byteLength text) :
    loop text round state offset = .ok (result, next) := by
  rw [loop, ran]
  exact if_pos ⟨moves, inside⟩

theorem loop_error (failed : round state offset = .error stop) :
    loop text round state offset = .error stop := by
  rw [loop, failed]

end Loop

/-! ## Where the cursor stands -/

/-- The cursor stands between two characters, in front of those that are left. -/
def At (text : List Char) (offset : Nat) (rest : List Char) : Prop :=
  ∃ front, text = front ++ rest ∧ byteLength front = offset

theorem at_zero (text : List Char) : At text 0 text := ⟨[], rfl, rfl⟩

theorem At.forward (stands : At text offset (spelled ++ rest)) :
    At text (offset + byteLength spelled) rest := by
  obtain ⟨front, rfl, rfl⟩ := stands
  exact ⟨front ++ spelled, (List.append_assoc ..).symm, Utf8.byteLength_append ..⟩

theorem At.step (stands : At text offset (c :: rest)) : At text (offset + c.utf8Size) rest := by
  have first : At text offset ([c] ++ rest) := stands
  exact first.forward

theorem At.textEnd (stands : At text offset rest) : byteLength text = offset + byteLength rest := by
  obtain ⟨front, rfl, rfl⟩ := stands
  exact Utf8.byteLength_append ..

theorem At.inside (stands : At text offset rest) : offset ≤ byteLength text :=
  stands.textEnd ▸ Nat.le_add_right ..

theorem At.slice (stands : At text offset (spelled ++ rest)) (position : Nat) :
    slice text offset (offset + byteLength spelled) position = .ok (spelled, position) := by
  obtain ⟨front, same, length⟩ := stands
  have cut : Utf8.cut? offset (offset + byteLength spelled) text = some ⟨front, spelled, rest⟩ :=
    Utf8.cut?_eq_some_iff.mpr ⟨Nat.le_add_right .., same, length, by simp⟩
  rw [Cursor.slice, cut]
  rfl

theorem At.slice_textEnd (stands : At text offset rest) (position : Nat) :
    Cursor.slice text offset (byteLength text) position = .ok (rest, position) := by
  have whole : At text offset (rest ++ []) := by rwa [List.append_nil]
  rw [stands.textEnd]
  exact whole.slice position

theorem At.moveTo (stands : At text offset rest) (position : Nat) :
    moveTo text offset position = .ok ((), offset) := by
  rw [Cursor.moveTo, if_pos stands.inside]
  rfl

theorem At.peek (stands : At text offset rest) : peek text offset = .ok (rest.head?, offset) := by
  rw [Cursor.peek, get_bind, bind_of_ok (stands.slice_textEnd offset)]
  rfl

theorem At.bump (stands : At text offset (c :: rest)) :
    bump text offset = .ok (some c, offset + c.utf8Size) := by
  rw [Cursor.bump, bind_of_ok stands.peek]
  simp only [List.head?_cons]
  rw [get_bind, bind_of_ok (stands.step.moveTo offset)]
  rfl

theorem At.bump_nil (stands : At text offset []) :
    Cursor.bump text offset = .ok (none, offset) := by
  rw [Cursor.bump, bind_of_ok stands.peek]
  rfl

theorem At.takeOne (stands : At text offset (c :: rest)) (p : Char → Bool) :
    takeOne text p () offset =
      .ok (if rest.head?.any p then .inl () else .inr (), offset + c.utf8Size) := by
  rw [Cursor.takeOne, bind_of_ok stands.bump, bind_of_ok stands.step.peek]
  rfl

/-- The loop takes the characters of the kind, and stops in front of the first other one.  The
induction is on the characters that are left; each round takes one. -/
theorem At.loop_takeOne (stands : At text offset (c :: rest)) (p : Char → Bool) :
    loop text (Cursor.takeOne text p) () offset =
      .ok ((), offset + byteLength (c :: rest.takeWhile p)) := by
  have one := stands.takeOne p
  have moves : offset < offset + c.utf8Size := Nat.lt_add_of_pos_right c.utf8Size_pos
  induction rest generalizing c offset with
  | nil => exact loop_done one moves stands.step.inside
  | cons d rest ih =>
    by_cases kind : p d = true
    · rw [List.head?_cons, Option.any_some, if_pos kind] at one
      rw [loop_next one moves stands.step.inside, ih stands.step (stands.step.takeOne p)
        (Nat.lt_add_of_pos_right d.utf8Size_pos), List.takeWhile_cons_of_pos kind, Nat.add_assoc]
      rfl
    · rw [List.head?_cons, Option.any_some, if_neg kind] at one
      rw [loop_done one moves stands.step.inside, List.takeWhile_cons_of_neg kind]
      rfl

theorem At.skipWhile (stands : At text offset rest) (p : Char → Bool) :
    skipWhile text p offset = .ok ((), offset + byteLength (rest.takeWhile p)) := by
  rw [Cursor.skipWhile, bind_of_ok stands.peek]
  cases rest with
  | nil => rfl
  | cons c rest =>
    rw [List.head?_cons, Option.any_some]
    by_cases kind : p c = true
    · rw [if_pos kind, stands.loop_takeOne p, List.takeWhile_cons_of_pos kind]
    · rw [if_neg kind, List.takeWhile_cons_of_neg kind]
      rfl

theorem At.behind_takeWhile (stands : At text offset rest) (p : Char → Bool) :
    At text (offset + byteLength (rest.takeWhile p)) (rest.dropWhile p) :=
  At.forward (by rwa [List.takeWhile_append_dropWhile])

/-! ## Cursors and tokens -/

/-- The tokens of what is left are `input`. -/
def Before (text : List Char) (offset : Nat) (input : List Placed) : Prop :=
  ∃ rest, At text offset rest ∧ tokens offset rest = input

/-- The first character that is left is no blank.  The tokens are those that it makes together with
the others. -/
inductive Starts (offset : Nat) : List Char → List Placed → Prop
  | nothing : Starts offset [] []
  | word {c : Char} {rest : List Char} (word : isWordCharacter c = true) :
    Starts offset (c :: rest) (⟨offset, .word c (rest.takeWhile isWordCharacter)⟩ ::
      tokens (offset + byteLength (c :: rest.takeWhile isWordCharacter))
        (rest.dropWhile isWordCharacter))
  | quoted {quote : Char} {content rest : List Char} (isQuote : isQuote quote = true)
    (closed : quote ∉ content) :
    Starts offset (quote :: (content ++ quote :: rest)) (⟨offset, .quoted quote content⟩ ::
      tokens (offset + byteLength (quote :: content) + quote.utf8Size) rest)
  | unclosed {quote : Char} {rest : List Char} (isQuote : isQuote quote = true)
    (alone : quote ∉ rest) : Starts offset (quote :: rest) [⟨offset, .unclosed quote⟩]
  | symbol {c : Char} {rest : List Char} (isSymbol : IsSymbol c) :
    Starts offset (c :: rest) (⟨offset, .symbol c⟩ :: tokens (offset + c.utf8Size) rest)

theorem starts_tokens (settled : ∀ c ∈ rest.head?, Unicode.isBlank c = false) (offset : Nat) :
    Starts offset rest (tokens offset rest) := by
  cases rest with
  | nil => simpa [tokens] using Starts.nothing
  | cons c rest =>
    have notBlank := settled c rfl
    rw [tokens, if_neg (by simp [notBlank])]
    by_cases word : isWordCharacter c = true
    · rw [if_pos word]
      exact .word word
    · rw [if_neg word]
      by_cases isQuote : isQuote c = true
      · rw [if_pos isQuote]
        by_cases partner : c ∈ rest
        · obtain ⟨content, rest, rfl, closed⟩ := List.eq_append_cons_of_mem partner
          rw [if_pos partner, (takeWhile_append_quote closed rest).1,
            (takeWhile_append_quote closed rest).2]
          exact .quoted isQuote closed
        · rw [if_neg partner]
          exact .unclosed isQuote partner
      · rw [if_neg isQuote]
        exact .symbol ⟨notBlank, by simpa using word, by simpa using isQuote⟩

/-- The cursor stands in front of the tokens, and not in front of a blank. -/
def Faces (text : List Char) (offset : Nat) (input : List Placed) : Prop :=
  ∃ rest, At text offset rest ∧ tokens offset rest = input ∧ Starts offset rest input

theorem Faces.before (faces : Faces text offset input) : Before text offset input := by
  obtain ⟨rest, stands, found, -⟩ := faces
  exact ⟨rest, stands, found⟩

theorem Before.inside (before : Before text offset input) : offset ≤ byteLength text :=
  before.choose_spec.1.inside

theorem Before.skipBlanks (before : Before text offset input) :
    ∃ next, skipBlanks text offset = .ok ((), next) ∧ offset ≤ next ∧ Faces text next input := by
  obtain ⟨rest, stands, found⟩ := before
  have blank : Blanks (rest.takeWhile Unicode.isBlank) := fun c mem => List.mem_takeWhile_imp mem
  have passed := tokens_blanks blank (rest.dropWhile Unicode.isBlank) offset
  rw [List.takeWhile_append_dropWhile, found] at passed
  refine ⟨_, stands.skipWhile _, Nat.le_add_right .., _, stands.behind_takeWhile _, passed.symm, ?_⟩
  rw [passed]
  refine starts_tokens (fun c atHead => ?_) _
  have stops := List.head?_dropWhile_not Unicode.isBlank rest
  rw [Option.mem_def.mp atHead] at stops
  simpa using stops

/-! ## What the cursor stands in front of -/

/-- The character behind the cursor is the first one of the first token. -/
theorem Faces.peek (faces : Faces text offset input) :
    peek text offset = .ok (input.head?.map (·.token.firstCharacter), offset) := by
  obtain ⟨rest, stands, -, starts⟩ := faces
  rw [stands.peek]
  cases starts <;> rfl

theorem Faces.unexpected (faces : Faces text offset input) :
    unexpected text offset = .ok (Listing.unexpected (byteLength text) input, offset) := by
  rw [Cursor.unexpected, bind_of_ok faces.peek]
  obtain ⟨rest, stands, -, starts⟩ := faces
  cases starts with
  | nothing =>
    rw [stands.textEnd]
    rfl
  | word | quoted | unclosed | symbol => rfl

/-- A symbol is a token of its own. -/
theorem Faces.symbol_of_head? (faces : Faces text offset input) (symbol : IsSymbol c)
    (first : input.head?.map (·.token.firstCharacter) = some c) :
    ∃ others, input = ⟨offset, .symbol c⟩ :: others := by
  obtain ⟨rest, stands, -, starts⟩ := faces
  cases starts with
  | nothing => cases first
  | word word =>
    cases first
    exact absurd (symbol.2.1.symm.trans word) Bool.false_ne_true
  | quoted isQuote | unclosed isQuote =>
    cases first
    exact absurd (symbol.2.2.symm.trans isQuote) Bool.false_ne_true
  | symbol =>
    cases first
    exact ⟨_, rfl⟩

theorem Faces.head_offset {t : Placed} (faces : Faces text offset (t :: others)) :
    t.offset = offset := by
  obtain ⟨rest, stands, -, starts⟩ := faces
  cases starts <;> rfl

/-! ## Taking a token -/

theorem Faces.peek_symbol {start : Nat}
    (faces : Faces text offset (⟨start, .symbol c⟩ :: others)) :
    Cursor.peek text offset = .ok (some c, offset) :=
  faces.peek

theorem Faces.bump_symbol {start : Nat}
    (faces : Faces text offset (⟨start, .symbol c⟩ :: others)) :
    ∃ next, bump text offset = .ok (some c, next) ∧ offset < next ∧ Before text next others := by
  obtain ⟨rest, stands, -, starts⟩ := faces
  cases starts with
  | symbol =>
    exact ⟨_, stands.bump, Nat.lt_add_of_pos_right c.utf8Size_pos, _, stands.step, rfl⟩

theorem refuse_taken (c : Char) (offset : Nat) :
    (refuse (some c) : Scan α) (offset + c.utf8Size) =
      .error (.rejected (.unexpectedCharacter c offset)) := by
  rw [refuse, get_bind]
  simp only [Nat.le_add_left, if_true, Nat.add_sub_cancel]
  rfl

/-- What is refused after it has been taken is refused as if it was still there. -/
theorem Faces.bump_refuse (faces : Faces text offset input) :
    ∃ taken next, bump text offset = .ok (taken, next) ∧
      (refuse taken : Scan α) next =
        .error (.rejected (Listing.unexpected (byteLength text) input)) ∧
      ∀ c, IsSymbol c → taken = some c → ∃ others, input = ⟨offset, .symbol c⟩ :: others := by
  have head (c : Char) (symbol : IsSymbol c) := faces.symbol_of_head? symbol
  obtain ⟨rest, stands, -, starts⟩ := faces
  cases starts with
  | nothing =>
    refine ⟨none, offset, stands.bump_nil, ?_, head⟩
    rw [stands.textEnd]
    rfl
  | word | quoted | unclosed | symbol =>
    exact ⟨_, _, stands.bump, refuse_taken _ _, head⟩

theorem Faces.expect {start : Nat} (faces : Faces text offset (⟨start, .symbol c⟩ :: others)) :
    ∃ next, expect text c offset = .ok ((), next) ∧ offset < next ∧ Before text next others := by
  obtain ⟨next, taken, moves⟩ := faces.bump_symbol
  refine ⟨next, ?_, moves⟩
  rw [Cursor.expect, bind_of_ok faces.peek_symbol, if_pos rfl, bind_of_ok taken]
  rfl

theorem Faces.expect_error (faces : Faces text offset input) (symbol : IsSymbol c)
    (other : ∀ start others, input ≠ ⟨start, .symbol c⟩ :: others) :
    Cursor.expect text c offset =
      .error (.rejected (Listing.unexpected (byteLength text) input)) := by
  have notThere : ¬ input.head?.map (·.token.firstCharacter) = some c := by
    intro first
    obtain ⟨others, same⟩ := faces.symbol_of_head? symbol first
    exact other offset others same
  rw [Cursor.expect, bind_of_ok faces.peek, if_neg notThere, bind_of_ok faces.unexpected]
  rfl

theorem Faces.separator_comma {start : Nat} (closing : Char)
    (faces : Faces text offset (⟨start, .symbol ','⟩ :: others)) :
    ∃ next, separator text closing offset = .ok (true, next) ∧ offset < next ∧
      Before text next others := by
  obtain ⟨next, taken, moves⟩ := faces.bump_symbol
  refine ⟨next, ?_, moves⟩
  rw [separator, bind_of_ok taken]
  rfl

theorem Faces.separator_closing {start : Nat} (notComma : c ≠ ',')
    (faces : Faces text offset (⟨start, .symbol c⟩ :: others)) :
    ∃ next, separator text c offset = .ok (false, next) ∧ offset < next ∧
      Before text next others := by
  obtain ⟨next, taken, moves⟩ := faces.bump_symbol
  refine ⟨next, ?_, moves⟩
  rw [separator, bind_of_ok taken, if_neg (by simpa using notComma), if_pos rfl]
  rfl

theorem Faces.separator_error (faces : Faces text offset input) (symbol : IsSymbol c)
    (notComma : ∀ start others, input ≠ ⟨start, .symbol ','⟩ :: others)
    (notClosing : ∀ start others, input ≠ ⟨start, .symbol c⟩ :: others) :
    separator text c offset =
      .error (.rejected (Listing.unexpected (byteLength text) input)) := by
  obtain ⟨taken, next, took, refused, isSymbol⟩ := faces.bump_refuse (α := Bool)
  have comma : ¬ taken = some ',' := fun same =>
    have ⟨others, first⟩ := isSymbol ',' (by decide) same
    notComma offset others first
  have closing : ¬ taken = some c := fun same =>
    have ⟨others, first⟩ := isSymbol c symbol same
    notClosing offset others first
  rw [separator, bind_of_ok took, if_neg comma, if_neg closing, refused]

/-! ## Words and values -/

theorem At.word (stands : At text offset (c :: rest)) (isWord : isWordCharacter c = true) :
    Cursor.word text offset = .ok (c :: rest.takeWhile isWordCharacter,
      offset + byteLength (c :: rest.takeWhile isWordCharacter)) := by
  have taken := stands.skipWhile isWordCharacter
  rw [List.takeWhile_cons_of_pos isWord] at taken
  have positive := c.utf8Size_pos
  have spelled : At text offset
      ((c :: rest.takeWhile isWordCharacter) ++ rest.dropWhile isWordCharacter) := by
    rwa [List.cons_append, List.takeWhile_append_dropWhile]
  rw [Cursor.word, get_bind, bind_of_ok taken, get_bind, if_neg (by rw [byteLength]; omega),
    spelled.slice]

theorem Faces.word {start : Nat} {first : Char} {more : List Char}
    (faces : Faces text offset (⟨start, .word first more⟩ :: others)) :
    ∃ next, word text offset = .ok (first :: more, next) ∧ offset < next ∧
      Before text next others := by
  obtain ⟨rest, stands, -, starts⟩ := faces
  cases starts with
  | @word _ rest isWord =>
    have positive := first.utf8Size_pos
    refine ⟨_, stands.word isWord, by rw [byteLength]; omega, rest.dropWhile isWordCharacter, ?_,
      rfl⟩
    exact At.forward (by rwa [List.cons_append, List.takeWhile_append_dropWhile])

theorem Faces.word_error (faces : Faces text offset input)
    (other : ∀ start first more others, input ≠ ⟨start, .word first more⟩ :: others) :
    Cursor.word text offset = .error (.rejected (Listing.unexpected (byteLength text) input)) := by
  have unexpected := faces.unexpected
  obtain ⟨rest, stands, -, starts⟩ := faces
  have nothing : rest.takeWhile isWordCharacter = [] := by
    cases starts with
    | nothing => rfl
    | word => exact absurd rfl (other _ _ _ _)
    | quoted isQuote | unclosed isQuote =>
      exact List.takeWhile_cons_of_neg (by
        simp [(not_isBlank_not_isWordCharacter_of_isQuote isQuote).2])
    | symbol symbol => exact List.takeWhile_cons_of_neg (by simp [symbol.2.1])
  have taken := stands.skipWhile isWordCharacter
  rw [nothing, byteLength, Nat.add_zero] at taken
  rw [Cursor.word, get_bind, bind_of_ok taken, get_bind, if_pos rfl]
  exact (bind_of_ok unexpected).trans rfl

theorem offsetOf?_append {content : List Char} (closed : c ∉ content) (rest : List Char) :
    offsetOf? c (content ++ c :: rest) = some (byteLength content) := by
  induction content with
  | nil => exact if_pos rfl
  | cons d content ih =>
    rw [List.mem_cons, not_or] at closed
    rw [List.cons_append, offsetOf?, if_neg (Ne.symm closed.1), ih closed.2]
    rfl

theorem offsetOf?_eq_none (alone : c ∉ rest) : offsetOf? c rest = none := by
  induction rest with
  | nil => rfl
  | cons d rest ih =>
    rw [List.mem_cons, not_or] at alone
    rw [offsetOf?, if_neg (Ne.symm alone.1), ih alone.2]
    rfl

theorem At.quoted {content : List Char} (stands : At text offset (c :: (content ++ c :: rest)))
    (closed : c ∉ content) :
    quoted text c offset =
      .ok (content, offset + byteLength (c :: content) + c.utf8Size) ∧
      At text (offset + byteLength (c :: content) + c.utf8Size) rest := by
  have inside := stands.step
  have closing : At text (offset + c.utf8Size + byteLength content + c.utf8Size) rest :=
    inside.forward.step
  have same : offset + c.utf8Size + byteLength content = offset + byteLength (c :: content) :=
    Nat.add_assoc ..
  rw [Cursor.quoted, get_bind, bind_of_ok stands.bump, get_bind,
    bind_of_ok (inside.slice_textEnd _)]
  simp only [offsetOf?_append closed]
  rw [bind_of_ok (closing.moveTo _), inside.slice, same]
  exact ⟨rfl, same ▸ closing⟩

theorem At.quoted_error (stands : At text offset (c :: rest)) (alone : c ∉ rest) :
    Cursor.quoted text c offset = .error (.rejected (.unterminatedString offset)) := by
  rw [Cursor.quoted, get_bind, bind_of_ok stands.bump, get_bind,
    bind_of_ok (stands.step.slice_textEnd _)]
  simp only [offsetOf?_eq_none alone]
  rfl

theorem At.value_quoted (stands : At text offset (c :: rest)) (isQuote : isQuote c = true) :
    Cursor.value text offset = Cursor.quoted text c offset := by
  rw [Cursor.value, bind_of_ok stands.peek]
  simp only [List.head?_cons, isQuote, if_true]

theorem At.value_word (stands : At text offset rest)
    (notQuote : ∀ c ∈ rest.head?, isQuote c = false) :
    Cursor.value text offset = Cursor.word text offset := by
  rw [Cursor.value, bind_of_ok stands.peek]
  cases rest with
  | nil => rfl
  | cons c rest =>
    have other := notQuote c rfl
    simp only [List.head?_cons, other, Bool.false_eq_true, if_false]

theorem not_isQuote_of_isWordCharacter (isWord : isWordCharacter c = true) : isQuote c = false :=
  Bool.eq_false_iff.mpr fun isQuote => absurd
    ((not_isBlank_not_isWordCharacter_of_isQuote isQuote).2.symm.trans isWord) Bool.false_ne_true

theorem Faces.value {placed : Placed} {content : List Char}
    (faces : Faces text offset (placed :: others)) (read : readValue placed = .ok content) :
    ∃ next, value text offset = .ok (content, next) ∧ offset < next ∧ Before text next others := by
  have faces' := faces
  obtain ⟨rest, stands, -, starts⟩ := faces
  cases starts with
  | word isWord =>
    cases read
    have asWord := stands.value_word fun c atHead =>
      Option.some.inj atHead ▸ not_isQuote_of_isWordCharacter isWord
    obtain ⟨next, took, moves⟩ := faces'.word
    exact ⟨next, asWord.trans took, moves⟩
  | @quoted quote content rest isQuote closed =>
    cases read
    obtain ⟨took, behind⟩ := stands.quoted closed
    have positive := quote.utf8Size_pos
    exact ⟨_, (stands.value_quoted isQuote).trans took, by omega, rest, behind, rfl⟩
  | unclosed | symbol => cases read

theorem Faces.value_error {placed : Placed} (faces : Faces text offset (placed :: others))
    (unread : readValue placed = .error reason) :
    Cursor.value text offset = .error (.rejected reason) := by
  have faces' := faces
  obtain ⟨rest, stands, -, starts⟩ := faces
  cases starts with
  | word | quoted => cases unread
  | unclosed isQuote alone =>
    cases unread
    exact (stands.value_quoted isQuote).trans (stands.quoted_error alone)
  | symbol symbol =>
    cases unread
    have asWord := stands.value_word fun c atHead => Option.some.inj atHead ▸ symbol.2.2
    exact asWord.trans (faces'.word_error (by simp))

theorem Faces.value_nil (faces : Faces text offset []) :
    Cursor.value text offset = .error (.rejected (Listing.unexpected (byteLength text) [])) := by
  have faces' := faces
  obtain ⟨rest, stands, -, starts⟩ := faces
  cases starts with
  | nothing => exact (stands.value_word nofun).trans (faces'.word_error (by simp))

/-! ## Pairs -/

/-- The scan does what reading tokens does: it is rejected for the same reason, or it has the same
result and moves on to the tokens that are left. -/
def Follows (text : List Char) (offset : Nat) (scanned : Except Stop (α × Nat)) :
    Except Rejection (α × List Placed) → Prop
  | .error reason => scanned = .error (.rejected reason)
  | .ok (a, behind) => ∃ next, scanned = .ok (a, next) ∧ offset < next ∧ Before text next behind

/-- A scan that starts further on moves on from here as well. -/
theorem Follows.mono {scanned : Except Stop (α × Nat)}
    {result : Except Rejection (α × List Placed)} (follows : Follows text next scanned result)
    (late : offset ≤ next) : Follows text offset scanned result := by
  cases result with
  | error reason => exact follows
  | ok done =>
    obtain ⟨stop, ran, moves, before⟩ := follows
    exact ⟨stop, ran, Nat.lt_of_le_of_lt late moves, before⟩

section Pair

variable {keyAt colonAt : Nat} {first : Char} {more content : List Char} {placed : Placed}
  {fields fields' : Fields}

/-- Behind a word, a pair goes on with the colon. -/
theorem Before.pair_colon (before : Before text offset (⟨keyAt, .word first more⟩ :: others)) :
    ∃ next, offset < next ∧ Faces text next others ∧
      pair text offset =
        (do
          expect text ':'
          Cursor.skipBlanks text
          return (first :: more, ← value text) : Scan (List Char × List Char)) next := by
  obtain ⟨keyStart, blanksFront, late, faces⟩ := before.skipBlanks
  obtain ⟨keyStop, key, moves, before⟩ := faces.word
  obtain ⟨next, blanks, later, faces⟩ := before.skipBlanks
  refine ⟨next, by omega, faces, ?_⟩
  rw [pair, bind_of_ok blanksFront, bind_of_ok key, bind_of_ok blanks]

/-- Behind a word and a colon, a pair goes on with the value. -/
theorem Before.pair_value (before : Before text offset
      (⟨keyAt, .word first more⟩ :: ⟨colonAt, .symbol ':'⟩ :: others)) :
    ∃ next, offset < next ∧ Faces text next others ∧
      pair text offset =
        (do return (first :: more, ← value text) : Scan (List Char × List Char)) next := by
  obtain ⟨colonStart, late, faces, pair⟩ := before.pair_colon
  obtain ⟨colonStop, colon, moves, before⟩ := faces.expect
  obtain ⟨next, blanks, later, faces⟩ := before.skipBlanks
  refine ⟨next, by omega, faces, ?_⟩
  rw [pair, bind_of_ok colon, bind_of_ok blanks]

theorem note_of_pair {key : List Char} (ran : pair text offset = .ok ((key, content), next)) :
    note text fields offset =
      (do
        let fields ← ofRead (fields.set key content)
        Cursor.skipBlanks text
        return if ← separator text '}' then .inl fields else .inr fields :
        Scan (Fields ⊕ Fields)) next :=
  bind_of_ok ran

/-- Noting a pair fails if it has no value, or not one for its key. -/
theorem Before.note_error (before : Before text offset
      (⟨keyAt, .word first more⟩ :: ⟨colonAt, .symbol ':'⟩ :: placed :: others))
    (refused : readValue placed >>= fields.set (first :: more) = .error reason) :
    note text fields offset = .error (.rejected reason) := by
  obtain ⟨valueStart, -, faces, pair⟩ := before.pair_value
  rcases bind_eq_error_iff.mp refused with unread | ⟨content, read, unset⟩
  · rw [bind_of_error (faces.value_error unread)] at pair
    rw [note, bind_of_error pair]
  · obtain ⟨valueStop, value, -, before⟩ := faces.value read
    rw [bind_of_ok value] at pair
    rw [note_of_pair pair, unset]
    rfl

/-- Behind a pair, noting it goes on with what separates it from the next one. -/
theorem Before.note_separator (before : Before text offset
      (⟨keyAt, .word first more⟩ :: ⟨colonAt, .symbol ':'⟩ :: placed :: others))
    (noted : readValue placed >>= fields.set (first :: more) = .ok fields') :
    ∃ next, offset < next ∧ Faces text next others ∧
      note text fields offset =
        (do return if ← separator text '}' then .inl fields' else .inr fields' :
          Scan (Fields ⊕ Fields)) next := by
  obtain ⟨content, read, set⟩ := bind_eq_ok_iff.mp noted
  obtain ⟨valueStart, late, faces, pair⟩ := before.pair_value
  obtain ⟨valueStop, value, moves, before⟩ := faces.value read
  obtain ⟨next, blanks, later, faces⟩ := before.skipBlanks
  rw [bind_of_ok value] at pair
  refine ⟨next, by omega, faces, ?_⟩
  rw [note_of_pair pair, set, bind_of_ok (ofRead_ok _), bind_of_ok blanks]

/-- The loop over the pairs of an entry does what reading them from tokens does.  The induction is
on the tokens, along the reader's recursion; each round notes one pair. -/
theorem Before.loop_note (before : Before text offset input) :
    Follows text offset (loop text (note text) fields offset)
      (readFields (byteLength text) fields input) := by
  fun_induction readFields (byteLength text) fields input generalizing offset with
  | case1 fields keyAt first more colonAt placed rest reason refused =>
    exact loop_error (before.note_error refused)
  | case2 fields keyAt first more colonAt placed middle noted commaAt rest ih =>
    obtain ⟨stop, late, faces, note⟩ := before.note_separator noted
    obtain ⟨next, comma, moves, before⟩ := faces.separator_comma '}'
    rw [bind_of_ok comma] at note
    rw [loop_next note (by omega) before.inside]
    exact (ih before).mono (by omega)
  | case3 fields keyAt first more colonAt placed middle noted braceAt rest =>
    obtain ⟨stop, late, faces, note⟩ := before.note_separator noted
    obtain ⟨next, brace, moves, before⟩ := faces.separator_closing (by decide)
    rw [bind_of_ok brace] at note
    exact ⟨next, loop_done note (by omega) before.inside, by omega, before⟩
  | case4 fields keyAt first more colonAt placed middle noted rest notComma notBrace =>
    obtain ⟨stop, late, faces, note⟩ := before.note_separator noted
    rw [bind_of_error (faces.separator_error (by decide) notComma notBrace)] at note
    exact loop_error note
  | case5 fields keyAt first more colonAt =>
    obtain ⟨valueStart, -, faces, pair⟩ := before.pair_value
    rw [bind_of_error faces.value_nil] at pair
    exact loop_error (bind_of_error pair)
  | case6 fields keyAt first more rest notPair notColon =>
    obtain ⟨colonStart, -, faces, pair⟩ := before.pair_colon
    rw [bind_of_error (faces.expect_error (by decide) ?_)] at pair
    · exact loop_error (bind_of_error pair)
    · rintro start (_ | ⟨placed, others⟩) same
      · exact notColon start same
      · exact notPair start placed others same
  | case7 fields rest notPair notColon notWord =>
    obtain ⟨keyStart, blanks, -, faces⟩ := before.skipBlanks
    have pair : pair text offset =
        .error (.rejected (Listing.unexpected (byteLength text) rest)) := by
      rw [Cursor.pair, bind_of_ok blanks, bind_of_error (faces.word_error notWord)]
    exact loop_error (bind_of_error pair)

end Pair

/-! ## Entries -/

section Entry

variable {start braceAt : Nat} {pairs : Fields}

theorem Faces.fields_nothing (faces : Faces text offset (⟨braceAt, .symbol '}'⟩ :: others)) :
    ∃ next, fields text offset = .ok ({}, next) ∧ offset < next ∧ Before text next others := by
  obtain ⟨next, taken, moves⟩ := faces.bump_symbol
  refine ⟨next, ?_, moves⟩
  rw [fields, bind_of_ok faces.peek_symbol, if_pos rfl, bind_of_ok taken]
  rfl

theorem Faces.fields (faces : Faces text offset input)
    (notBrace : ∀ braceAt others, input ≠ ⟨braceAt, .symbol '}'⟩ :: others) :
    Follows text offset (Cursor.fields text offset) (readFields (byteLength text) {} input) := by
  have more : ¬ input.head?.map (·.token.firstCharacter) = some '}' := fun first =>
    have ⟨others, same⟩ := faces.symbol_of_head? (by decide) first
    notBrace offset others same
  rw [Cursor.fields, bind_of_ok faces.peek, if_neg more]
  exact faces.before.loop_note

/-- Behind its opening brace, an entry goes on with its pairs. -/
theorem Faces.entry_fields (faces : Faces text offset (⟨start, .symbol '{'⟩ :: others)) :
    ∃ next, offset < next ∧ Faces text next others ∧
      entry text offset =
        (do ofRead ((← Cursor.fields text).entry start) : Scan Entry) next := by
  obtain ⟨stop, brace, moves, before⟩ := faces.expect
  obtain ⟨next, blanks, late, behind⟩ := before.skipBlanks
  refine ⟨next, by omega, behind, ?_⟩
  rw [entry, get_bind, bind_of_ok brace, bind_of_ok blanks, ← faces.head_offset]

theorem follows_ofRead {result : Except Rejection α} (moves : offset < next)
    (before : Before text next behind) :
    Follows text offset (ofRead result next) ((·, behind) <$> result) := by
  cases result with
  | error reason => rfl
  | ok a => exact ⟨next, rfl, moves, before⟩

/-- Scanning an entry does what reading it from tokens does. -/
theorem Faces.entry (faces : Faces text offset input) :
    Follows text offset (entry text offset) (readEntry (byteLength text) input) := by
  unfold readEntry
  split
  · rename_i start braceAt rest
    obtain ⟨pairsAt, late, behind, entry⟩ := faces.entry_fields
    obtain ⟨next, nothing, moves, before⟩ := behind.fields_nothing
    rw [entry, bind_of_ok nothing]
    exact follows_ofRead (by omega) before
  · rename_i start rest notBrace
    obtain ⟨pairsAt, late, behind, entry⟩ := faces.entry_fields
    have follows := behind.fields fun braceAt others same => notBrace braceAt others same
    split
    · rename_i refused
      rw [refused] at follows
      rw [entry, bind_of_error follows]
      rfl
    · rename_i pairs rest' read
      rw [read] at follows
      obtain ⟨next, ran, moves, before⟩ := follows
      rw [entry, bind_of_ok ran]
      exact follows_ofRead (by omega) before
  · rename_i notEmpty notBrace
    have failed : Cursor.entry text offset =
        .error (.rejected (Listing.unexpected (byteLength text) input)) := by
      rw [Cursor.entry, get_bind, bind_of_error (faces.expect_error (by decide) notBrace)]
    exact failed

end Entry

/-! ## Listings -/

section Items

variable {b : Builder} {entry : Entry} {nextSerial : Nat} {decoded : Decoded}

theorem ofTaint_finish (b : Builder) : Builder.ofTaint b.finish = b := by
  rw [Builder.ofTaint, Builder.ranges_finish, List.reverse_reverse]

/-- A range is added to the taint of a builder as the builder takes it. -/
theorem append_finish (b : Builder) (r : Range) :
    b.finish.append r = Builder.finish <$> b.push r := by
  rw [Taint.append, ofTaint_finish]
  split
  · rename_i isEmpty
    rw [Builder.push, if_pos isEmpty]
    rfl
  · rfl

/-- Adding an entry that starts late enough succeeds.  Its range may be empty; then the taint stops
where it did, and that is still not behind the entry. -/
theorem exists_add (stops : b.stop ≤ entry.start) (taint : decoded.taint = b.finish)
    (offset : Nat) :
    ∃ b', b.push (entry.range decoded.nextSerial) = .ok b' ∧ b'.stop ≤ entry.stop ∧
      decoded.add entry offset =
        .ok (⟨b'.finish, entry.stop, decoded.nextSerial + 1⟩, offset) := by
  obtain ⟨b', push⟩ := Builder.exists_push (r := entry.range decoded.nextSerial) (.inr stops)
  refine ⟨b', push, ?_, ?_⟩
  · rw [(Builder.pushed_of_push push).stop]
    split
    · exact Nat.le_trans stops entry.start_le_stop
    · exact Nat.le_refl _
  · rw [Decoded.add, taint, append_finish, push]
    rfl

/-- Decoding ends as reading does, with the taint of the entries that are read behind what the
builder has taken already. -/
def EndsAs (b : Builder) (nextSerial : Nat) (scanned : Except Stop (Decoded × Nat)) :
    Except Rejection (List Entry) → Prop
  | .error reason => scanned = .error (.rejected reason)
  | .ok entries => ∃ b' decoded next, b.pushAll (ranges entries nextSerial) = .ok b' ∧
      scanned = .ok (decoded, next) ∧ decoded.taint = b'.finish ∧
      decoded.nextSerial = nextSerial + entries.length

theorem EndsAs.cons {b' : Builder} {scanned : Except Stop (Decoded × Nat)}
    {result : Except Rejection (List Entry)} (push : b.push (entry.range nextSerial) = .ok b')
    (ends : EndsAs b' (nextSerial + 1) scanned result) :
    EndsAs b nextSerial scanned ((entry :: ·) <$> result) := by
  cases result with
  | error reason => exact ends
  | ok entries =>
    obtain ⟨last, decoded, next, pushed, ran, taint, serial⟩ := ends
    refine ⟨last, decoded, next, ?_, ran, taint, ?_⟩
    · rw [ranges_cons, Builder.pushAll_cons, push]
      exact pushed
    · rw [serial, List.length_cons]
      omega

theorem Before.finish (before : Before text offset []) (decoded : Decoded) :
    ∃ next, finish text decoded offset = .ok (decoded, next) := by
  obtain ⟨next, blanks, -, faces⟩ := before.skipBlanks
  refine ⟨next, ?_⟩
  rw [Cursor.finish, bind_of_ok blanks, bind_of_ok faces.peek]
  rfl

theorem Before.finish_error (before : Before text offset input) (more : input ≠ [])
    (decoded : Decoded) :
    Cursor.finish text decoded offset =
      .error (.rejected (Listing.unexpected (byteLength text) input)) := by
  obtain ⟨next, blanks, -, faces⟩ := before.skipBlanks
  obtain ⟨t, others, rfl⟩ := List.exists_cons_of_ne_nil more
  rw [Cursor.finish, bind_of_ok blanks, bind_of_ok faces.peek]
  exact bind_of_ok faces.unexpected

theorem Faces.item_error (faces : Faces text offset input)
    (refused : readEntry (byteLength text) input = .error reason) :
    item text decoded offset = .error (.rejected reason) := by
  have follows := faces.entry
  rw [refused] at follows
  exact bind_of_error follows

theorem Faces.item_early (faces : Faces text offset input)
    (read : readEntry (byteLength text) input = .ok (entry, behind))
    (early : entry.start < decoded.previousStop) :
    item text decoded offset =
      .error (.rejected (.overlapping entry.start entry.stop decoded.previousStop)) := by
  have follows := faces.entry
  rw [read] at follows
  obtain ⟨next, ran, -, -⟩ := follows
  rw [item, bind_of_ok ran, if_pos early]
  rfl

/-- Behind an entry, decoding goes on with what separates it from the next one. -/
theorem Faces.item_separator (faces : Faces text offset input)
    (read : readEntry (byteLength text) input = .ok (entry, behind))
    (late : decoded.previousStop ≤ entry.start) (stops : b.stop ≤ decoded.previousStop)
    (taint : decoded.taint = b.finish) :
    ∃ b' next, b.push (entry.range decoded.nextSerial) = .ok b' ∧ b'.stop ≤ entry.stop ∧
      offset < next ∧ Faces text next behind ∧
      item text decoded offset =
        (do
          if ← separator text ']' then
            Cursor.skipBlanks text
            return .inl ⟨b'.finish, entry.stop, decoded.nextSerial + 1⟩
          else return .inr ⟨b'.finish, entry.stop, decoded.nextSerial + 1⟩ :
          Scan (Decoded ⊕ Decoded)) next := by
  have follows := faces.entry
  rw [read] at follows
  obtain ⟨stop, ran, moves, before⟩ := follows
  obtain ⟨b', push, stops', add⟩ := exists_add (Nat.le_trans stops late) taint stop
  obtain ⟨next, blanks, later, faces⟩ := before.skipBlanks
  refine ⟨b', next, push, stops', by omega, faces, ?_⟩
  rw [item, bind_of_ok ran, if_neg (Nat.not_lt_of_le late), bind_of_ok add, bind_of_ok blanks]

theorem following_eq_error {textEnd : Nat} (failed : following textEnd input = .error reason) :
    (∃ start others, input = ⟨start, .symbol ']'⟩ :: others ∧ others ≠ [] ∧
      reason = Listing.unexpected textEnd others) ∨
    (∀ start others, input ≠ ⟨start, .symbol ','⟩ :: others) ∧
      (∀ start others, input ≠ ⟨start, .symbol ']'⟩ :: others) ∧
      reason = Listing.unexpected textEnd input := by
  unfold following at failed
  split at failed
  · cases failed
  · cases failed
  · rename_i start others more
    cases failed
    exact .inl ⟨start, others, rfl, by simpa using more, rfl⟩
  · rename_i notComma notLast notBracket
    cases failed
    exact .inr ⟨notComma, notBracket, rfl⟩

/-- The loop over entries, together with what comes behind them, ends as reading them from tokens
does.  The induction is on the entries, along the reader's recursion; what carries it is that the
taint so far stops before the last entry does. -/
theorem Faces.loop_item (faces : Faces text offset input) (decoded : Decoded)
    (stops : b.stop ≤ decoded.previousStop) (taint : decoded.taint = b.finish) :
    EndsAs b decoded.nextSerial
      (((loop text (item text) decoded : Scan Decoded) >>= Cursor.finish text) offset)
      (readEntries (byteLength text) decoded.previousStop input) := by
  generalize same : decoded.previousStop = previousStop
  fun_induction readEntries (byteLength text) previousStop input
    generalizing b decoded offset with
  | case1 previousStop input reason refused =>
    exact bind_of_error (loop_error (faces.item_error refused))
  | case2 previousStop input entry rest read early =>
    subst same
    exact bind_of_error (loop_error (faces.item_early read early))
  | case3 previousStop input entry rest read late reason refused =>
    subst same
    obtain ⟨b', separatorAt, -, -, moves, behind, item⟩ :=
      faces.item_separator read (Nat.le_of_not_lt late) stops taint
    rcases following_eq_error refused with
      ⟨start, others, rfl, more, rfl⟩ | ⟨notComma, notBracket, rfl⟩
    · obtain ⟨next, bracket, moves', before⟩ := behind.separator_closing (by decide)
      rw [bind_of_ok bracket] at item
      have done := loop_done item (by omega) before.inside
      exact (bind_of_ok done).trans (before.finish_error more _)
    · rw [bind_of_error (behind.separator_error (by decide) notComma notBracket)] at item
      exact bind_of_error (loop_error item)
  | case4 previousStop input entry rest read late final =>
    subst same
    obtain ⟨b', separatorAt, push, -, moves, behind, item⟩ :=
      faces.item_separator read (Nat.le_of_not_lt late) stops taint
    obtain ⟨start, rfl⟩ := following_eq_none final
    obtain ⟨next, bracket, moves', before⟩ := behind.separator_closing (by decide)
    rw [bind_of_ok bracket] at item
    have done := loop_done item (by omega) before.inside
    obtain ⟨last, finish⟩ :=
      before.finish ⟨b'.finish, entry.stop, decoded.nextSerial + 1⟩
    refine ⟨b', _, last, ?_, (bind_of_ok done).trans finish, rfl, rfl⟩
    rw [ranges_cons, Builder.pushAll_cons, push]
    rfl
  | case5 previousStop input entry rest read late following comma ih =>
    subst same
    obtain ⟨b', separatorAt, push, stops', moves, behind, item⟩ :=
      faces.item_separator read (Nat.le_of_not_lt late) stops taint
    obtain ⟨start, rfl⟩ := following_eq_some comma
    obtain ⟨stop, passed, moves', before⟩ := behind.separator_comma ']'
    obtain ⟨next, blanks, late', faces⟩ := before.skipBlanks
    rw [bind_of_ok passed, if_pos rfl, bind_of_ok blanks] at item
    have ends := ih faces ⟨b'.finish, entry.stop, decoded.nextSerial + 1⟩ stops' rfl rfl
    have again : ((loop text (Cursor.item text) decoded : Scan Decoded) >>= Cursor.finish text)
          offset =
        ((loop text (Cursor.item text) ⟨b'.finish, entry.stop, decoded.nextSerial + 1⟩ :
          Scan Decoded) >>= Cursor.finish text) next := by
      have round := loop_next item (by omega) faces.before.inside
      simp only [bind, StateT.bind, round]
    rw [again]
    exact ends.cons push

/-- Without entries, nothing but the closing bracket may be left. -/
theorem Faces.items_nothing {start : Nat}
    (faces : Faces text offset (⟨start, .symbol ']'⟩ :: others)) (nextSerial : Nat) :
    EndsAs .empty nextSerial ((Cursor.items text nextSerial >>= Cursor.finish text) offset)
      (if others = [] then .ok [] else .error (Listing.unexpected (byteLength text) others)) := by
  obtain ⟨stop, taken, -, before⟩ := faces.bump_symbol
  have items : Cursor.items text nextSerial offset = .ok ({ nextSerial }, stop) := by
    rw [Cursor.items, bind_of_ok faces.peek_symbol, if_pos rfl, bind_of_ok taken]
    rfl
  rw [bind_of_ok items]
  split
  · rename_i nothing
    obtain ⟨next, finish⟩ := (nothing ▸ before).finish { nextSerial }
    exact ⟨.empty, _, next, rfl, finish, rfl, rfl⟩
  · rename_i more
    exact before.finish_error more _

theorem Faces.items (faces : Faces text offset input)
    (notBracket : ∀ start others, input ≠ ⟨start, .symbol ']'⟩ :: others) :
    EndsAs .empty nextSerial ((Cursor.items text nextSerial >>= Cursor.finish text) offset)
      (readEntries (byteLength text) 0 input) := by
  have more : ¬ input.head?.map (·.token.firstCharacter) = some ']' := fun first =>
    have ⟨others, same⟩ := faces.symbol_of_head? (by decide) first
    notBracket offset others same
  have items : Cursor.items text nextSerial offset =
      loop text (item text) { nextSerial } offset := by
    rw [Cursor.items, bind_of_ok faces.peek, if_neg more]
  have same : (Cursor.items text nextSerial >>= Cursor.finish text) offset =
      ((loop text (item text) { nextSerial } : Scan Decoded) >>= Cursor.finish text) offset := by
    simp only [bind, StateT.bind, items]
  rw [same]
  exact faces.loop_item { nextSerial } (Nat.le_refl _) rfl

/-- Behind the opening bracket, decoding goes on with the entries. -/
theorem list_opening {start : Nat} (framed : isFramed chars = true)
    (opens : tokens 0 chars = ⟨start, .symbol '['⟩ :: others) (nextSerial : Nat) :
    ∃ next, Faces chars next others ∧
      list chars nextSerial 0 = (Cursor.items chars nextSerial >>= Cursor.finish chars) next := by
  have before : Before chars 0 (⟨start, .symbol '['⟩ :: others) := ⟨_, at_zero _, opens⟩
  obtain ⟨bracketAt, blanks, -, faces⟩ := before.skipBlanks
  obtain ⟨stop, bracket, -, before⟩ := faces.expect
  obtain ⟨next, blanks', -, faces⟩ := before.skipBlanks
  refine ⟨next, faces, ?_⟩
  rw [list, if_pos framed, bind_of_ok blanks, bind_of_ok bracket, bind_of_ok blanks']

/-- Decoding with a cursor does what reading from tokens does. -/
theorem list_endsAs (text : String) (nextSerial : Nat) :
    EndsAs .empty nextSerial (list text.toList nextSerial 0) (read text) := by
  simp only [read]
  split
  · rename_i framed
    split
    · rename_i opens
      obtain ⟨next, faces, list⟩ := list_opening framed opens nextSerial
      rw [list]
      exact faces.items_nothing nextSerial
    · rename_i openAt closeAt rest more opens
      obtain ⟨next, faces, list⟩ := list_opening framed opens nextSerial
      have ends := faces.items_nothing nextSerial
      rw [if_neg (by simpa using more)] at ends
      rwa [list]
    · rename_i openAt rest notClosed notBracket opens
      obtain ⟨next, faces, list⟩ := list_opening framed opens nextSerial
      rw [list]
      exact faces.items fun start others same => notBracket start others same
    · rename_i notOpening
      have before : Before text.toList 0 (tokens 0 text.toList) := ⟨_, at_zero _, rfl⟩
      obtain ⟨stop, blanks, -, faces⟩ := before.skipBlanks
      have failed : list text.toList nextSerial 0 = .error (.rejected
          (Listing.unexpected (byteLength text.toList) (tokens 0 text.toList))) := by
        rw [list, if_pos framed, bind_of_ok blanks,
          bind_of_error (faces.expect_error (by decide) notOpening)]
      exact failed
  · rename_i unframed
    have failed : list text.toList nextSerial 0 = .error (.rejected .unframed) := by
      rw [list, if_neg unframed]
      rfl
    exact failed

/-- **Decoding never crashes.**  Every text is decoded or rejected, as the session does it: no slice
is out of range or cuts a character, every round of a loop moves the cursor on, within the text, and
no range is refused by the taint of those in front of it, whichever of them are empty. -/
theorem decode_never_crashes (text : String) (s : Session) :
    (∃ decoded, decode text s.recorder.nextSerial = .ok decoded ∧
      (Session.Maker.listing text).eval.ends s = (.ok (.taint decoded.taint),
        { s with recorder := { s.recorder with nextSerial := decoded.nextSerial } })) ∨
    ∃ reason, decode text s.recorder.nextSerial = .error (.rejected reason) ∧
      (Session.Maker.listing text).eval.ends s = (.error (.rejected reason), s) := by
  have ends := list_endsAs text s.recorder.nextSerial
  cases found : Listing.read text with
  | ok entries =>
    rw [found] at ends
    obtain ⟨b, decoded, next, pushed, ran, taint, serial⟩ := ends
    have made : Listing.taint entries s.recorder.nextSerial = .ok decoded.taint := by
      rw [Listing.taint, ← ranges, Taint.ofRanges, pushed, taint]
      rfl
    refine .inl ⟨decoded, ?_, ?_⟩
    · rw [decode, StateT.run', ran]
      rfl
    · rw [Session.ends_listing found made, serial]
      rfl
  | error reason =>
    rw [found] at ends
    have failed : list text.toList s.recorder.nextSerial 0 = .error (.rejected reason) := ends
    refine .inr ⟨reason, ?_, ?_⟩
    · rw [decode, StateT.run', failed]
      rfl
    · simp only [Session.Maker.eval, found]
      rfl

end Items

end TextProvenance.Listing.Cursor
