import TextProvenance.Unicode.Blank
import TextProvenance.Utf8

/-!
# Tokens of a listing

Words, quoted texts and single symbols, with blanks between them left out.  A quoted text goes to
the next quote of its kind; nothing is escaped inside.  Every token keeps the offset where it
starts.
-/

namespace TextProvenance.Listing

/-- A smallest unit of a listing. -/
inductive Token
  /-- A longest run of word characters. -/
  | word (first : Char) (more : List Char)
  /-- A text between two quotes of one kind. -/
  | quoted (quote : Char) (content : List Char)
  /-- A quote without a partner; nothing comes after it. -/
  | unclosed (quote : Char)
  /-- Any other character. -/
  | symbol (c : Char)
deriving DecidableEq

/-- The first character of a token. -/
def Token.firstCharacter : Token → Char
  | word first _ => first
  | quoted quote _ => quote
  | unclosed quote => quote
  | symbol c => c

/-- A token and the offset where it starts. -/
structure Placed where
  offset : Nat
  token : Token
deriving DecidableEq

/-- Letters and digits of ASCII, and the underscore. -/
def isWordCharacter (c : Char) : Bool := c.isAlphanum || c == '_'

/-- The quotes that texts stand between. -/
def isQuote (c : Char) : Bool := c == '\'' || c == '"'

theorem length_dropWhile_le (p : Char → Bool) (chars : List Char) :
    (chars.dropWhile p).length ≤ chars.length :=
  (List.dropWhile_suffix p).length_le

/-- The tokens of `chars`, which stand at `offset`. -/
def tokens (offset : Nat) (chars : List Char) : List Placed :=
  match chars with
  | [] => []
  | c :: rest =>
    if Unicode.isBlank c then tokens (offset + c.utf8Size) rest
    else if isWordCharacter c then
      let more := rest.takeWhile isWordCharacter
      ⟨offset, .word c more⟩ ::
        tokens (offset + Utf8.byteLength (c :: more)) (rest.dropWhile isWordCharacter)
    else if isQuote c then
      if c ∈ rest then
        let content := rest.takeWhile (· != c)
        ⟨offset, .quoted c content⟩ ::
          tokens (offset + Utf8.byteLength (c :: content) + c.utf8Size)
            (rest.dropWhile (· != c)).tail
      else [⟨offset, .unclosed c⟩]
    else ⟨offset, .symbol c⟩ :: tokens (offset + c.utf8Size) rest
termination_by chars.length
decreasing_by
  · simp
  · exact Nat.lt_succ_of_le (length_dropWhile_le ..)
  · have shorter := length_dropWhile_le (· != c) rest
    simp only [List.length_tail, List.length_cons]
    omega
  · simp

end TextProvenance.Listing
