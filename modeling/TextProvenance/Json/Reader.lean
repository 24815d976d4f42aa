import TextProvenance.Decimal
import TextProvenance.Json.Basic

/-!
# Reading JSON

One value with nothing but blanks around it.  Numbers and texts keep their value where a field can
hold it.  Each reader takes what it needs from the front of its input and returns the rest.
-/

namespace TextProvenance.Json

/-- The blanks of JSON. -/
def isBlank (c : Char) : Bool := c == ' ' || c == '\t' || c == '\n' || c == '\r'

/-- The input after blanks. -/
def skipBlanks (input : List Char) : List Char := input.dropWhile isBlank

/-! ## Texts -/

/-- The number that a hexadecimal digit stands for. -/
def hexValue? (c : Char) : Option Nat :=
  if c.isDigit then some (c.toNat - '0'.toNat)
  else if 'a' ≤ c ∧ c ≤ 'f' then some (c.toNat - 'a'.toNat + 10)
  else if 'A' ≤ c ∧ c ≤ 'F' then some (c.toNat - 'A'.toNat + 10)
  else none

/-- The number that four hexadecimal digits stand for. -/
def hexWord? (a b c d : Char) : Option Nat := do
  return (((← hexValue? a) * 16 + (← hexValue? b)) * 16 + (← hexValue? c)) * 16 + (← hexValue? d)

/-- The character that a backslash and `c` stand for. -/
def unescape? (c : Char) : Option Char :=
  if c = '"' ∨ c = '\\' ∨ c = '/' then some c
  else if c = 'b' then some '\x08'
  else if c = 't' then some '\t'
  else if c = 'n' then some '\n'
  else if c = 'f' then some '\x0c'
  else if c = 'r' then some '\r'
  else none

/-- The first of two surrogates. -/
def isHighSurrogate (code : Nat) : Bool := 0xd800 ≤ code && code ≤ 0xdbff

/-- The second of two surrogates. -/
def isLowSurrogate (code : Nat) : Bool := 0xdc00 ≤ code && code ≤ 0xdfff

/-- The character that two surrogates stand for. -/
def ofSurrogates (high low : Nat) : Char :=
  Char.ofNat (0x10000 + (high - 0xd800) * 0x400 + (low - 0xdc00))

/-- Reads a text up to its closing quote, as code points and surrogates. -/
def readCodes : List Char → Option (List Nat × List Char)
  | '"' :: rest => some ([], rest)
  | '\\' :: 'u' :: a :: b :: c :: d :: rest => do
    let code ← hexWord? a b c d
    let (codes, rest) ← readCodes rest
    return (code :: codes, rest)
  | '\\' :: c :: rest => do
    let char ← unescape? c
    let (codes, rest) ← readCodes rest
    return (char.toNat :: codes, rest)
  | c :: rest =>
    if c = '\\' ∨ c.toNat < 0x20 then none
    else do
      let (codes, rest) ← readCodes rest
      return (c.toNat :: codes, rest)
  | [] => none

/-- The characters that code points and surrogates stand for, unless a surrogate has no partner. -/
def joinSurrogates : List Nat → Option (List Char)
  | [] => some []
  | [code] =>
    if isHighSurrogate code || isLowSurrogate code then none else some [Char.ofNat code]
  | code :: next :: rest =>
    if isHighSurrogate code && isLowSurrogate next then
      (ofSurrogates code next :: ·) <$> joinSurrogates rest
    else if isHighSurrogate code || isLowSurrogate code then none
    else (Char.ofNat code :: ·) <$> joinSurrogates (next :: rest)

/-- Reads a text up to its closing quote.  There is no text if a surrogate in it has no partner. -/
def readText (input : List Char) : Option (Option String × List Char) := do
  let (codes, rest) ← readCodes input
  return ((joinSurrogates codes).map String.ofList, rest)

/-! ## Numbers -/

/-- Reads a run of digits, at least one. -/
def readDigits (input : List Char) : Option (List Char × List Char) :=
  let digits := input.takeWhile Char.isDigit
  if digits.isEmpty then none else some (digits, input.dropWhile Char.isDigit)

/-- Reads the whole part of a number: digits without a leading zero. -/
def readWhole (input : List Char) : Option (List Char × List Char) :=
  match input with
  | '0' :: rest => some (['0'], rest)
  | input => readDigits input

/-- The input after a fractional part, if there is one. -/
def skipFraction (input : List Char) : Option (List Char) :=
  match input with
  | '.' :: rest => (readDigits rest).map Prod.snd
  | input => some input

/-- The input after an exponent, if there is one. -/
def skipExponent (input : List Char) : Option (List Char) :=
  match input with
  | e :: sign :: rest =>
    if e = 'e' ∨ e = 'E' then
      (readDigits (if sign = '+' ∨ sign = '-' then rest else sign :: rest)).map Prod.snd
    else some input
  | input => if input = ['e'] ∨ input = ['E'] then none else some input

/-- The characters of `input` in front of `rest`, which is a rest of it. -/
def spelling (input rest : List Char) : String :=
  String.ofList (input.take (input.length - rest.length))

/-- The input after a whole part goes on with a fractional part or an exponent. -/
def isContinued (input : List Char) : Bool :=
  match input with
  | [] => false
  | c :: _ => c == '.' || c == 'e' || c == 'E'

/-- Reads a number. -/
def readNumber (input : List Char) : Option (Json × List Char) := do
  let (digits, afterWhole) ← match input with
    | '-' :: rest => readWhole rest
    | input => readWhole input
  let rest ← skipFraction afterWhole >>= skipExponent
  if input.head? ≠ some '-' ∧ !isContinued afterWhole then
    return (natural (Decimal.value digits), rest)
  else return (foreign (spelling input rest), rest)

/-! ## Values -/

/-- Reads the characters `word`. -/
def readWord (word : String) (value : Json) (input : List Char) : Option (Json × List Char) :=
  if word.toList.isPrefixOf input then some (value, input.drop word.toList.length) else none

mutual

/-- Reads a value; `fuel` bounds the number of nested calls. -/
def readValue (fuel : Nat) (input : List Char) : Option (Json × List Char) :=
  match fuel with
  | 0 => none
  | fuel + 1 =>
    match skipBlanks input with
    | '"' :: rest => do
      let (content, after) ← readText rest
      match content with
      | some content => return (text content, after)
      | none => return (foreign (spelling ('"' :: rest) after), after)
    | '[' :: rest =>
      match skipBlanks rest with
      | ']' :: after => some (array [], after)
      | rest => do
        let (items, after) ← readItems fuel rest
        return (array items, after)
    | '\x7b' :: rest =>
      match skipBlanks rest with
      | '\x7d' :: after => some (object [], after)
      | inside => do
        let (fields, after) ← readFields fuel inside
        match fields with
        | some fields => return (object fields, after)
        | none => return (foreign (spelling ('\x7b' :: rest) after), after)
    | 'n' :: rest => readWord "null" null ('n' :: rest)
    | 't' :: rest => readWord "true" (bool true) ('t' :: rest)
    | 'f' :: rest => readWord "false" (bool false) ('f' :: rest)
    | input => readNumber input

/-- Reads items up to the closing bracket. -/
def readItems (fuel : Nat) (input : List Char) : Option (List Json × List Char) :=
  match fuel with
  | 0 => none
  | fuel + 1 => do
    let (item, rest) ← readValue fuel input
    match skipBlanks rest with
    | ',' :: rest =>
      let (items, after) ← readItems fuel rest
      return (item :: items, after)
    | ']' :: after => return ([item], after)
    | _ => none

/-- Reads fields up to the closing brace.  There are no fields if a key has an unpaired
surrogate. -/
def readFields (fuel : Nat) (input : List Char) :
    Option (Option (List (String × Json)) × List Char) :=
  match fuel with
  | 0 => none
  | fuel + 1 =>
    match skipBlanks input with
    | '"' :: rest => do
      let (key, rest) ← readText rest
      match skipBlanks rest with
      | ':' :: rest =>
        let (value, rest) ← readValue fuel rest
        let field := key.map fun key => (key, value)
        match skipBlanks rest with
        | ',' :: rest =>
          let (fields, after) ← readFields fuel rest
          return ((field.bind fun field => fields.map (field :: ·)), after)
        | '\x7d' :: after => return (field.map ([·]), after)
        | _ => none
      | _ => none
    | _ => none

end

/-- The value of a text. -/
def parse? (s : String) : Option Json := do
  let input := s.toList
  let (value, rest) ← readValue (2 * input.length + 1) input
  if (skipBlanks rest).isEmpty then some value else none

end TextProvenance.Json
