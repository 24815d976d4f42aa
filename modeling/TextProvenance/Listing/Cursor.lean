import TextProvenance.Listing.Reader

/-!
# Decoding a listing with a cursor

`Listing.read` works on characters and tokens, where nothing can be out of range.  The decoder here
works on the bytes of a text: its cursor is an offset that is moved by the widths of characters, it
looks at characters through slices of the text, and it adds each entry to the taint as soon as it
has been read.  What must not happen on the way is a `Crash`:

* a slice that is out of range, or starts or stops inside a character,
* an offset in front of the text or beyond it,
* a round of a loop that does not move the cursor on,
* a range that the taint so far refuses.
-/

namespace TextProvenance.Listing.Cursor

open Utf8 (byteLength)

/-- What a decoder must never run into. -/
inductive Crash
  | sliced (start stop : Nat)
  | leftText
  | stuck (offset : Nat)
  | refused (fault : Fault)

/-- Why decoding stops before it is done. -/
inductive Stop
  | rejected (reason : Rejection)
  | crashed (crash : Crash)

/-- Computations that move a cursor. -/
abbrev Scan := StateT Nat (Except Stop)

variable {α σ : Type}

def reject (reason : Rejection) : Scan α := throw (.rejected reason)

/-- A result, or the rejection that stops decoding. -/
def ofRead (result : Except Rejection α) : Scan α :=
  match result with
  | .ok a => return a
  | .error reason => reject reason

variable (text : List Char)

/-! ## Characters -/

/-- The characters between two offsets. -/
def slice (start stop : Nat) : Scan (List Char) :=
  match Utf8.cut? start stop text with
  | some cut => return cut.middle
  | none => throw (.crashed (.sliced start stop))

def moveTo (offset : Nat) : Scan Unit :=
  if offset ≤ byteLength text then set offset else throw (.crashed .leftText)

/-- The character behind the cursor. -/
def peek : Scan (Option Char) := do
  return (← slice text (← get) (byteLength text)).head?

/-- Takes the character behind the cursor. -/
def bump : Scan (Option Char) := do
  match ← peek text with
  | some c =>
    moveTo text ((← get) + c.utf8Size)
    return some c
  | none => return none

/-- Repeats a round until it has a result. -/
def loop (round : σ → Scan (σ ⊕ α)) (state : σ) (offset : Nat) : Except Stop (α × Nat) :=
  match round state offset with
  | .error stop => .error stop
  | .ok (outcome, next) =>
    if offset < next ∧ next ≤ byteLength text then
      match outcome with
      | .inl state => loop round state next
      | .inr result => .ok (result, next)
    else .error (.crashed (.stuck offset))
termination_by byteLength text - offset

/-- Takes one character; there is a next round if the character behind it is of the kind. -/
def takeOne (p : Char → Bool) (_ : Unit) : Scan (Unit ⊕ Unit) := do
  let _ ← bump text
  return if (← peek text).any p then .inl () else .inr ()

/-- Takes characters as long as they are of a kind. -/
def skipWhile (p : Char → Bool) : Scan Unit := do
  if (← peek text).any p then loop text (takeOne text p) ()
  else return ()

def skipBlanks : Scan Unit := skipWhile text Unicode.isBlank

/-- The rejection of what is behind the cursor. -/
def unexpected : Scan Rejection := do
  match ← peek text with
  | some found => return .unexpectedCharacter found (← get)
  | none => return .unexpectedEnd (← get)

def expect (expected : Char) : Scan Unit := do
  if (← peek text) = some expected then
    let _ ← bump text
  else reject (← unexpected text)

/-- Rejects the character that was taken last, or the end of the text. -/
def refuse (taken : Option Char) : Scan α := do
  let offset ← get
  match taken with
  | some found =>
    if found.utf8Size ≤ offset then
      reject (.unexpectedCharacter found (offset - found.utf8Size))
    else throw (.crashed .leftText)
  | none => reject (.unexpectedEnd offset)

/-- Takes a comma, or the closing character; `true` for the comma. -/
def separator (closing : Char) : Scan Bool := do
  let taken ← bump text
  if taken = some ',' then return true
  else if taken = some closing then return false
  else refuse taken

/-! ## Words and values -/

/-- One or more word characters. -/
def word : Scan (List Char) := do
  let start ← get
  skipWhile text isWordCharacter
  let stop ← get
  if stop = start then reject (← unexpected text)
  else slice text start stop

/-- The number of bytes in front of the first `c`. -/
def offsetOf? (c : Char) : List Char → Option Nat
  | [] => none
  | d :: rest => if d = c then some 0 else (offsetOf? c rest).map (d.utf8Size + ·)

/-- A text between quotes, of which the opening one is behind the cursor. -/
def quoted (quote : Char) : Scan (List Char) := do
  let start ← get
  let _ ← bump text
  let contentStart ← get
  match offsetOf? quote (← slice text contentStart (byteLength text)) with
  | some length =>
    moveTo text (contentStart + length + quote.utf8Size)
    slice text contentStart (contentStart + length)
  | none => reject (.unterminatedString start)

def value : Scan (List Char) := do
  match ← peek text with
  | some c => if isQuote c then quoted text c else word text
  | none => word text

/-! ## Entries -/

/-- A key and its value. -/
def pair : Scan (List Char × List Char) := do
  skipBlanks text
  let key ← word text
  skipBlanks text
  expect text ':'
  skipBlanks text
  return (key, ← value text)

/-- Notes one pair, and takes the comma behind it or the closing brace. -/
def note (fields : Fields) : Scan (Fields ⊕ Fields) := do
  let (key, value) ← pair text
  let fields ← ofRead (fields.set key value)
  skipBlanks text
  return if ← separator text '}' then .inl fields else .inr fields

/-- All pairs of an entry, and the closing brace. -/
def fields : Scan Fields := do
  if (← peek text) = some '}' then
    let _ ← bump text
    return {}
  else loop text (note text) {}

def entry : Scan Entry := do
  let start ← get
  expect text '{'
  skipBlanks text
  ofRead ((← fields text).entry start)

/-! ## Listings -/

/-- What has been decoded so far. -/
structure Decoded where
  taint : Taint := .untainted
  /-- Where the last entry stops, also if its range is empty. -/
  previousStop : Nat := 0
  nextSerial : Nat

/-- Adds the range of an entry. -/
def Decoded.add (decoded : Decoded) (entry : Entry) : Scan Decoded :=
  match decoded.taint.append (entry.range decoded.nextSerial) with
  | .ok taint =>
    return { taint, previousStop := entry.stop, nextSerial := decoded.nextSerial + 1 }
  | .error fault => throw (.crashed (.refused fault))

/-- Decodes one entry, and takes the comma behind it or the closing bracket. -/
def item (decoded : Decoded) : Scan (Decoded ⊕ Decoded) := do
  let entry ← entry text
  if entry.start < decoded.previousStop then
    reject (.overlapping entry.start entry.stop decoded.previousStop)
  else
    let decoded ← decoded.add entry
    skipBlanks text
    if ← separator text ']' then
      skipBlanks text
      return .inl decoded
    else return .inr decoded

/-- All entries, and the closing bracket. -/
def items (nextSerial : Nat) : Scan Decoded := do
  if (← peek text) = some ']' then
    let _ ← bump text
    return { nextSerial }
  else loop text (item text) { nextSerial }

/-- Nothing but blanks is left of the text. -/
def finish (decoded : Decoded) : Scan Decoded := do
  skipBlanks text
  if (← peek text).isSome then reject (← unexpected text)
  else return decoded

def list (nextSerial : Nat) : Scan Decoded := do
  if isFramed text then
    skipBlanks text
    expect text '['
    skipBlanks text
    finish text (← items text nextSerial)
  else reject .unframed

/-- Decodes a text; chains are numbered from `nextSerial`. -/
def decode (text : String) (nextSerial : Nat) : Except Stop Decoded :=
  (list text.toList nextSerial).run' 0

end TextProvenance.Listing.Cursor
