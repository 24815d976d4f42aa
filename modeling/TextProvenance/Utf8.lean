/-!
# Byte offsets

Positions in a text are offsets into its UTF-8 encoding.  A text is taken apart at an offset only
between characters; an offset inside a character, or beyond the text, is refused.
-/

namespace TextProvenance.Utf8

/-- Number of bytes that characters take in UTF-8. -/
def byteLength : List Char → Nat
  | [] => 0
  | c :: rest => c.utf8Size + byteLength rest

/-- The characters before and after an offset between two characters. -/
def splitAt? : Nat → List Char → Option (List Char × List Char)
  | 0, chars => some ([], chars)
  | _ + 1, [] => none
  | offset + 1, c :: rest =>
    if c.utf8Size ≤ offset + 1 then
      (splitAt? (offset + 1 - c.utf8Size) rest).map fun (front, back) => (c :: front, back)
    else none

/-- The characters up to an offset; all of them if the offset is behind their end. -/
def truncate? (offset : Nat) (chars : List Char) : Option (List Char) :=
  if offset ≤ byteLength chars then Prod.fst <$> splitAt? offset chars else some chars

/-- A text taken apart at two offsets. -/
structure Cut where
  front : List Char
  middle : List Char
  back : List Char

/-- The text with other characters in the middle. -/
def Cut.fill (cut : Cut) (chars : List Char) : List Char := cut.front ++ chars ++ cut.back

/-- The parts before, between and after two offsets between characters. -/
def cut? (start stop : Nat) (chars : List Char) : Option Cut := do
  if start ≤ stop then
    let (front, rest) ← splitAt? start chars
    let (middle, back) ← splitAt? (stop - start) rest
    some ⟨front, middle, back⟩
  else none

/-- Every character with the offsets where it starts and stops, counted from `offset`. -/
def placed (offset : Nat) : List Char → List (Char × Nat × Nat)
  | [] => []
  | c :: rest => (c, offset, offset + c.utf8Size) :: placed (offset + c.utf8Size) rest

end TextProvenance.Utf8
