import TextProvenance.Unicode.Hidden

/-!
# Quoted text

Text between quotes as it stands in messages: the quote itself and the backslash get a backslash,
four controls have a short form, and every other character without a glyph is spelled by number.
-/

namespace TextProvenance.Quoted

/-- The form by number: `\u`, and the code point in hexadecimal between braces. -/
def spellNumber (c : Char) : List Char :=
  ['\\', 'u', '\x7b'] ++ Nat.toDigits 16 c.toNat ++ ['\x7d']

/-- The form of a character between two quotes `quote`. -/
def spell (quote c : Char) : List Char :=
  if c = quote ∨ c = '\\' then ['\\', c]
  else if c = '\x00' then ['\\', '0']
  else if c = '\t' then ['\\', 't']
  else if c = '\n' then ['\\', 'n']
  else if c = '\r' then ['\\', 'r']
  else if c.toNat < 0x20 ∨ c.toNat = 0x7f ∨ Unicode.isHidden c then spellNumber c
  else [c]

/-- Characters between two quotes `quote`. -/
def enclose (quote : Char) (chars : List Char) : String :=
  String.ofList (quote :: chars.flatMap (spell quote) ++ [quote])

/-- A character between single quotes. -/
def character (c : Char) : String := enclose '\'' [c]

/-- A text between double quotes. -/
def text (s : String) : String := enclose '"' s.toList

end TextProvenance.Quoted
