import TextProvenance.Decimal
import TextProvenance.Json.Basic

/-!
# Printing JSON

Without blanks, fields in their order.  Only the quote, the backslash and the controls of ASCII
below the space are escaped.
-/

namespace TextProvenance.Json

/-- The form of a character in a text. -/
def escape (c : Char) : List Char :=
  if c = '"' then ['\\', '"']
  else if c = '\\' then ['\\', '\\']
  else if c = '\x08' then ['\\', 'b']
  else if c = '\t' then ['\\', 't']
  else if c = '\n' then ['\\', 'n']
  else if c = '\x0c' then ['\\', 'f']
  else if c = '\r' then ['\\', 'r']
  else if c.toNat < 0x20 then
    ['\\', 'u', '0', '0', Nat.digitChar (c.toNat / 16), Nat.digitChar (c.toNat % 16)]
  else [c]

/-- A text between quotes. -/
def quote (s : String) : List Char := '"' :: s.toList.flatMap escape ++ ['"']

mutual

/-- The characters of a value. -/
def characters : Json → List Char
  | null => "null".toList
  | bool true => "true".toList
  | bool false => "false".toList
  | natural n => Decimal.digits n
  | text s => quote s
  | array [] => ['[', ']']
  | array (item :: items) => '[' :: characters item ++ moreItems items ++ [']']
  | object [] => ['\x7b', '\x7d']
  | object ((key, value) :: fields) =>
    '\x7b' :: quote key ++ ':' :: characters value ++ moreFields fields ++ ['\x7d']
  | foreign spelling => spelling.toList

/-- The characters of the items after the first. -/
def moreItems : List Json → List Char
  | [] => []
  | item :: items => ',' :: characters item ++ moreItems items

/-- The characters of the fields after the first. -/
def moreFields : List (String × Json) → List Char
  | [] => []
  | (key, value) :: fields => ',' :: quote key ++ ':' :: characters value ++ moreFields fields

end

/-- The text of a value. -/
def print (j : Json) : String := String.ofList j.characters

end TextProvenance.Json
