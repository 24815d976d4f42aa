import TextProvenance.Quoted

/-!
# Why a listing is rejected

Each cause carries what its message shows: offsets count bytes from the start of the text.
-/

namespace TextProvenance.Listing

/-- The keys that every entry has. -/
inductive Key
  | start
  | stop
  | source
deriving DecidableEq

/-- The spelling of a key. -/
def Key.label : Key → String
  | .start => "begin"
  | .stop => "end"
  | .source => "source"

/-- Why a text is no listing. -/
inductive Rejection
  /-- The text does not start with an opening bracket and stop with a closing one. -/
  | unframed
  /-- The text stops in the middle of a construct. -/
  | unexpectedEnd (offset : Nat)
  /-- A character cannot start or continue the construct it stands in. -/
  | unexpectedCharacter (found : Char) (offset : Nat)
  /-- The quote at `offset` has no partner. -/
  | unterminatedString (offset : Nat)
  /-- A bound is not written as a position. -/
  | invalidInteger (key : Key) (value : String)
  /-- The entry at `offset` lacks a key. -/
  | missingKey (key : Key) (offset : Nat)
  /-- An entry starts after it stops. -/
  | invertedRange (start stop : Nat)
  /-- An entry starts before the one in front of it stops. -/
  | overlapping (start stop previousStop : Nat)
deriving DecidableEq

namespace Rejection

/-- The wording of a rejection. -/
def message : Rejection → String
  | unframed => "Malformed taint list: expected '[' ... ']'"
  | unexpectedEnd offset => s!"Unexpected end of input at offset {offset}"
  | unexpectedCharacter found offset =>
    "Unexpected character " ++ Quoted.character found ++ s!" at offset {offset}"
  | unterminatedString offset => s!"Unterminated string literal starting at offset {offset}"
  | invalidInteger key value =>
    "Invalid integer " ++ Quoted.text value ++ s!" for key '{key.label}'"
  | missingKey key offset => s!"Taint range at offset {offset} is missing key '{key.label}'"
  | invertedRange start stop => s!"Inverted taint range {start} - {stop}"
  | overlapping start stop previousStop =>
    s!"Taint range {start} - {stop} starts before previous end {previousStop}"

/-- The wording of a rejection where failures of other kinds may stand next to it. -/
def describe (r : Rejection) : String := "Text format error: " ++ r.message

end Rejection

end TextProvenance.Listing
