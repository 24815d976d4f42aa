import TextProvenance.Decimal
import TextProvenance.Listing.Rejection
import TextProvenance.Listing.Token
import TextProvenance.Taint.Builder

/-!
# Reading a listing

A listing is a bracketed list of entries, each with the bounds of a range and the name of its
source:

    [{begin: 10, end: 20, source: 'src1'}, {begin: 80, end: 90, source: "src2"}]

Keys come in any order, the last value of a key counts, and keys of other names are passed over.
Entries are in order and do not overlap.  The first departure from this is the reason for which a
text is rejected.
-/

namespace TextProvenance.Listing

/-- A position, as the value of a key. -/
abbrev Bound := { n : Nat // n ≤ Position.last }

/-- One entry of a listing. -/
structure Entry where
  start : Nat
  stop : Nat
  source : String
  start_le_stop : start ≤ stop
  stop_le_last : stop ≤ Position.last

/-- The range of an entry, under a new chain. -/
def Entry.range (e : Entry) (serial : Nat) : Range :=
  ⟨e.start, e.stop, .ofSource { name := e.source } serial, e.start_le_stop, e.stop_le_last⟩

/-! ## Values -/

/-- The position that a value is written as: digits, perhaps after a plus sign. -/
def readBound? (value : List Char) : Option Bound := do
  let digits := match value with
    | '+' :: digits => digits
    | digits => digits
  let n ← Decimal.read? digits
  if bounded : n ≤ Position.last then some ⟨n, bounded⟩ else none

/-- The value of a bound, or the reason why it has none. -/
def readBound (key : Key) (value : List Char) : Except Rejection Bound :=
  match readBound? value with
  | some n => .ok n
  | none => .error (.invalidInteger key (String.ofList value))

/-- The text of a value: a word, or what stands between quotes. -/
def readValue (t : Placed) : Except Rejection (List Char) :=
  match t.token with
  | .word first more => .ok (first :: more)
  | .quoted _ content => .ok content
  | .unclosed _ => .error (.unterminatedString t.offset)
  | .symbol c => .error (.unexpectedCharacter c t.offset)

/-! ## Entries -/

/-- The keys of an entry read so far. -/
structure Fields where
  start : Option Bound := none
  stop : Option Bound := none
  source : Option String := none

/-- Notes the value of a key. -/
def Fields.set (fields : Fields) (key value : List Char) : Except Rejection Fields :=
  if key = Key.start.label.toList then
    return { fields with start := some (← readBound .start value) }
  else if key = Key.stop.label.toList then
    return { fields with stop := some (← readBound .stop value) }
  else if key = Key.source.label.toList then
    return { fields with source := some (String.ofList value) }
  else return fields

/-- The value of a key that every entry has; `offset` is where the entry starts. -/
def require {α : Type} (key : Key) (offset : Nat) : Option α → Except Rejection α
  | some value => .ok value
  | none => .error (.missingKey key offset)

/-- The entry at `offset` with all its keys. -/
def Fields.entry (fields : Fields) (offset : Nat) : Except Rejection Entry := do
  let start ← require .start offset fields.start
  let stop ← require .stop offset fields.stop
  let source ← require .source offset fields.source
  if ordered : start.val ≤ stop.val then .ok ⟨start, stop, source, ordered, stop.property⟩
  else .error (.invertedRange start stop)

/-- The rejection of tokens whose first one does not fit; `textEnd` is the length of the text. -/
def unexpected (textEnd : Nat) : List Placed → Rejection
  | [] => .unexpectedEnd textEnd
  | t :: _ => .unexpectedCharacter t.token.firstCharacter t.offset

/-- Reads `key: value` pairs up to the closing brace, and the tokens after it. -/
def readFields (textEnd : Nat) (fields : Fields) (input : List Placed) :
    Except Rejection (Fields × List Placed) :=
  match input with
  | ⟨_, .word first more⟩ :: ⟨_, .symbol ':'⟩ :: value :: rest =>
    match readValue value >>= fields.set (first :: more) with
    | .error reason => .error reason
    | .ok fields =>
      match rest with
      | ⟨_, .symbol ','⟩ :: rest => readFields textEnd fields rest
      | ⟨_, .symbol '}'⟩ :: rest => .ok (fields, rest)
      | rest => .error (unexpected textEnd rest)
  | ⟨_, .word ..⟩ :: ⟨_, .symbol ':'⟩ :: [] => .error (unexpected textEnd [])
  | ⟨_, .word ..⟩ :: rest => .error (unexpected textEnd rest)
  | rest => .error (unexpected textEnd rest)

/-- Reads one entry, and the tokens after it. -/
def readEntry (textEnd : Nat) (input : List Placed) : Except Rejection (Entry × List Placed) :=
  match input with
  | ⟨offset, .symbol '{'⟩ :: ⟨_, .symbol '}'⟩ :: rest => (·, rest) <$> Fields.entry {} offset
  | ⟨offset, .symbol '{'⟩ :: rest =>
    match readFields textEnd {} rest with
    | .error reason => .error reason
    | .ok (fields, rest) => (·, rest) <$> fields.entry offset
  | rest => .error (unexpected textEnd rest)

theorem length_readFields {textEnd : Nat} {fields fields' : Fields} {input rest : List Placed}
    (h : readFields textEnd fields input = .ok (fields', rest)) : rest.length < input.length := by
  fun_induction readFields textEnd fields input <;> grind

theorem rest_eq_of_map {entry : Entry} {result : Except Rejection Entry} {tail rest : List Placed}
    (h : (·, tail) <$> result = .ok (entry, rest)) : tail = rest := by
  cases result with
  | error _ => cases h
  | ok _ => cases h; rfl

theorem length_readEntry {textEnd : Nat} {entry : Entry} {input rest : List Placed}
    (h : readEntry textEnd input = .ok (entry, rest)) : rest.length < input.length := by
  unfold readEntry at h
  split at h
  · rw [← rest_eq_of_map h]
    simp only [List.length_cons]
    omega
  · split at h
    · cases h
    · rename_i pairs
      have shorter := length_readFields pairs
      rw [← rest_eq_of_map h, List.length_cons]
      omega
  · cases h

/-- The tokens of the next entries after an entry; none after the closing bracket, which is the last
token. -/
def following (textEnd : Nat) (input : List Placed) : Except Rejection (Option (List Placed)) :=
  match input with
  | ⟨_, .symbol ','⟩ :: rest => .ok (some rest)
  | [⟨_, .symbol ']'⟩] => .ok none
  | ⟨_, .symbol ']'⟩ :: rest => .error (unexpected textEnd rest)
  | rest => .error (unexpected textEnd rest)

theorem length_following {textEnd : Nat} {input next : List Placed}
    (h : following textEnd input = .ok (some next)) : next.length < input.length := by
  unfold following at h
  split at h
  · cases h
    exact Nat.lt_succ_self _
  all_goals cases h

/-- Reads entries up to the closing bracket.  The first entry starts at `previousStop` at the
earliest. -/
def readEntries (textEnd previousStop : Nat) (input : List Placed) :
    Except Rejection (List Entry) :=
  match _ : readEntry textEnd input with
  | .error reason => .error reason
  | .ok (entry, rest) =>
    if entry.start < previousStop then
      .error (.overlapping entry.start entry.stop previousStop)
    else
      match _ : following textEnd rest with
      | .error reason => .error reason
      | .ok none => .ok [entry]
      | .ok (some next) => (entry :: ·) <$> readEntries textEnd entry.stop next
termination_by input.length
decreasing_by
  have shorter := length_readEntry ‹_›
  have shorterNext := length_following ‹_›
  omega

/-- Apart from blanks around it, the text stands between brackets. -/
def isFramed (chars : List Char) : Bool :=
  (chars.dropWhile Unicode.isBlank).head? == some '[' &&
    (chars.reverse.dropWhile Unicode.isBlank).head? == some ']'

/-- The entries of a listing, or the reason why the text is none. -/
def read (text : String) : Except Rejection (List Entry) :=
  let chars := text.toList
  let textEnd := Utf8.byteLength chars
  if isFramed chars then
    match tokens 0 chars with
    | [⟨_, .symbol '['⟩, ⟨_, .symbol ']'⟩] => .ok []
    | ⟨_, .symbol '['⟩ :: ⟨_, .symbol ']'⟩ :: rest => .error (unexpected textEnd rest)
    | ⟨_, .symbol '['⟩ :: rest => readEntries textEnd 0 rest
    | rest => .error (unexpected textEnd rest)
  else .error .unframed

/-- The taint that entries describe; each has a chain of its own, numbered from `nextSerial`. -/
def taint (entries : List Entry) (nextSerial : Nat) : Except Fault Taint :=
  Taint.ofRanges (entries.mapIdx fun index entry => entry.range (nextSerial + index))

/-- The entries of a text; none if it is no listing. -/
def readLenient (text : String) : List Entry :=
  match read text with
  | .ok entries => entries
  | .error _ => []

end TextProvenance.Listing
