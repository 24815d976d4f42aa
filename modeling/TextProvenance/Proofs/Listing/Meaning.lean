import Mathlib.Data.Nat.Digits.Defs
import TextProvenance.Listing.Reader
import TextProvenance.Proofs.Edit

/-!
# What the keys of an entry mean

`Means` says which entry some pairs of keys and values stand for, without regard to how they are
read: the last value of each key counts, and no bound may have a value that is no numeral, not even
one that does not count.  Reading the pairs one after the other finds that entry, and no other
(`noteAll_entry_iff`).
-/

namespace TextProvenance.Listing

/-- A key and its value, as they are spelled. -/
structure Pair where
  key : List Char
  value : List Char

variable {pair : Pair} {pairs : List Pair} {value digits : List Char} {entry : Entry}
  {fields fields' : Fields} {key : Key} {offset n : Nat}

/-! ## Numerals -/

/-- Decimal digits, at least one, for a number. -/
def IsDigits (digits : List Char) (n : Nat) : Prop :=
  digits ≠ [] ∧ (∀ d ∈ digits, d.isDigit = true) ∧
    Nat.ofDigits 10 (digits.map fun d => d.toNat - '0'.toNat).reverse = n

/-- A numeral for a position: digits, perhaps after a plus sign. -/
def IsNumeral (chars : List Char) (n : Nat) : Prop :=
  ∃ digits, (chars = digits ∨ chars = '+' :: digits) ∧ IsDigits digits n ∧ n ≤ Position.last

theorem value_eq_ofDigits (digits : List Char) :
    Decimal.value digits = Nat.ofDigits 10 (digits.map fun d => d.toNat - '0'.toNat).reverse := by
  rw [Nat.ofDigits_eq_foldr, ← List.map_reverse, List.foldr_map, List.foldr_reverse, Decimal.value]
  congr 1
  funext n d
  exact Nat.add_comm ..

theorem read?_eq_some_iff : Decimal.read? digits = some n ↔ IsDigits digits n := by
  unfold Decimal.read? IsDigits
  rw [← value_eq_ofDigits]
  cases digits <;> simp [and_assoc]

theorem read?_bind_eq_some_iff {n : Bound} :
    ((Decimal.read? digits).bind fun m =>
      if bounded : m ≤ Position.last then some (⟨m, bounded⟩ : Bound) else none) = some n ↔
      IsDigits digits n := by
  rw [Option.bind_eq_some_iff]
  constructor
  · rintro ⟨m, read, bounded⟩
    split at bounded
    · cases bounded
      exact read?_eq_some_iff.mp read
    · cases bounded
  · exact fun isDigits => ⟨n.val, read?_eq_some_iff.mpr isDigits, dif_pos n.property⟩

/-- The sign is no digit, so a numeral is taken apart in one way. -/
theorem not_isDigits_plus : ¬ IsDigits ('+' :: digits) n :=
  fun isDigits => absurd (isDigits.2.1 '+' (by simp)) (by decide)

theorem readBound?_eq_some_iff {n : Bound} : readBound? value = some n ↔ IsNumeral value n := by
  unfold readBound? IsNumeral
  split
  · refine read?_bind_eq_some_iff.trans ⟨fun isDigits => ⟨_, .inr rfl, isDigits, n.property⟩, ?_⟩
    rintro ⟨digits, rfl | same, isDigits, -⟩
    · exact absurd isDigits not_isDigits_plus
    · cases same
      exact isDigits
  · rename_i unsigned
    refine read?_bind_eq_some_iff.trans ⟨fun isDigits => ⟨_, .inl rfl, isDigits, n.property⟩, ?_⟩
    rintro ⟨digits, rfl | same, isDigits, -⟩
    · exact isDigits
    · exact absurd same (unsigned digits)

/-! ## Keys -/

/-- The pair gives the value of a key. -/
def Pair.Gives (pair : Pair) (key : Key) : Prop := pair.key = key.label.toList

instance (pair : Pair) (key : Key) : Decidable (pair.Gives key) :=
  inferInstanceAs (Decidable (_ = _))

/-- The last value of a key. -/
def lastValue (key : Key) (pairs : List Pair) : Option (List Char) :=
  ((pairs.filter fun pair => pair.Gives key).getLast?).map Pair.value

/-- A pair that gives a bound has a numeral for its value. -/
def Pair.Readable (pair : Pair) : Prop :=
  pair.Gives .start ∨ pair.Gives .stop → ∃ n, IsNumeral pair.value n

/-- The pairs stand for an entry: all bounds are numerals, and all keys are there, with the last
value of each for the entry. -/
structure Means (pairs : List Pair) (entry : Entry) : Prop where
  readable : ∀ pair ∈ pairs, pair.Readable
  start : ∃ value, lastValue .start pairs = some value ∧ IsNumeral value entry.start
  stop : ∃ value, lastValue .stop pairs = some value ∧ IsNumeral value entry.stop
  source : lastValue .source pairs = some entry.source.toList

theorem lastValue_cons :
    lastValue key (pair :: pairs) =
      (lastValue key pairs).or (if pair.Gives key then some pair.value else none) := by
  unfold lastValue
  by_cases gives : pair.Gives key
  · rw [List.filter_cons_of_pos (by simpa using gives), List.getLast?_cons, if_pos gives]
    cases (pairs.filter fun pair => pair.Gives key).getLast? <;> rfl
  · rw [List.filter_cons_of_neg (by simpa using gives), if_neg gives, Option.or_none]

/-! ## Reading pairs one after the other -/

/-- The keys after a pair that is readable. -/
def Fields.noted (fields : Fields) (pair : Pair) : Fields where
  start := if pair.Gives .start then readBound? pair.value else fields.start
  stop := if pair.Gives .stop then readBound? pair.value else fields.stop
  source := if pair.Gives .source then some (String.ofList pair.value) else fields.source

theorem exists_isNumeral_iff :
    (∃ n, IsNumeral value n) ↔ ∃ n : Bound, readBound? value = some n := by
  constructor
  · rintro ⟨n, numeral⟩
    have bounded : n ≤ Position.last := numeral.choose_spec.2.2
    exact ⟨⟨n, bounded⟩, readBound?_eq_some_iff.mpr numeral⟩
  · rintro ⟨n, read⟩
    exact ⟨n, readBound?_eq_some_iff.mp read⟩

/-- A bound is noted if its value is a numeral, and rejected otherwise. -/
theorem noteBound_eq_ok_iff (note : Option Bound → Fields) :
    (do return note (some (← readBound key value)) : Except Rejection Fields) = .ok fields' ↔
      (∃ n, IsNumeral value n) ∧ fields' = note (readBound? value) := by
  rw [exists_isNumeral_iff]
  unfold readBound
  cases readBound? value with
  | none => simp [bind, Except.bind]
  | some n => simp [bind, Except.bind, pure, Except.pure, eq_comm]

theorem set_eq_ok_iff :
    fields.set pair.key pair.value = .ok fields' ↔ pair.Readable ∧ fields' = fields.noted pair := by
  have startStop : Key.start.label.toList ≠ Key.stop.label.toList := by decide
  have startSource : Key.start.label.toList ≠ Key.source.label.toList := by decide
  have stopSource : Key.stop.label.toList ≠ Key.source.label.toList := by decide
  unfold Fields.set Fields.noted Pair.Readable Pair.Gives
  by_cases start : pair.key = Key.start.label.toList
  · rw [if_pos start, noteBound_eq_ok_iff fun bound => { fields with start := bound }]
    simp [start, startStop, startSource]
  · rw [if_neg start]
    by_cases stop : pair.key = Key.stop.label.toList
    · rw [if_pos stop, noteBound_eq_ok_iff fun bound => { fields with stop := bound }]
      simp [stop, stopSource, startStop.symm]
    · rw [if_neg stop]
      by_cases source : pair.key = Key.source.label.toList
      · rw [if_pos source]
        simp [source, startSource.symm, stopSource.symm, pure, Except.pure, eq_comm]
      · rw [if_neg source]
        simp [start, stop, source, pure, Except.pure, eq_comm (a := fields)]

/-- Notes pairs one after the other. -/
def Fields.noteAll (fields : Fields) (pairs : List Pair) : Except Rejection Fields :=
  pairs.foldlM (fun fields pair => fields.set pair.key pair.value) fields

theorem noteAll_cons_eq_ok_iff :
    fields.noteAll (pair :: pairs) = .ok fields' ↔
      ∃ middle, fields.set pair.key pair.value = .ok middle ∧
        middle.noteAll pairs = .ok fields' := by
  rw [Fields.noteAll, List.foldlM_cons, bind_eq_ok_iff]
  rfl

theorem noteAll_eq_ok_iff :
    fields.noteAll pairs = .ok fields' ↔
      (∀ pair ∈ pairs, pair.Readable) ∧ fields' = pairs.foldl Fields.noted fields := by
  induction pairs generalizing fields with
  | nil => simp [Fields.noteAll, pure, Except.pure, eq_comm]
  | cons pair pairs ih =>
    rw [noteAll_cons_eq_ok_iff]
    constructor
    · rintro ⟨middle, first, others⟩
      rcases set_eq_ok_iff.mp first with ⟨readable, rfl⟩
      rcases ih.mp others with ⟨readableOthers, same⟩
      exact ⟨List.forall_mem_cons.mpr ⟨readable, readableOthers⟩, same⟩
    · rintro ⟨readable, same⟩
      rcases List.forall_mem_cons.mp readable with ⟨first, others⟩
      exact ⟨fields.noted pair, set_eq_ok_iff.mpr ⟨first, rfl⟩, ih.mpr ⟨others, same⟩⟩

/-- What is noted for a key in the end is its last value, if it has any. -/
theorem foldl_noted {α : Type} (get : Fields → Option α) (read : List Char → Option α)
    (note : ∀ fields pair, get (Fields.noted fields pair) =
      if pair.Gives key then read pair.value else get fields) (fields : Fields)
    (pairs : List Pair) :
    get (pairs.foldl Fields.noted fields) =
      (lastValue key pairs).elim (get fields) read := by
  induction pairs generalizing fields with
  | nil => rfl
  | cons pair pairs ih =>
    rw [List.foldl_cons, ih, lastValue_cons, note]
    cases lastValue key pairs with
    | some value => rfl
    | none => by_cases gives : pair.Gives key <;> simp [gives]

/-- The bound that is noted for a key. -/
theorem elim_lastValue_eq_some_iff :
    ((lastValue key pairs).elim none readBound?).map Subtype.val = some n ↔
      ∃ value, lastValue key pairs = some value ∧ IsNumeral value n := by
  cases lastValue key pairs with
  | none => simp
  | some value =>
    simp only [Option.elim_some, Option.map_eq_some_iff, readBound?_eq_some_iff]
    constructor
    · rintro ⟨n, numeral, rfl⟩
      exact ⟨value, rfl, numeral⟩
    · rintro ⟨_, same, numeral⟩
      cases same
      exact ⟨⟨n, numeral.choose_spec.2.2⟩, numeral, rfl⟩

theorem entry_eq_ok_iff :
    fields.entry offset = .ok entry ↔
      fields.start.map Subtype.val = some entry.start ∧
        fields.stop.map Subtype.val = some entry.stop ∧ fields.source = some entry.source := by
  rcases fields with ⟨start, stop, source⟩
  unfold Fields.entry
  cases start with
  | none => simp [require, bind, Except.bind]
  | some start =>
    cases stop with
    | none => simp [require, bind, Except.bind]
    | some stop =>
      cases source with
      | none => simp [require, bind, Except.bind]
      | some source =>
        simp only [require, bind, Except.bind, Option.map_some, Option.some.injEq]
        constructor
        · intro ok
          split at ok
          · cases ok
            exact ⟨rfl, rfl, rfl⟩
          · cases ok
        · rintro ⟨first, last, same⟩
          rw [dif_pos (first ▸ last ▸ entry.start_le_stop)]
          cases entry
          cases first
          cases last
          cases same
          rfl

/-- Pairs that are read one after the other make the entry that they stand for. -/
theorem noteAll_entry_iff (offset : Nat) :
    (∃ fields, Fields.noteAll {} pairs = .ok fields ∧ fields.entry offset = .ok entry) ↔
      Means pairs entry := by
  have start := foldl_noted Fields.start readBound? (fun _ _ => rfl) {} pairs
  have stop := foldl_noted Fields.stop readBound? (fun _ _ => rfl) {} pairs
  have source := foldl_noted Fields.source (fun value => some (String.ofList value))
    (fun _ _ => rfl) {} pairs
  have sourceText : (lastValue .source pairs).elim none (fun value => some (String.ofList value)) =
      some entry.source ↔ lastValue .source pairs = some entry.source.toList := by
    cases lastValue .source pairs with
    | none => simp
    | some value =>
      simp only [Option.elim_some, Option.some.injEq]
      exact ⟨fun same => same ▸ String.toList_ofList.symm, fun same => same ▸ String.ofList_toList⟩
  simp only [noteAll_eq_ok_iff, entry_eq_ok_iff, and_assoc, exists_and_left, exists_eq_left, start,
    stop, source, elim_lastValue_eq_some_iff, sourceText]
  exact ⟨fun ⟨readable, start, stop, source⟩ => ⟨readable, start, stop, source⟩,
    fun ⟨readable, start, stop, source⟩ => ⟨readable, start, stop, source⟩⟩

end TextProvenance.Listing
