import TextProvenance.Proofs.Json.Token

/-!
# Printed values

A value in which nothing is kept as it was spelled (`Json.Plain`) is read back from its text.
Reading a value takes no more fuel than the value has characters; `Json.ReadsBack` says this of
values, items and fields at once, in front of any input, and is proved by induction on the fuel.

`Json.parse?_print` reads a text back, so no two plain values have one text (`Json.print_inj`).
-/

namespace TextProvenance.Json

variable {fuel : Nat} {j item value : Json} {items : List Json} {key : String}
  {fields : List (String × Json)} {rest : List Char} {c : Char}

/-- Nothing in the value is kept as it was spelled. -/
inductive Plain : Json → Prop
  | null : Plain null
  | bool (b : Bool) : Plain (bool b)
  | natural (n : Nat) : Plain (natural n)
  | text (s : String) : Plain (text s)
  | array {items : List Json} (all : ∀ item ∈ items, Plain item) : Plain (array items)
  | object {fields : List (String × Json)} (all : ∀ field ∈ fields, Plain field.2) :
    Plain (object fields)

/-! ## First characters -/

theorem isBlank_of_isDigit (isDigit : c.isDigit = true) : isBlank c = false := by
  simp [isBlank, ne_of_isDigit isDigit]

theorem skipBlanks_cons (visible : isBlank c = false) : skipBlanks (c :: rest) = c :: rest :=
  List.dropWhile_cons_of_neg (by simp [visible])

/-- No value starts with a blank, or with the bracket that closes a list. -/
theorem exists_characters_cons (plain : j.Plain) :
    ∃ c others, j.characters = c :: others ∧ isBlank c = false ∧ c ≠ ']' := by
  cases plain with
  | null => exact ⟨_, _, rfl, rfl, by decide⟩
  | bool b => cases b <;> exact ⟨_, _, rfl, rfl, by decide⟩
  | natural n =>
    obtain ⟨d, others, digits, isDigit⟩ := Decimal.exists_digits_cons n
    exact ⟨d, others, by rw [characters, digits], isBlank_of_isDigit isDigit,
      ne_of_isDigit isDigit rfl⟩
  | text s => exact ⟨_, _, rfl, rfl, by decide⟩
  | @array items _ => cases items <;> exact ⟨_, _, rfl, rfl, by decide⟩
  | @object fields _ => cases fields <;> exact ⟨_, _, rfl, rfl, by decide⟩

/-- What follows an item or a field does not go on with a number. -/
theorem endsNumber_moreItems (items : List Json) (rest : List Char) :
    EndsNumber (moreItems items ++ ']' :: rest) := by
  cases items <;> exact ⟨rfl, by decide, by decide, by decide⟩

theorem endsNumber_moreFields (fields : List (String × Json)) (rest : List Char) :
    EndsNumber (moreFields fields ++ '\x7d' :: rest) := by
  rcases fields with _ | ⟨⟨key, value⟩, fields⟩ <;> exact ⟨rfl, by decide, by decide, by decide⟩

theorem quote_append (s : String) (rest : List Char) :
    quote s ++ rest = '"' :: (s.toList.flatMap escape ++ '"' :: rest) := by
  simp [quote]

/-! ## Values without parts -/

theorem readValue_natural (n : Nat) (ends : EndsNumber rest) :
    readValue (fuel + 1) ((natural n).characters ++ rest) = some (natural n, rest) := by
  rw [characters, ← readNumber_digits n ends]
  obtain ⟨d, others, digits, isDigit⟩ := Decimal.exists_digits_cons n
  rw [digits, List.cons_append, readValue, skipBlanks_cons (isBlank_of_isDigit isDigit)]
  simp [ne_of_isDigit isDigit]

theorem readValue_text (s : String) (rest : List Char) :
    readValue (fuel + 1) ((text s).characters ++ rest) = some (text s, rest) := by
  rw [characters, quote_append, readValue, skipBlanks_cons rfl]
  simp [readText_escaped]

/-! ## Values with parts -/

/-- With the fuel for them, values, the items of lists and the fields of objects are read back. -/
structure ReadsBack (fuel : Nat) : Prop where
  value : ∀ j rest, Plain j → j.characters.length ≤ fuel → EndsNumber rest →
    readValue fuel (j.characters ++ rest) = some (j, rest)
  items : ∀ item items rest, (∀ x ∈ item :: items, Plain x) →
    (item.characters ++ moreItems items).length < fuel →
    readItems fuel (item.characters ++ (moreItems items ++ ']' :: rest)) =
      some (item :: items, rest)
  fields : ∀ key value fields rest, (∀ x ∈ (key, value) :: fields, Plain x.2) →
    (quote key ++ ':' :: value.characters ++ moreFields fields).length < fuel →
    readFields fuel
        (quote key ++ ':' :: (value.characters ++ (moreFields fields ++ '\x7d' :: rest))) =
      some (some ((key, value) :: fields), rest)

theorem readsBack_zero : ReadsBack 0 := by
  refine ⟨fun j rest plain none _ => ?_, fun _ _ _ _ none => absurd none (Nat.not_lt_zero _),
    fun _ _ _ _ _ none => absurd none (Nat.not_lt_zero _)⟩
  obtain ⟨c, others, first, -⟩ := exists_characters_cons plain
  simp [first] at none

theorem ReadsBack.value_succ (reads : ReadsBack fuel) (plain : j.Plain)
    (enough : j.characters.length ≤ fuel + 1) (ends : EndsNumber rest) :
    readValue (fuel + 1) (j.characters ++ rest) = some (j, rest) := by
  cases plain with
  | null => rfl
  | bool b => cases b <;> rfl
  | natural n => exact readValue_natural n ends
  | text s => exact readValue_text s rest
  | @array items all =>
    cases items with
    | nil => rfl
    | cons item items =>
      have input : (array (item :: items)).characters ++ rest =
          '[' :: (item.characters ++ (moreItems items ++ ']' :: rest)) := by
        simp [characters]
      have inside : (item.characters ++ moreItems items).length < fuel := by
        simp only [characters, List.length_append, List.length_cons, List.length_nil] at enough ⊢
        omega
      have read := reads.items item items rest all inside
      obtain ⟨c, others, first, visible, notClosed⟩ :=
        exists_characters_cons (all item List.mem_cons_self)
      rw [input, readValue, skipBlanks_cons rfl]
      rw [first, List.cons_append] at read ⊢
      simp [skipBlanks_cons visible, notClosed, read]
  | @object fields all =>
    rcases fields with _ | ⟨⟨key, value⟩, fields⟩
    · rfl
    · have input : (object ((key, value) :: fields)).characters ++ rest =
          '\x7b' :: (quote key ++
            ':' :: (value.characters ++ (moreFields fields ++ '\x7d' :: rest))) := by
        simp [characters]
      have inside : (quote key ++ ':' :: value.characters ++ moreFields fields).length < fuel := by
        simp only [characters, List.length_append, List.length_cons, List.length_nil] at enough ⊢
        omega
      have read := reads.fields key value fields rest all inside
      rw [input, readValue, skipBlanks_cons rfl]
      rw [quote_append] at read ⊢
      simp [skipBlanks_cons, isBlank, read]

theorem ReadsBack.items_succ (reads : ReadsBack fuel) (all : ∀ x ∈ item :: items, Plain x)
    (enough : (item.characters ++ moreItems items).length < fuel + 1) :
    readItems (fuel + 1) (item.characters ++ (moreItems items ++ ']' :: rest)) =
      some (item :: items, rest) := by
  obtain ⟨plain, others⟩ := List.forall_mem_cons.mp all
  rw [List.length_append] at enough
  have first := reads.value item (moreItems items ++ ']' :: rest) plain (by omega)
    (endsNumber_moreItems items rest)
  rw [readItems, first]
  cases items with
  | nil => simp [moreItems, skipBlanks_cons, isBlank]
  | cons next items =>
    have shorter : (next.characters ++ moreItems items).length < fuel := by
      simp only [moreItems, List.length_append, List.length_cons] at enough ⊢
      omega
    have later := reads.items next items rest others shorter
    simp [moreItems, skipBlanks_cons, isBlank, later]

theorem ReadsBack.fields_succ (reads : ReadsBack fuel)
    (all : ∀ x ∈ (key, value) :: fields, Plain x.2)
    (enough : (quote key ++ ':' :: value.characters ++ moreFields fields).length < fuel + 1) :
    readFields (fuel + 1)
        (quote key ++ ':' :: (value.characters ++ (moreFields fields ++ '\x7d' :: rest))) =
      some (some ((key, value) :: fields), rest) := by
  obtain ⟨plain, others⟩ := List.forall_mem_cons.mp all
  simp only [List.length_append, List.length_cons] at enough
  have first := reads.value value (moreFields fields ++ '\x7d' :: rest) plain (by omega)
    (endsNumber_moreFields fields rest)
  rw [quote_append, readFields, skipBlanks_cons rfl]
  simp only [readText_escaped, skipBlanks_cons (c := ':') rfl, first, Option.bind_eq_bind,
    Option.bind_some]
  rcases fields with _ | ⟨⟨nextKey, next⟩, fields⟩
  · simp [moreFields, skipBlanks_cons, isBlank]
  · have shorter :
        (quote nextKey ++ ':' :: next.characters ++ moreFields fields).length < fuel := by
      simp only [moreFields, List.length_append, List.length_cons] at enough ⊢
      omega
    have later := reads.fields nextKey next fields rest others shorter
    simp [moreFields, skipBlanks_cons, isBlank, later]

/-- Everything is read back if there is fuel for it.  The induction is on the fuel: what is read
inside a value, and behind the first item or field, has fewer characters. -/
theorem readsBack (fuel : Nat) : ReadsBack fuel := by
  induction fuel with
  | zero => exact readsBack_zero
  | succ fuel reads =>
    exact ⟨fun _ _ => reads.value_succ, fun _ _ _ => reads.items_succ,
      fun _ _ _ _ => reads.fields_succ⟩

/-! ## Texts of values -/

theorem parse?_print (plain : j.Plain) : parse? j.print = some j := by
  have enough : j.characters.length ≤ 2 * j.characters.length + 1 := by omega
  have read := (readsBack _).value j [] plain enough trivial
  rw [List.append_nil] at read
  rw [parse?, print, String.toList_ofList]
  simp only [read, Option.bind_eq_bind, Option.bind_some, skipBlanks, List.dropWhile_nil,
    List.isEmpty_nil, if_true]

/-- Plain values are told apart by their texts. -/
theorem print_inj {j' : Json} (plain : j.Plain) (plain' : j'.Plain) (same : j.print = j'.print) :
    j = j' :=
  Option.some.inj ((parse?_print plain).symm.trans ((congrArg parse? same).trans
    (parse?_print plain')))

end TextProvenance.Json
