import TextProvenance.Proofs.Session.Identity
import TextProvenance.Proofs.Text.Composed

/-!
# The parts of a split text

A separator is looked for from the left and without overlaps.  While no separator starts, characters
are passed (`Text.Passed`), and what has been passed contains none; the pieces joined with it are what
was searched (`Text.intercalate_pieces`, `Text.not_infix_of_mem_pieces`).

The offset of a piece runs along with them, so the window of taint that is cut out for a part is the
one in its place (`Text.exists_recordPieces`).  `Text.split_partitions` has both, and for the empty
separator that the parts, which follow each other directly, make up the text again.
-/

namespace TextProvenance

open Utf8 (byteLength)

namespace Text

variable {s : Text} {recorder recorder' : Recorder} {separator piece chars part : List Char}

/-! ## Searching for the separator -/

theorem splitOn_ne_nil (separator piece chars : List Char) : splitOn separator piece chars ≠ [] := by
  fun_induction splitOn separator piece chars with
  | case1 => exact List.cons_ne_nil _ _
  | case2 => exact List.cons_ne_nil _ _
  | case3 _ _ _ _ ih => exact ih

/-- Where the separator starts, it is followed by what is searched next. -/
theorem append_drop_of_isPrefixOf {c : Char} {rest : List Char} (filled : separator ≠ [])
    (starts : separator.isPrefixOf (c :: rest) = true) :
    separator ++ rest.drop (separator.length - 1) = c :: rest := by
  obtain ⟨first, others, rfl⟩ := List.exists_cons_of_ne_nil filled
  obtain ⟨behind, same⟩ := List.isPrefixOf_iff_prefix.mp starts
  rw [List.cons_append] at same
  obtain ⟨rfl, rfl⟩ := List.cons.inj same
  rw [List.length_cons, Nat.add_sub_cancel, List.drop_left, List.cons_append]

/-- The pieces joined with the separator are what was searched. -/
theorem intercalate_splitOn (filled : separator ≠ []) (piece chars : List Char) :
    List.intercalate separator (splitOn separator piece chars) = piece.reverse ++ chars := by
  fun_induction splitOn separator piece chars with
  | case1 piece => rw [List.intercalate_singleton, List.append_nil]
  | case2 piece c rest starts ih =>
    rw [List.intercalate_cons_of_ne_nil (splitOn_ne_nil _ _ _), ih, List.reverse_nil, List.nil_append,
      List.append_assoc, append_drop_of_isPrefixOf filled starts]
  | case3 piece c rest _ ih =>
    rw [ih, List.reverse_cons, List.append_assoc, List.singleton_append]

/-- The separator starts at no character of `piece`, with `chars` behind it. -/
def Passed (separator piece chars : List Char) : Prop :=
  ∀ back, back <:+ piece → back ≠ [] → ¬ separator <+: back ++ chars

theorem passed_nil (separator chars : List Char) : Passed separator [] chars :=
  fun _ suffix filled => absurd (List.suffix_nil.mp suffix) filled

/-- One more character is passed where the separator does not start. -/
theorem Passed.next {c : Char} {rest : List Char} (passed : Passed separator piece (c :: rest))
    (apart : ¬ separator.isPrefixOf (c :: rest) = true) : Passed separator (piece ++ [c]) rest := by
  intro back suffix filled starts
  obtain ⟨back, rfl, shorter⟩ := (List.suffix_concat_iff.mp suffix).resolve_left filled
  rw [List.append_assoc, List.singleton_append] at starts
  by_cases empty : back = []
  · rw [empty, List.nil_append] at starts
    exact apart (List.isPrefixOf_iff_prefix.mpr starts)
  · exact passed back shorter empty starts

theorem Passed.not_infix (passed : Passed separator piece chars) (filled : separator ≠ []) :
    ¬ separator <:+: piece := by
  rintro ⟨front, back, rfl⟩
  have suffix : separator ++ back <:+ front ++ separator ++ back :=
    ⟨front, (List.append_assoc ..).symm⟩
  refine passed _ suffix (List.append_ne_nil_of_left_ne_nil filled back) ?_
  rw [List.append_assoc]
  exact List.prefix_append ..

theorem not_infix_of_mem_splitOn (filled : separator ≠ [])
    (passed : Passed separator piece.reverse chars)
    (mem : part ∈ splitOn separator piece chars) : ¬ separator <:+: part := by
  fun_induction splitOn separator piece chars with
  | case1 piece => exact List.mem_singleton.mp mem ▸ passed.not_infix filled
  | case2 piece c rest starts ih =>
    rcases List.mem_cons.mp mem with rfl | mem
    · exact passed.not_infix filled
    · exact ih (passed_nil _ _) mem
  | case3 piece c rest apart ih =>
    exact ih (List.reverse_cons ▸ passed.next apart) mem

theorem intercalate_singletons (chars : List Char) :
    List.intercalate [] (chars.map ([·])) = chars := by
  induction chars with
  | nil => rfl
  | cons c rest ih =>
    cases rest with
    | nil => rfl
    | cons d rest =>
      rw [List.map_cons] at ih
      rw [List.map_cons, List.map_cons, List.intercalate_cons_cons, ih, List.append_nil,
        List.singleton_append]

/-- For any separator, the pieces joined with it are the characters. -/
theorem intercalate_pieces (separator chars : List Char) :
    List.intercalate separator (pieces separator chars) = chars := by
  unfold pieces
  split
  · rename_i empty
    rw [List.isEmpty_iff.mp empty, intercalate_singletons]
  · rename_i filled
    exact intercalate_splitOn (mt List.isEmpty_iff.mpr filled) [] chars

theorem not_infix_of_mem_pieces (filled : separator ≠ []) (mem : part ∈ pieces separator chars) :
    ¬ separator <:+: part := by
  unfold pieces at mem
  rw [if_neg (mt List.isEmpty_iff.mp filled)] at mem
  exact not_infix_of_mem_splitOn filled (passed_nil _ _) mem

/-! ## Parts -/

/-- Where part `k` starts: every part in front of it has the separator behind it. -/
def startOf (separator : String) (parts : List Text) (k : Nat) : Nat :=
  ((parts.take k).map fun part => part.length + byteLength separator.toList).sum

theorem startOf_zero (separator : String) (parts : List Text) : startOf separator parts 0 = 0 := rfl

theorem startOf_succ (separator : String) (part : Text) (rest : List Text) (k : Nat) :
    startOf separator (part :: rest) (k + 1) =
      part.length + byteLength separator.toList + startOf separator rest k := rfl

/-- `part` carries the taint that `s` has from `start` on, with a split recorded on it as the part
with the index `index`, at the settings of `recorder` and under numbers that it has not used. -/
def PartAt (s : Text) (separator : String) (recorder : Recorder) (start index : Nat)
    (part : Text) : Prop :=
  ∃ current : Recorder, current.config = recorder.config ∧
    recorder.nextSerial ≤ current.nextSerial ∧ ∃ number, (∀ c, current.nextSerial ≤ number c) ∧
      part.taint.HasLabels fun p =>
        (Taint.windowLabel start (start + part.length) s.taint.chainAt p).map
          (current.recorded "split" [separator, toString index] number)

theorem PartAt.mono {separator : String} {start index : Nat} {part : Text}
    (partAt : PartAt s separator recorder' start index part)
    (config : recorder'.config = recorder.config)
    (later : recorder.nextSerial ≤ recorder'.nextSerial) :
    PartAt s separator recorder start index part := by
  obtain ⟨current, same, serial, labels⟩ := partAt
  exact ⟨current, same.trans config, Nat.le_trans later serial, labels⟩

/-- The first piece is in the positions, and so are the others behind a separator. -/
theorem bounded_of_intercalate_cons {start : Nat} {rest : List (List Char)}
    (bounded : start + byteLength (List.intercalate separator (piece :: rest)) ≤ Position.last) :
    start + byteLength piece ≤ Position.last ∧
      (rest = [] ∨ start + byteLength piece + byteLength separator +
        byteLength (List.intercalate separator rest) ≤ Position.last) := by
  by_cases single : rest = []
  · rw [single, List.intercalate_singleton] at bounded
    exact ⟨bounded, .inl single⟩
  · rw [List.intercalate_cons_of_ne_nil single, Utf8.byteLength_append, Utf8.byteLength_append]
      at bounded
    exact ⟨by omega, .inr (by omega)⟩

/-- The pieces are all cut out and recorded.  The induction is on the pieces, for any offset of the
first of them and whatever has been recorded before. -/
theorem exists_recordPieces (wf : s.WellFormed) {separator : String} {pieces : List (List Char)}
    {start : Nat} (index : Nat) (recorder : Recorder)
    (bounded : pieces = [] ∨
      start + byteLength (List.intercalate separator.toList pieces) ≤ Position.last) :
    ∃ parts recorder', s.recordPieces separator start index recorder pieces =
        .ok (parts, recorder') ∧ parts.map characters = pieces ∧
      ∀ k part, parts[k]? = some part →
        PartAt s separator recorder (start + startOf separator parts k) (index + k) part := by
  induction pieces generalizing start index recorder with
  | nil => exact ⟨[], recorder, rfl, rfl, nofun⟩
  | cons piece rest ih =>
    obtain ⟨stops, others⟩ := bounded_of_intercalate_cons (bounded.resolve_left (by simp))
    obtain ⟨window, cutOut, labels⟩ :=
      Taint.subtaint_spec wf (Nat.le_add_right start (byteLength piece))
    obtain ⟨number, fresh, labelsLast⟩ :=
      recorder.record_spec labels.wellFormed "split" [separator, toString index]
    obtain ⟨parts, recorder', run, chars, partsAt⟩ := ih (index + 1)
      (recorder.record window "split" [separator, toString index]).2 others
    refine ⟨⟨String.ofList piece, (recorder.record window "split" [separator, toString index]).1⟩ ::
      parts, recorder', ?_, ?_, ?_⟩
    · rw [recordPieces, Position.ofOffset_eq_ok (by omega), Position.ofOffset_eq_ok stops]
      simp only [bind, Except.bind, cutOut, run]
      rfl
    · rw [List.map_cons, chars, characters_ofList]
    · rintro (_ | k) part found
      · cases found
        refine ⟨recorder, rfl, Nat.le_refl _, number, fresh, labelsLast.congr fun p => ?_⟩
        rw [labels.chainAt, length_ofList, startOf_zero, Nat.add_zero, Nat.add_zero]
      · have partAt := partsAt k part found
        have counted : index + (k + 1) = index + 1 + k := by omega
        rw [startOf_succ, length_ofList, counted, ← Nat.add_assoc, ← Nat.add_assoc]
        exact partAt.mono (recorder.config_record ..) (recorder.nextSerial_le_record ..)

/-! ## Joining the parts again -/

theorem PartAt.labels_of_disabled {separator : String} {start index : Nat} {part : Text}
    (partAt : PartAt s separator recorder start index part)
    (off : recorder.config.enabled = false) :
    part.taint.HasLabels (Taint.windowLabel start (start + part.length) s.taint.chainAt) := by
  obtain ⟨current, same, -, number, -, labels⟩ := partAt
  refine labels.congr fun p => ?_
  unfold Recorder.recorded
  rw [same, off]
  exact Option.map_id'

/-- A text with the first bytes of another, and their taint, is continued by the window that follows
them. -/
theorem exists_concat_window {front part : Text}
    (bounded : front.length + part.length ≤ Position.last)
    (labels : front.taint.HasLabels (Taint.windowLabel 0 front.length s.taint.chainAt))
    (labels' : part.taint.HasLabels
      (Taint.windowLabel front.length (front.length + part.length) s.taint.chainAt)) :
    ∃ r, front.concat part = .ok r ∧ r.characters = front.characters ++ part.characters ∧
      r.taint.HasLabels (Taint.windowLabel 0 r.length s.taint.chainAt) := by
  have stops : front.taint.stop ≤ front.length := labels.stop_le_of_window
  have stops' := labels'.stop_le_of_window
  obtain ⟨taint, joined, both⟩ :=
    Taint.concatOf_spec labels.wellFormed labels'.wellFormed stops (by omega)
  have chars : characters ⟨front.value ++ part.value, taint⟩ =
      front.characters ++ part.characters := String.toList_append
  refine ⟨_, ?_, chars, both.congr fun p => ?_⟩
  · rw [concat, Position.ofOffset_eq_ok (by omega)]
    simp only [bind, Except.bind, joined]
    rfl
  · have lengthBoth : length ⟨front.value ++ part.value, taint⟩ = front.length + part.length := by
      rw [length, chars, Utf8.byteLength_append]
      rfl
    rw [lengthBoth, funext labels.chainAt, funext labels'.chainAt]
    exact Taint.joinedLabel_window (Nat.zero_le _) (Nat.le_add_right ..) p

/-- Parts that follow each other directly, put behind the text in front of them, make up the text
that they are cut out of.  The induction is on the parts, for any text in front of them. -/
theorem concat_parts {parts : List Text} {front : Text} (index : Nat) (wf : s.WellFormed)
    (within : s.Within) (bounded : s.length ≤ Position.last)
    (off : recorder.config.enabled = false)
    (chars : s.characters = front.characters ++ parts.flatMap characters)
    (labels : front.taint.HasLabels (Taint.windowLabel 0 front.length s.taint.chainAt))
    (partsAt : ∀ k part, parts[k]? = some part →
      PartAt s "" recorder (front.length + startOf "" parts k) (index + k) part) :
    parts.foldlM concat front = .ok s := by
  induction parts generalizing front index with
  | nil =>
    rw [List.flatMap_nil, List.append_nil] at chars
    have length : front.length = s.length := congrArg byteLength chars.symm
    have whole : front.taint.HasLabels s.taint.chainAt := labels.congr fun p => by
      rw [length, Taint.windowLabel_whole (Taint.WellFormed.stop_le_iff wf |>.mp within)]
    have same : front = s := eq_of_characters chars.symm (whole.unique ⟨wf, fun _ => rfl⟩)
    rw [List.foldlM_nil, same]
    rfl
  | cons part rest ih =>
    have total : s.length = front.length + (part.length + byteLength (rest.flatMap characters)) := by
      rw [length, chars, List.flatMap_cons, Utf8.byteLength_append, Utf8.byteLength_append]
      rfl
    have first := (partsAt 0 part rfl).labels_of_disabled off
    obtain ⟨r, joined, charsBoth, labelsBoth⟩ := exists_concat_window (by omega) labels first
    have lengthBoth : r.length = front.length + part.length := by
      rw [length, charsBoth, Utf8.byteLength_append]
      rfl
    rw [List.foldlM_cons, joined]
    refine ih (index + 1) ?_ labelsBoth fun k other found => ?_
    · rw [charsBoth, chars, List.flatMap_cons, List.append_assoc]
    · have partAt := partsAt (k + 1) other found
      have moved : front.length + startOf "" (part :: rest) (k + 1) =
          r.length + startOf "" rest k := by
        rw [startOf_succ, lengthBoth]
        change _ + (part.length + 0 + _) = _
        omega
      have counted : index + (k + 1) = index + 1 + k := by omega
      rwa [moved, counted] at partAt

/-! ## Splitting -/

/-- A split that succeeds or fails leaves the text that it is given. -/
theorem value?_step_split (session : Session) {name separator target : String}
    (held : session.value? name = some (.text s)) (other : ∀ i : Nat, name ≠ s!"{target}.{i}") :
    (session.step (.split name separator target)).value? name = some (.text s) := by
  have records : SessionM.Records (Session.Command.split name separator target).Sets []
      (Session.Command.split name separator target).run (·.flatMap Value.chains) :=
    Session.Command.records_run _
  exact (records.frame session name fun ⟨i, same⟩ => other i same).trans held

/-- **Splitting partitions a text and its taint.**  The parts joined with the separator are the
value again, and none of them contains a separator that is not empty.  Every part carries the taint
that was where it starts, with a split recorded on it if recording is on.  An empty separator splits
a text with taint within its value into its characters, which make it up again when they are put
behind each other, unless the split has been recorded.  In a session the text keeps its name. -/
theorem split_partitions (wf : s.WellFormed) (bounded : s.length ≤ Position.last)
    (recorder : Recorder) (separator : String) :
    ∃ parts recorder', s.split separator recorder = .ok (parts, recorder') ∧
      separator.intercalate (parts.map Text.value) = s.value ∧
      (separator ≠ "" → ∀ part ∈ parts, ¬ separator.toList <:+: part.characters) ∧
      (∀ k part, parts[k]? = some part →
        PartAt s separator recorder (startOf separator parts k) k part) ∧
      (separator = "" → parts.map characters = s.characters.map ([·]) ∧
        (recorder.config.enabled = false → s.Within →
          parts.foldlM concat { value := "" } = .ok s)) ∧
      ∀ (session : Session) (name target : String), session.value? name = some (.text s) →
        (∀ i : Nat, name ≠ s!"{target}.{i}") →
        (session.step (.split name separator target)).value? name = some (.text s) := by
  have whole := intercalate_pieces separator.toList s.characters
  have inPositions : 0 + byteLength
      (List.intercalate separator.toList (pieces separator.toList s.characters)) ≤
        Position.last := by
    rwa [whole, Nat.zero_add]
  obtain ⟨parts, recorder', done, chars, partsAt⟩ :=
    exists_recordPieces wf 0 recorder (.inr inPositions)
  have partsAt : ∀ k part, parts[k]? = some part →
      PartAt s separator recorder (startOf separator parts k) k part := fun k part found => by
    have partAt := partsAt k part found
    rwa [Nat.zero_add, Nat.zero_add] at partAt
  refine ⟨parts, recorder', done, ?_, fun filled part mem => ?_, partsAt, fun empty => ?_,
    fun session name target held other => value?_step_split session held other⟩
  · have values : (parts.map Text.value).map String.toList = parts.map characters :=
      List.map_map ..
    rw [← String.toList_inj, String.toList_intercalate, values, chars]
    exact whole
  · have mem : part.characters ∈ pieces separator.toList s.characters :=
      chars ▸ List.mem_map_of_mem mem
    exact not_infix_of_mem_pieces (mt String.toList_eq_nil_iff.mp filled) mem
  · subst empty
    refine ⟨chars, fun off within => concat_parts 0 wf within bounded off ?_ ?_ ?_⟩
    · have singletons : parts.map characters = s.characters.map ([·]) := chars
      rw [List.flatMap_def, singletons, ← List.flatMap_def, List.flatMap_singleton']
      rfl
    · exact ⟨Taint.wellFormed_untainted, fun p => (if_neg (Nat.not_lt_zero p)).symm⟩
    · intro k part found
      rw [Nat.zero_add]
      exact (Nat.zero_add (startOf "" parts k)).symm ▸ partsAt k part found

/-- A separator that overlaps itself is found where it starts first; the range around it is left in
both parts.  Single characters make up the text again. -/
theorem split_partitions_overlapping :
    let s : Text :=
      ⟨"aéXXXb", ⟨some [⟨2, 6, .ofSource { name := "read" } 0, by decide, by decide⟩]⟩⟩
    (∃ parts recorder', s.split "XX" {} = .ok (parts, recorder') ∧
      "XX".intercalate (parts.map Text.value) = "aéXXXb" ∧
      (∀ part ∈ parts, ¬ ['X', 'X'] <:+: part.characters) ∧
      (∀ part, parts[1]? = some part → PartAt s "XX" {} (startOf "XX" parts 1) 1 part) ∧
      (Session.step { values := [("s", .text s)] } (.split "s" "XX" "part")).value? "s" =
        some (.text s)) ∧
    ∃ parts recorder', s.split "" { config := { enabled := false } } = .ok (parts, recorder') ∧
      parts.map characters = [['a'], ['é'], ['X'], ['X'], ['X'], ['b']] ∧
      parts.foldlM concat { value := "" } = .ok s := by
  intro s
  have wf : s.WellFormed := by decide
  have bounded : s.length ≤ Position.last := by decide
  have other (i : Nat) : "s" ≠ s!"part.{i}" := fun same =>
    absurd (congrArg (·.toList.head?) same) (by simp [toString])
  obtain ⟨parts, recorder', done, joined, free, partsAt, -, kept⟩ :=
    split_partitions wf bounded {} "XX"
  obtain ⟨singles, recorder'', done', -, -, -, each, -⟩ :=
    split_partitions wf bounded { config := { enabled := false } } ""
  exact ⟨⟨parts, recorder', done, joined, free (by decide), partsAt 1,
      kept { values := [("s", .text s)] } "s" "part" rfl other⟩,
    singles, recorder'', done', (each rfl).1.trans (by decide), (each rfl).2 rfl (by decide)⟩

end Text

end TextProvenance
