import TextProvenance.Proofs.Taint.Gap
import TextProvenance.Proofs.Taint.Record
import TextProvenance.Proofs.Taint.Window
import TextProvenance.Proofs.Text.Labelled
import TextProvenance.Proofs.Text.WellFormed

/-!
# Edits of texts as edits of lists of labelled bytes

Value and taint of a text are edited apart from each other.  `Text.Spliced` says that they have both
been edited in the same way: characters have been put in the place of others, and labels in the
place of theirs.  From it follows what has become of the labelled bytes (`Text.Spliced.labelled`)
and that the taint still stops within the value (`Text.Spliced.within`).

`Text.edits_refine` has all edits of texts with taint within their values.
-/

namespace TextProvenance

namespace Text

open Utf8 (byteLength Cut Boundary)

variable {s s' o : Text} {cut : Cut} {label inserted : Nat → Option Chain} {index n : Nat}

theorem characters_ofList (chars : List Char) (taint : Taint) :
    characters ⟨String.ofList chars, taint⟩ = chars :=
  String.toList_ofList

theorem isEmpty_iff (o : Text) : o.isEmpty = true ↔ o.length = 0 := by
  unfold isEmpty length
  rw [List.isEmpty_iff]
  exact ⟨fun nothing => by rw [nothing]; rfl, Utf8.eq_nil_of_byteLength⟩

theorem length_pos (filled : ¬ o.isEmpty = true) : 0 < o.length :=
  Nat.pos_of_ne_zero fun zero => filled ((isEmpty_iff o).mpr zero)

/-! ## Spliced texts -/

/-- The chain of position `p` after `added` positions have been put in the place of `removed` ones
at `start`. -/
def splicedLabel (start removed added : Nat) (label inserted : Nat → Option Chain) (p : Nat) :
    Option Chain :=
  if p < start then label p
  else if p < start + added then inserted (p - start)
  else label (p - added + removed)

theorem splicedLabel_nothing (start removed p : Nat) :
    splicedLabel start removed 0 label inserted p =
      if p < start then label p else label (p + removed) := by
  unfold splicedLabel
  split
  · rfl
  · rw [Nat.add_zero, if_neg ‹_›, Nat.sub_zero]

/-- `s'` is `s`, taken apart as `cut`, with `o` in the place of the middle. -/
structure Spliced (cut : Cut) (s o s' : Text) : Prop where
  before : s.characters = cut.front ++ (cut.middle ++ cut.back)
  after : s'.characters = cut.fill o.characters
  labels : s'.taint.HasLabels
    (splicedLabel (byteLength cut.front) (byteLength cut.middle) o.length s.taint.chainAt
      o.taint.chainAt)

theorem bytes_of_characters {front middle back : List Char}
    (chars : s.characters = front ++ (middle ++ back)) :
    s.bytes = Utf8.encode front ++ (Utf8.encode middle ++ Utf8.encode back) := by
  rw [bytes_eq_encode, chars, Utf8.encode_append, Utf8.encode_append]

theorem Spliced.labelled (spliced : Spliced cut s o s') :
    s'.labelled =
      s.labelled.take (byteLength cut.front) ++ o.labelled ++
        s.labelled.drop (byteLength cut.front + byteLength cut.middle) := by
  rcases spliced with ⟨before, after, labels⟩
  have bytes := bytes_of_characters before
  have bytes' : s'.bytes = Utf8.encode cut.front ++ o.bytes ++ Utf8.encode cut.back := by
    rw [bytes_eq_encode, after, Cut.fill, Utf8.encode_append, Utf8.encode_append,
      bytes_eq_encode]
  have front := Utf8.length_encode cut.front
  have middle := Utf8.length_encode cut.middle
  have added := length_bytes o
  unfold Text.labelled
  rw [bytes', labelledBy_append, labelledBy_append, bytes, take_labelledBy front,
    ← List.append_assoc, drop_labelledBy (by rw [List.length_append, front, middle])]
  congr 1
  · congr 1
    · refine labelledBy_congr fun i inside => ?_
      rw [labels.chainAt, splicedLabel, if_pos (by omega)]
    · refine labelledBy_congr fun i inside => ?_
      rw [labels.chainAt, splicedLabel, if_neg (by omega), if_pos (by omega)]
      congr 1
      omega
  · refine labelledBy_congr fun i _ => ?_
    rw [labels.chainAt, splicedLabel, List.length_append, if_neg (by omega), if_neg (by omega)]
    congr 1
    omega

theorem Spliced.within (spliced : Spliced cut s o s') (wf : s.WellFormed) (wfOther : o.WellFormed)
    (within : s.Within) (withinOther : o.Within) : s'.Within := by
  rcases spliced with ⟨before, after, labels⟩
  have length :
      s.length = byteLength cut.front + (byteLength cut.middle + byteLength cut.back) := by
    rw [Text.length, before, Utf8.byteLength_append, Utf8.byteLength_append]
  have length' : s'.length = byteLength cut.front + o.length + byteLength cut.back := by
    rw [Text.length, after, Cut.fill, Utf8.byteLength_append, Utf8.byteLength_append, Text.length]
  refine labels.wellFormed.stop_le_iff.mpr fun p late => ?_
  rw [labels.chainAt, splicedLabel]
  have clean := wf.stop_le_iff.mp within
  have cleanOther := wfOther.stop_le_iff.mp withinOther
  split
  · omega
  · split
    · exact cleanOther _ (by omega)
    · exact clean _ (by omega)

/-! ## Edits of the taint -/

theorem onTaint_of_done {edit : Edit Taint} {taint : Taint}
    (done : edit s.taint = { state := taint }) :
    onTaint edit s = { state := s.withTaint taint } := by
  rw [onTaint, Edit.within, done]

theorem onTaint_of_stopped {edit : Edit Taint} {taint : Taint} {fault : Fault}
    (stopped : edit s.taint = { state := taint, fault := some fault }) :
    onTaint edit s = { state := s.withTaint taint, fault := some fault } := by
  rw [onTaint, Edit.within, stopped]

theorem exists_of_onTaint_step {change : Taint → Except Fault Taint}
    (done : onTaint (Edit.step change) s = { state := s' }) :
    ∃ taint, change s.taint = .ok taint ∧ s' = s.withTaint taint := by
  cases changed : change s.taint with
  | error fault =>
    rw [onTaint_of_stopped (Edit.step_of_error changed)] at done
    cases done
  | ok taint =>
    rw [onTaint_of_done (Edit.step_of_ok changed)] at done
    cases done
    exact ⟨taint, rfl, rfl⟩

theorem exists_shiftTaint {amount : Int} (target : Nat) (wf : s.WellFormed)
    (reached : (index : Int) + amount = target) (word : Position.FitsWord (index + amount))
    (fits : s.taint.stop ≤ index ∨ s.taint.stop + amount ≤ Position.last) :
    ∃ taint, shiftTaint index amount s = { state := s.withTaint taint } ∧
      taint.HasLabels (Taint.shiftedLabel index target s.taint.chainAt) := by
  obtain ⟨taint, ok, labels⟩ := Taint.shift_spec wf reached word fits
  have done : Edit.step (·.shift index amount) s.taint = { state := taint } :=
    Edit.step_of_ok ok
  exact ⟨taint, onTaint_of_done done, labels⟩

/-- Room is made for other taint, and the other taint fits into it. -/
theorem exists_spliceTaint (index : Nat) (wf : s.WellFormed) (wfOther : o.WellFormed)
    (within : o.Within) (filled : 0 < o.length) (room : index + o.length ≤ Position.last)
    (fits : s.taint.stop + o.length ≤ Position.last) :
    ∃ taint, spliceTaint index o s = { state := s.withTaint taint } ∧
      taint.HasLabels (splicedLabel index 0 o.length s.taint.chainAt o.taint.chainAt) := by
  obtain ⟨opened, taint, shift, -, insert, labels⟩ :=
    Taint.exists_gap_filled wf wfOther filled within room fits
  have shifted : Edit.step (·.shift index o.length) s.taint = { state := opened } :=
    Edit.step_of_ok shift
  have inserted : Edit.step (·.insert index o.taint) (s.withTaint opened).taint =
      { state := taint } := Edit.step_of_ok insert
  refine ⟨taint, ?_, labels⟩
  unfold spliceTaint shiftTaint
  rw [Edit.given_of_ok (Position.ofOffset_eq_ok (by omega)),
    Edit.andThen_of_done (onTaint_of_done shifted)]
  exact onTaint_of_done inserted

/-! ## Edits -/

theorem cut_eq_ok (found : Utf8.cut? index n s.characters = some cut) :
    s.cut index n = .ok cut := by
  rw [Text.cut, found]

theorem replaceValue_of_cut {value : String} (found : Utf8.cut? index n s.characters = some cut) :
    replaceValue index n value s =
      { state := { s with value := String.ofList (cut.fill value.toList) } } := by
  rw [replaceValue, Edit.given_of_ok (cut_eq_ok found), setValue]

theorem replaceValue_of_error {value : String} {fault : Fault}
    (fails : s.cut index n = .error fault) :
    replaceValue index n value s = { state := s, fault := some fault } := by
  rw [replaceValue, Edit.given_of_error fails, Edit.fail]

/-- The offsets of a cut, and the length of the text. -/
theorem lengths_of_cut (found : Utf8.cut? index n s.characters = some cut) :
    byteLength cut.front = index ∧ byteLength cut.middle = n - index ∧ index ≤ n ∧
      s.length = n + byteLength cut.back := by
  rcases Utf8.cut?_eq_some_iff.mp found with ⟨ordered, chars, front, middle⟩
  refine ⟨front, middle, ordered, ?_⟩
  rw [length, chars, Utf8.byteLength_append, Utf8.byteLength_append]
  omega

theorem Spliced.of_cut {taint : Taint} (found : Utf8.cut? index n s.characters = some cut)
    (labels : taint.HasLabels
      (splicedLabel index (n - index) o.length s.taint.chainAt o.taint.chainAt)) :
    Spliced cut s o ⟨String.ofList (cut.fill o.characters), taint⟩ := by
  rcases Utf8.cut?_eq_some_iff.mp found with ⟨-, chars, front, middle⟩
  exact ⟨chars, characters_ofList .., by rwa [front, middle]⟩

theorem exists_insert (wf : s.WellFormed) (wfOther : o.WellFormed) (within : s.Within)
    (withinOther : o.Within) (fits : s.length + o.length ≤ Position.last)
    (found : Utf8.cut? index index s.characters = some cut) :
    ∃ r, insert index o s = { state := r } ∧ Spliced cut s o r := by
  rcases lengths_of_cut found with ⟨front, middle, -, length⟩
  have stops : s.taint.stop ≤ s.length := within
  unfold insert
  by_cases nothing : o.isEmpty = true
  · rw [if_pos nothing]
    have noChars : o.characters = [] := List.isEmpty_iff.mp nothing
    have noMiddle : cut.middle = [] := Utf8.eq_nil_of_byteLength (by omega)
    rcases Utf8.cut?_eq_some_iff.mp found with ⟨-, chars, -, -⟩
    refine ⟨s, rfl, chars, ?_, wf, fun p => ?_⟩
    · rw [chars, Cut.fill, noMiddle, noChars, List.append_nil, List.nil_append]
    · rw [(isEmpty_iff o).mp nothing, middle, splicedLabel_nothing, Nat.sub_self, Nat.add_zero,
        ite_self]
  · have filled : 0 < o.length := Nat.pos_of_ne_zero fun zero => nothing ((isEmpty_iff o).mpr zero)
    rw [if_neg nothing, Edit.andThen_of_done (replaceValue_of_cut found),
      Edit.given_of_ok (Position.ofOffset_eq_ok (by omega))]
    obtain ⟨taint, splice, labels⟩ := exists_spliceTaint index
      (s := ⟨String.ofList (cut.fill o.characters), s.taint⟩) wf wfOther withinOther filled
      (by omega) (show s.taint.stop + o.length ≤ Position.last by omega)
    exact ⟨_, splice, .of_cut found (by rwa [Nat.sub_self])⟩

/-- The labels behind a deletion have moved to its start. -/
theorem exists_deleteTaint (wf : s.WellFormed) (ordered : index ≤ n)
    (bounded : n ≤ Position.last) :
    ∃ taint, shiftTaint n (-((n - index : Nat) : Int)) s = { state := s.withTaint taint } ∧
      taint.HasLabels fun p =>
        if p < index then s.taint.chainAt p else s.taint.chainAt (p + (n - index)) := by
  have last := s.taint.stop_le_last
  have word : Position.FitsWord ((n : Int) + -((n - index : Nat) : Int)) :=
    Position.fitsWord_of_le_last (by omega) (by omega)
  obtain ⟨taint, shift, labels⟩ := exists_shiftTaint index wf (by omega) word (.inr (by omega))
  refine ⟨taint, shift, labels.wellFormed, fun p => ?_⟩
  rw [labels.chainAt, Taint.shiftedLabel, Nat.min_eq_right ordered]
  split
  · rfl
  · congr 1
    omega

theorem exists_remove (wf : s.WellFormed) (bounded : s.length ≤ Position.last)
    (found : Utf8.cut? index n s.characters = some cut) :
    ∃ r, remove index n s = { state := r } ∧ Spliced cut s { value := "" } r := by
  rcases lengths_of_cut found with ⟨-, -, ordered, length⟩
  obtain ⟨taint, shift, labels⟩ := exists_deleteTaint
    (s := ⟨String.ofList (cut.fill []), s.taint⟩) wf ordered (by omega)
  refine ⟨_, ?_, .of_cut (o := { value := "" }) found ⟨labels.wellFormed, fun p => ?_⟩⟩
  · unfold remove
    rw [Edit.andThen_of_done (replaceValue_of_cut found),
      Edit.given_of_ok (Position.ofOffset_eq_ok (by omega)),
      Edit.given_of_ok (Position.ofOffset_eq_ok (by omega))]
    exact shift
  · rw [labels.chainAt]
    exact (splicedLabel_nothing ..).symm

/-- A substitution deletes the taint of the middle before it puts other taint in its place. -/
theorem exists_substitute_eq (wf : s.WellFormed) (bounded : s.length ≤ Position.last)
    (found : Utf8.cut? index n s.characters = some cut) :
    ∃ deleted : Taint,
      (deleted.HasLabels fun p =>
        if p < index then s.taint.chainAt p else s.taint.chainAt (p + (n - index))) ∧
      substitute cut index n o s =
        (if o.isEmpty then Edit.nothing else spliceTaint index o)
          ⟨String.ofList (cut.fill o.characters), deleted⟩ := by
  rcases lengths_of_cut found with ⟨-, -, ordered, length⟩
  have sum : Position.add index (n - index) = .ok n := by
    rw [Position.add, if_pos (by omega), Nat.add_sub_cancel' ordered]
  have set : setValue (String.ofList (cut.fill o.characters)) s =
      { state := ⟨String.ofList (cut.fill o.characters), s.taint⟩ } := rfl
  obtain ⟨deleted, delete, labels⟩ := exists_deleteTaint
    (s := ⟨String.ofList (cut.fill o.characters), s.taint⟩) wf ordered (by omega)
  refine ⟨deleted, labels, ?_⟩
  unfold substitute
  rw [Edit.given_of_ok (Position.ofOffset_eq_ok (by omega)),
    Edit.given_of_ok (Position.ofOffset_eq_ok (by omega)), Edit.andThen_of_done set,
    Edit.given_of_ok sum, Edit.andThen_of_done delete]
  rfl

theorem exists_substitute (wf : s.WellFormed) (wfOther : o.WellFormed) (within : s.Within)
    (withinOther : o.Within) (fits : s.length + o.length ≤ Position.last)
    (found : Utf8.cut? index n s.characters = some cut) :
    ∃ r, substitute cut index n o s = { state := r } ∧ Spliced cut s o r := by
  rcases lengths_of_cut found with ⟨-, -, ordered, length⟩
  have clean := wf.stop_le_iff.mp within
  obtain ⟨deleted, deletedLabels, substituted⟩ :=
    exists_substitute_eq (o := o) wf (by omega) found
  have stops : deleted.stop ≤ s.length := by
    refine deletedLabels.wellFormed.stop_le_iff.mpr fun p late => ?_
    rw [deletedLabels.chainAt]
    split
    · exact clean p late
    · exact clean _ (by omega)
  rw [substituted]
  by_cases nothing : o.isEmpty = true
  · rw [if_pos nothing]
    refine ⟨_, rfl, .of_cut found ⟨deletedLabels.wellFormed, fun p => ?_⟩⟩
    rw [deletedLabels.chainAt, (isEmpty_iff o).mp nothing, splicedLabel_nothing]
  · have filled : 0 < o.length := Nat.pos_of_ne_zero fun zero => nothing ((isEmpty_iff o).mpr zero)
    obtain ⟨taint, splice, labels⟩ := exists_spliceTaint index
      (s := ⟨String.ofList (cut.fill o.characters), deleted⟩) deletedLabels.wellFormed wfOther
      withinOther filled (by omega) (show deleted.stop + o.length ≤ Position.last by omega)
    rw [if_neg nothing]
    refine ⟨_, splice, .of_cut found ⟨labels.wellFormed, fun p => ?_⟩⟩
    rw [labels.chainAt, splicedLabel, splicedLabel]
    split
    · rw [deletedLabels.chainAt, if_pos ‹_›]
    · split
      · rfl
      · rw [deletedLabels.chainAt, if_neg (by omega)]
        rfl

theorem Spliced.of_joined {taint : Taint} (wf : s.WellFormed) (wfOther : o.WellFormed)
    (within : s.Within) (withinOther : o.Within)
    (labels : taint.HasLabels (Taint.joinedLabel s.length s.taint.chainAt o.taint.chainAt)) :
    Spliced ⟨s.characters, [], []⟩ s o ⟨s.value ++ o.value, taint⟩ := by
  have clean := wf.stop_le_iff.mp within
  have cleanOther := wfOther.stop_le_iff.mp withinOther
  refine ⟨by simp, ?_, labels.wellFormed, fun p => ?_⟩
  · simp [characters, Cut.fill]
  · rw [labels.chainAt, Taint.joinedLabel, splicedLabel]
    change (if p < s.length then _ else _) = if p < s.length then _ else _
    split
    · rfl
    · change _ = if p < s.length + o.length then _ else _
      split
      · rfl
      · rw [cleanOther _ (by omega)]
        exact (clean _ (by omega)).symm

theorem exists_concat (wf : s.WellFormed) (wfOther : o.WellFormed) (within : s.Within)
    (withinOther : o.Within) (fits : s.length + o.length ≤ Position.last) :
    ∃ taint, Taint.concat o.taint s.length s.taint = { state := taint } ∧
      Spliced ⟨s.characters, [], []⟩ s o ⟨s.value ++ o.value, taint⟩ := by
  have stops : o.taint.stop ≤ o.length := withinOther
  obtain ⟨taint, done, labels⟩ := Taint.concat_spec wf wfOther within
    (show o.taint.stop + s.length ≤ Position.last by omega)
  exact ⟨taint, done, .of_joined wf wfOther within withinOther labels⟩

/-! ## Recorded texts -/

/-- Labelled bytes with an operation recorded on all their chains, under numbers not used before, or
on none of them. -/
def Recorded (recorder : Recorder) (name : String) (arguments : List String)
    (before after : List (UInt8 × Option Chain)) : Prop :=
  ∃ number, (∀ c, recorder.nextSerial ≤ number c) ∧
    after = before.map fun (byte, c) =>
      (byte, c.map (recorder.recorded name arguments number))

theorem recorded_record (wf : s.WellFormed) (within : s.Within) (recorder : Recorder)
    (name : String) (arguments : List String) :
    (s.withTaint (recorder.record s.taint name arguments).1).Within ∧
      Recorded recorder name arguments s.labelled
        (s.withTaint (recorder.record s.taint name arguments).1).labelled := by
  obtain ⟨number, fresh, labels⟩ := recorder.record_spec wf name arguments
  constructor
  · have same := labels.wellFormed.stop_congr wf fun p => by
      rw [labels.chainAt, Option.map_eq_none_iff]
    exact Nat.le_trans (Nat.le_of_eq same) within
  · refine ⟨number, fresh, ?_⟩
    unfold labelled
    rw [← map_labelledBy]
    exact labelledBy_congr fun i _ => labels.chainAt i

/-- The window between two offsets as a text of its own. -/
theorem window_labelled {taint : Taint} (found : Utf8.cut? index n s.characters = some cut)
    (labels : taint.HasLabels (Taint.windowLabel index n s.taint.chainAt)) :
    Within ⟨String.ofList cut.middle, taint⟩ ∧
      labelled ⟨String.ofList cut.middle, taint⟩ = s.labelled.extract index n := by
  rcases Utf8.cut?_eq_some_iff.mp found with ⟨ordered, chars, front, middle⟩
  have bytes := bytes_of_characters chars
  have lengthFront := Utf8.length_encode cut.front
  have lengthMiddle := Utf8.length_encode cut.middle
  constructor
  · have stops : taint.stop ≤ n - index := labels.stop_le_of_window
    rwa [Within, length, characters_ofList, middle]
  · unfold labelled
    rw [bytes_eq_encode, characters_ofList, bytes, List.extract_eq_take_drop,
      drop_labelledBy (by omega), take_labelledBy (by omega)]
    refine labelledBy_congr fun i inside => ?_
    rw [labels.chainAt, Taint.windowLabel, if_pos (by omega), Nat.add_comm]

/-! ## All edits -/

theorem bytes_middle (found : Utf8.cut? index n s.characters = some cut) :
    bytes { value := String.ofList cut.middle } = s.bytes.extract index n := by
  rcases Utf8.cut?_eq_some_iff.mp found with ⟨-, chars, front, middle⟩
  rw [bytes_of_characters chars, bytes_eq_encode, characters_ofList, List.extract_eq_take_drop,
    List.drop_left' (by rw [Utf8.length_encode, front]),
    List.take_left' (by rw [Utf8.length_encode, middle])]

/-- A replacement is a substitution that is recorded. -/
theorem replace_of_substitute {r : Text} (recorder : Recorder)
    (found : Utf8.cut? index n s.characters = some cut)
    (done : substitute cut index n o s = { state := r }) :
    replace index n o (s, recorder) =
      recordOn "replace" [String.ofList cut.middle, o.value] (r, recorder) := by
  have first : Edit.within Prod.fst (fun state s => (s, state.2)) (substitute cut index n o)
      (s, recorder) = { state := (r, recorder) } := by
    rw [Edit.within, done]
  simp only [replace]
  rw [Edit.given_of_ok (cut_eq_ok found), Edit.andThen_of_done first]

theorem exists_replace (wf : s.WellFormed) (wfOther : o.WellFormed) (within : s.Within)
    (withinOther : o.Within) (fits : s.length + o.length ≤ Position.last) (recorder : Recorder)
    (found : Utf8.cut? index n s.characters = some cut) :
    ∃ r recorder', replace index n o (s, recorder) = { state := (r, recorder') } ∧ r.Within ∧
      Recorded recorder "replace" [String.ofList cut.middle, o.value]
        (s.labelled.take index ++ o.labelled ++ s.labelled.drop n) r.labelled := by
  rcases lengths_of_cut found with ⟨front, middle, ordered, -⟩
  obtain ⟨substituted, done, spliced⟩ :=
    exists_substitute wf wfOther within withinOther fits found
  have labelled := spliced.labelled
  rw [front, middle, Nat.add_sub_cancel' ordered] at labelled
  obtain ⟨withinLast, recorded⟩ := recorded_record spliced.labels.wellFormed
    (spliced.within wf wfOther within withinOther) recorder "replace"
    [String.ofList cut.middle, o.value]
  exact ⟨_, (recorder.record substituted.taint "replace" [String.ofList cut.middle, o.value]).2,
    replace_of_substitute recorder found done, withinLast, labelled ▸ recorded⟩

theorem exists_substring (wf : s.WellFormed) (bounded : s.length ≤ Position.last)
    (recorder : Recorder) (found : Utf8.cut? index n s.characters = some cut) :
    ∃ r recorder', s.substring index n recorder = .ok (r, recorder') ∧ r.Within ∧
      Recorded recorder "substring" [toString index, toString n] (s.labelled.extract index n)
        r.labelled := by
  rcases lengths_of_cut found with ⟨-, -, ordered, length⟩
  obtain ⟨window, cutOut, labels⟩ := Taint.subtaint_spec wf ordered
  rcases window_labelled found labels with ⟨within, labelled⟩
  obtain ⟨withinLast, recorded⟩ := recorded_record
    (s := ⟨String.ofList cut.middle, window⟩) labels.wellFormed within recorder "substring"
    [toString index, toString n]
  refine ⟨_, (recorder.record window "substring" [toString index, toString n]).2, ?_, withinLast,
    labelled ▸ recorded⟩
  unfold substring
  rw [cut_eq_ok found, Position.ofOffset_eq_ok (by omega), Position.ofOffset_eq_ok (by omega)]
  simp only [bind, Except.bind, cutOut]
  rfl

/-- **Edits of texts are edits of lists of labelled bytes.**  For texts with taint within their
values, all edits at offsets between characters succeed and do to the labelled bytes what they do to
the bytes; no result has taint behind the end of its value. -/
theorem edits_refine (wf : s.WellFormed) (wfOther : o.WellFormed) (within : s.Within)
    (withinOther : o.Within) (fits : s.length + o.length ≤ Position.last) (recorder : Recorder) :
    (∃ r, s.concat o = .ok r ∧ r.Within ∧ r.labelled = s.labelled ++ o.labelled) ∧
    (∃ r, push o s = { state := r } ∧ r.Within ∧ r.labelled = s.labelled ++ o.labelled) ∧
    (∀ i, Boundary s.characters i →
      ∃ r, insert i o s = { state := r } ∧ r.Within ∧
        r.labelled = s.labelled.take i ++ o.labelled ++ s.labelled.drop i) ∧
    ∀ b e, Boundary s.characters b → Boundary s.characters e → b ≤ e →
      (∃ r, remove b e s = { state := r } ∧ r.Within ∧
        r.labelled = s.labelled.take b ++ s.labelled.drop e) ∧
      (∃ r recorder' replaced, replace b e o (s, recorder) = { state := (r, recorder') } ∧
        r.Within ∧ bytes { value := replaced } = s.bytes.extract b e ∧
        Recorded recorder "replace" [replaced, o.value]
          (s.labelled.take b ++ o.labelled ++ s.labelled.drop e) r.labelled) ∧
      ∃ r recorder', s.substring b e recorder = .ok (r, recorder') ∧ r.Within ∧
        Recorded recorder "substring" [toString b, toString e] (s.labelled.extract b e)
          r.labelled := by
  have bounded : s.length ≤ Position.last := by omega
  have length : s.labelled.length = s.length := by
    rw [labelled, length_labelledBy, length_bytes]
  obtain ⟨taint, done, joined⟩ := exists_concat wf wfOther within withinOther fits
  have withinJoined := joined.within wf wfOther within withinOther
  have labelledJoined : labelled ⟨s.value ++ o.value, taint⟩ = s.labelled ++ o.labelled := by
    rw [joined.labelled]
    change s.labelled.take s.length ++ o.labelled ++ s.labelled.drop s.length = _
    rw [← length, List.take_length, List.drop_length, List.append_nil]
  refine ⟨⟨_, ?_, withinJoined, labelledJoined⟩, ⟨_, ?_, withinJoined, labelledJoined⟩,
    fun i boundary => ?_, fun b e boundary boundary' ordered => ⟨?_, ?_, ?_⟩⟩
  · rw [concat, Position.ofOffset_eq_ok bounded]
    simp only [bind, Except.bind, Taint.concatOf, Edit.result, done]
    rfl
  · rw [push, Edit.given_of_ok (Position.ofOffset_eq_ok bounded),
      Edit.andThen_of_done (onTaint_of_done done)]
    rfl
  · obtain ⟨cut, found⟩ := Utf8.exists_cut (Nat.le_refl i) boundary boundary
    rcases lengths_of_cut found with ⟨front, middle, -, -⟩
    obtain ⟨r, done, spliced⟩ := exists_insert wf wfOther within withinOther fits found
    refine ⟨r, done, spliced.within wf wfOther within withinOther, ?_⟩
    rw [spliced.labelled, front, middle, Nat.sub_self, Nat.add_zero]
  · obtain ⟨cut, found⟩ := Utf8.exists_cut ordered boundary boundary'
    rcases lengths_of_cut found with ⟨front, middle, -, -⟩
    obtain ⟨r, done, spliced⟩ := exists_remove wf bounded found
    refine ⟨r, done, spliced.within wf Taint.wellFormed_untainted within (Nat.zero_le _), ?_⟩
    have nothing : labelled { value := "" } = [] := rfl
    rw [spliced.labelled, front, middle, Nat.add_sub_cancel' ordered, nothing, List.append_nil]
  · obtain ⟨cut, found⟩ := Utf8.exists_cut ordered boundary boundary'
    obtain ⟨r, recorder', done, withinLast, recorded⟩ :=
      exists_replace wf wfOther within withinOther fits recorder found
    exact ⟨r, recorder', _, done, withinLast, bytes_middle found, recorded⟩
  · obtain ⟨cut, found⟩ := Utf8.exists_cut ordered boundary boundary'
    exact exists_substring wf bounded recorder found

/-- A range across two characters is taken apart where text is put in the place of the second. -/
theorem edits_refine_replaced :
    ∃ r recorder' replaced,
      replace 2 3 { value := "éé" }
        (⟨"äbc", ⟨some [⟨1, 4, .ofSource { name := "read" } 0, by decide, by decide⟩]⟩⟩, {}) =
          { state := (r, recorder') } ∧
      r.Within ∧ bytes { value := replaced } = [98] ∧
      Recorded {} "replace" [replaced, "éé"]
        [(195, none), (164, some (.ofSource { name := "read" } 0)), (195, none), (169, none),
          (195, none), (169, none), (99, some (.ofSource { name := "read" } 0))] r.labelled := by
  have refined := edits_refine (o := { value := "éé" })
    (s := ⟨"äbc", ⟨some [⟨1, 4, .ofSource { name := "read" } 0, by decide, by decide⟩]⟩⟩)
    (by decide) (by decide) (by decide) (by decide) (by decide) {}
  have first : Boundary ['ä', 'b', 'c'] 2 := ⟨['ä'], ['b', 'c'], rfl, rfl⟩
  have second : Boundary ['ä', 'b', 'c'] 3 := ⟨['ä', 'b'], ['c'], rfl, rfl⟩
  obtain ⟨r, recorder', replaced, done, within, bytes, recorded⟩ :=
    (refined.2.2.2 2 3 first second (by decide)).2.1
  exact ⟨r, recorder', replaced, done, within, bytes, recorded⟩

end Text

end TextProvenance
