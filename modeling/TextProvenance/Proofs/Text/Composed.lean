import TextProvenance.Proofs.Agree
import TextProvenance.Proofs.Taint.Extension
import TextProvenance.Proofs.Text.Atomic

/-!
# Edits of texts one after the other

Text that is put in the place of what an edit before it put there is put in the place of what was
there in the first place (`Text.Spliced.over`), and a text that a splice leaves is known by what was
put where (`Text.Spliced.unique`), as well-formed taint is canonical.  So edits that splice the same
leave the same text, wherever ranges were split at the offsets and joined again.

What was inserted can be removed, and what was cut out can be inserted again
(`Text.edits_undone`).  Replacing is removing and inserting
(`Text.replace_removes_and_inserts`), and recording it extends the chains of what is left.
Inserting is replacing no bytes, except that an empty text may be inserted anywhere
(`Text.insert_agrees_replace_iff`).
-/

namespace TextProvenance

namespace Text

open Utf8 (byteLength Cut Boundary)

variable {s s' s'' o o' : Text} {cut : Cut} {label inserted inserted' : Nat → Option Chain}
  {recorder : Recorder} {start removed added added' index n : Nat}

/-! ## Splices one after the other -/

theorem splicedLabel_over (p : Nat) :
    splicedLabel start added added' (splicedLabel start removed added label inserted) inserted' p =
      splicedLabel start removed added' label inserted' p := by
  unfold splicedLabel
  rcases Nat.lt_or_ge p start with inFront | late
  · rw [if_pos inFront, if_pos inFront, if_pos inFront]
  · rw [if_neg (Nat.not_lt_of_le late), if_neg (Nat.not_lt_of_le late)]
    rcases Nat.lt_or_ge p (start + added') with inside | behind
    · rw [if_pos inside, if_pos inside]
    · rw [if_neg (by omega), if_neg (by omega), if_neg (by omega), if_neg (by omega)]
      congr 1
      omega

/-- What was put in is replaced: only the second splice is left. -/
theorem Spliced.over (spliced : Spliced cut s o s')
    (next : Spliced ⟨cut.front, o.characters, cut.back⟩ s' o' s'') : Spliced cut s o' s'' := by
  refine ⟨spliced.before, next.after, next.labels.congr fun p => ?_⟩
  rw [funext spliced.labels.chainAt]
  exact splicedLabel_over p

theorem eq_of_characters (chars : s.characters = s'.characters) (same : s.taint = s'.taint) :
    s = s' := by
  rcases s with ⟨value, taint⟩
  rcases s' with ⟨value', taint'⟩
  obtain rfl : value = value' := String.toList_inj.mp chars
  obtain rfl : taint = taint' := same
  rfl

/-- There is one result of a splice. -/
theorem Spliced.unique (spliced : Spliced cut s o s') (spliced' : Spliced cut s o s'') :
    s' = s'' :=
  eq_of_characters (spliced.after.trans spliced'.after.symm)
    (spliced.labels.unique spliced'.labels)

/-- A text is left as it is if its own middle is put in the place of its middle. -/
theorem Spliced.self (wf : s.WellFormed)
    (before : s.characters = cut.front ++ (cut.middle ++ cut.back))
    (middle : o.characters = cut.middle)
    (labels : ∀ p < o.length, o.taint.chainAt p = s.taint.chainAt (byteLength cut.front + p)) :
    Spliced cut s o s := by
  have length : o.length = byteLength cut.middle := congrArg byteLength middle
  refine ⟨before, ?_, wf, fun p => ?_⟩
  · rw [before, Cut.fill, middle, List.append_assoc]
  · rw [splicedLabel]
    split
    · rfl
    · split
      · rw [labels _ (by omega)]
        congr 1
        omega
      · congr 1
        omega

theorem Spliced.length (spliced : Spliced cut s o s') :
    s'.length + byteLength cut.middle = s.length + o.length := by
  rw [Text.length, Text.length, spliced.before, spliced.after, Cut.fill]
  simp only [Utf8.byteLength_append, Text.length]
  omega

theorem Spliced.cut?_eq_some (spliced : Spliced cut s o s') :
    Utf8.cut? (byteLength cut.front) (byteLength cut.front + o.length) s'.characters =
      some ⟨cut.front, o.characters, cut.back⟩ := by
  have after : s'.characters = cut.front ++ (o.characters ++ cut.back) := by
    rw [spliced.after, Cut.fill, List.append_assoc]
  have length : byteLength o.characters = byteLength cut.front + o.length - byteLength cut.front :=
    (Nat.add_sub_cancel_left ..).symm
  exact Utf8.cut?_eq_some_iff.mpr ⟨Nat.le_add_right .., after, rfl, length⟩

/-! ## Edits one after the other -/

/-- Removing what has been inserted puts nothing where nothing was. -/
theorem exists_insert_remove (wf : s.WellFormed) (wfOther : o.WellFormed) (within : s.Within)
    (withinOther : o.Within) (fits : s.length + o.length ≤ Position.last)
    (found : Utf8.cut? index index s.characters = some cut) :
    ∃ r, ((insert index o).andThen (remove index (index + o.length))) s = { state := r } ∧
      Spliced cut s { value := "" } r := by
  rcases lengths_of_cut found with ⟨front, middle, -, -⟩
  obtain ⟨inner, inserted, spliced⟩ := exists_insert wf wfOther within withinOther fits found
  have length := spliced.length
  have found' := spliced.cut?_eq_some
  rw [front] at found'
  obtain ⟨r, removed, spliced'⟩ := exists_remove spliced.labels.wellFormed (by omega) found'
  exact ⟨r, (Edit.andThen_of_done inserted).trans removed, spliced.over spliced'⟩

/-- Inserting where something has been removed puts it in the place of that. -/
theorem exists_remove_insert (wf : s.WellFormed) (wfOther : o.WellFormed) (within : s.Within)
    (withinOther : o.Within) (bounded : s.length ≤ Position.last)
    (fits : s.length + o.length ≤ Position.last + (n - index))
    (found : Utf8.cut? index n s.characters = some cut) :
    ∃ r, ((remove index n).andThen (insert index o)) s = { state := r } ∧ Spliced cut s o r := by
  rcases lengths_of_cut found with ⟨front, middle, -, -⟩
  obtain ⟨rest, removed, spliced⟩ := exists_remove wf bounded found
  have nothing : length { value := "" } = 0 := rfl
  have lengthRest := spliced.length
  have found' := spliced.cut?_eq_some
  rw [front, nothing, Nat.add_zero] at found'
  obtain ⟨r, inserted, spliced'⟩ := exists_insert spliced.labels.wellFormed wfOther
    (spliced.within wf Taint.wellFormed_untainted within (Nat.zero_le _)) withinOther (by omega)
    found'
  exact ⟨r, (Edit.andThen_of_done removed).trans inserted, spliced.over spliced'⟩

/-- A substring that is not recorded is the middle of the text. -/
theorem exists_substring_of_disabled (wf : s.WellFormed) (bounded : s.length ≤ Position.last)
    (off : recorder.config.enabled = false)
    (found : Utf8.cut? index n s.characters = some cut) :
    ∃ part, s.substring index n recorder = .ok (part, recorder) ∧ part.characters = cut.middle ∧
      part.Within ∧ part.taint.HasLabels (Taint.windowLabel index n s.taint.chainAt) := by
  rcases lengths_of_cut found with ⟨-, -, ordered, length⟩
  obtain ⟨window, cutOut, labels⟩ := Taint.subtaint_spec wf ordered
  refine ⟨⟨String.ofList cut.middle, window⟩, ?_, characters_ofList .., (window_labelled found
    labels).1, labels⟩
  unfold substring
  rw [cut_eq_ok found, Position.ofOffset_eq_ok (by omega), Position.ofOffset_eq_ok (by omega)]
  simp only [bind, Except.bind, cutOut, Recorder.record_of_disabled off]
  rfl

/-! ## Edits that are undone -/

theorem remove_insert_eq (wf : s.WellFormed) (wfOther : o.WellFormed) (within : s.Within)
    (withinOther : o.Within) (fits : s.length + o.length ≤ Position.last)
    (boundary : Boundary s.characters index) :
    ((insert index o).andThen (remove index (index + o.length))) s = { state := s } := by
  obtain ⟨cut, found⟩ := Utf8.exists_cut (Nat.le_refl index) boundary boundary
  rcases Utf8.cut?_eq_some_iff.mp found with ⟨-, before, -, middle⟩
  obtain ⟨r, done, spliced⟩ := exists_insert_remove wf wfOther within withinOther fits found
  have nothing : cut.middle = [] := Utf8.eq_nil_of_byteLength (by omega)
  have self : Spliced cut s { value := "" } s :=
    .self wf before (by rw [nothing]; rfl) fun p inside => absurd inside (Nat.not_lt_zero p)
  rw [done, spliced.unique self]

theorem insert_substring_eq (wf : s.WellFormed) (within : s.Within)
    (bounded : s.length ≤ Position.last) (off : recorder.config.enabled = false)
    (cuts : s.CutsAt index n) :
    ∃ part, s.substring index n recorder = .ok (part, recorder) ∧
      ((remove index n).andThen (insert index part)) s = { state := s } := by
  obtain ⟨cut, found⟩ := exists_cut cuts
  rcases Utf8.cut?_eq_some_iff.mp found with ⟨-, before, front, middle⟩
  obtain ⟨part, taken, chars, withinPart, labels⟩ :=
    exists_substring_of_disabled wf bounded off found
  have length : part.length = n - index := by rw [Text.length, chars, middle]
  obtain ⟨r, done, spliced⟩ := exists_remove_insert wf labels.wellFormed within withinPart bounded
    (by omega) found
  have self : Spliced cut s part s := .self wf before chars fun p inside => by
    rw [labels.chainAt, Taint.windowLabel, if_pos (by omega), front]
  exact ⟨part, taken, by rw [done, spliced.unique self]⟩

/-- **Edits of texts can be undone.**  For texts with taint within their values, removing what was
inserted between two characters restores the text, and so does inserting a window where it was
removed, if taking it out was not recorded.  All edits succeed, and value and taint are restored:
where ranges were split or joined, the same ranges are left. -/
theorem edits_undone (wf : s.WellFormed) (wfOther : o.WellFormed) (within : s.Within)
    (withinOther : o.Within) (fits : s.length + o.length ≤ Position.last) :
    (∀ i, Boundary s.characters i →
      ((insert i o).andThen (remove i (i + o.length))) s = { state := s }) ∧
    ∀ b e, s.CutsAt b e → ∀ recorder : Recorder, recorder.config.enabled = false →
      ∃ part, s.substring b e recorder = .ok (part, recorder) ∧
        ((remove b e).andThen (insert b part)) s = { state := s } :=
  ⟨fun _ boundary => remove_insert_eq wf wfOther within withinOther fits boundary,
    fun _ _ cuts _ off => insert_substring_eq wf within (by omega) off cuts⟩

/-- Inserted taint joins both ends of the range that it splits, and a window is cut out of two
ranges of one chain. -/
theorem edits_undone_joined :
    let read : Chain := .ofSource { name := "read" } 0
    let s : Text := ⟨"abcd", Taint.ofList (Range.span 0 2 read ++ Range.span 3 4 read)⟩
    let o : Text := ⟨"xé", Taint.ofList (Range.span 0 3 read)⟩
    (s.WellFormed ∧ o.WellFormed ∧ s.Within ∧ o.Within ∧ s.length + o.length ≤ Position.last) ∧
      ((insert 1 o).andThen (remove 1 (1 + o.length))) s = { state := s } ∧
      ∃ part, s.substring 1 4 { config := { enabled := false } } =
          .ok (part, { config := { enabled := false } }) ∧
        ((remove 1 4).andThen (insert 1 part)) s = { state := s } := by
  intro read s o
  have sound : s.WellFormed ∧ o.WellFormed ∧ s.Within ∧ o.Within ∧
      s.length + o.length ≤ Position.last := by decide
  rcases sound with ⟨wf, wfOther, within, withinOther, fits⟩
  have undone := edits_undone wf wfOther within withinOther fits
  exact ⟨⟨wf, wfOther, within, withinOther, fits⟩, undone.1 1 (by decide),
    undone.2 1 4 (by decide) { config := { enabled := false } } rfl⟩

/-! ## Replacing -/

/-- Replacing is removing, inserting and recording. -/
theorem replace_eq_recordOn (wf : s.WellFormed) (wfOther : o.WellFormed) (within : s.Within)
    (withinOther : o.Within) (fits : s.length + o.length ≤ Position.last) (recorder : Recorder)
    (found : Utf8.cut? index n s.characters = some cut) :
    ∃ plain, ((remove index n).andThen (insert index o)) s = { state := plain } ∧
      plain.WellFormed ∧
      replace index n o (s, recorder) =
        recordOn "replace" [String.ofList cut.middle, o.value] (plain, recorder) := by
  obtain ⟨plain, done, spliced⟩ :=
    exists_remove_insert wf wfOther within withinOther (by omega) (by omega) found
  obtain ⟨substituted, done', spliced'⟩ :=
    exists_substitute wf wfOther within withinOther fits found
  rw [← spliced.unique spliced'] at done'
  exact ⟨plain, done, spliced.labels.wellFormed, replace_of_substitute recorder found done'⟩

/-- What is left if a built-in operation is recorded on a text, and recording is on. -/
theorem exists_recordOn (wf : s.WellFormed) (on : recorder.config.enabled = true) (name : String)
    (arguments : List String) :
    ∃ r recorder', recordOn name arguments (s, recorder) = { state := (r, recorder') } ∧
      r.value = s.value ∧
      Taint.Extends
        { name, native := true, arguments := arguments.map recorder.shortened,
          location := recorder.location } s.taint r.taint ∧
      ∀ number ∈ r.taint.heads, recorder.nextSerial ≤ number := by
  refine ⟨_, (recorder.record s.taint name arguments).2, rfl, rfl, ?_, fun number mem => ?_⟩
  · change Taint.Extends _ s.taint (recorder.record s.taint name arguments).1
    rw [Recorder.record_of_enabled on, Recorder.operation_eq]
    exact Taint.extends_extend wf _ _
  · change number ∈ (recorder.record s.taint name arguments).1.heads at mem
    rw [Recorder.record_of_enabled on, Taint.heads_extend] at mem
    obtain ⟨c, -, rfl⟩ := List.mem_map.mp mem
    exact Nat.le_add_right ..

/-- **Replacing is removing and inserting.**  For texts with taint within their values, replacing
bytes fails exactly if removing them does.  Otherwise it leaves what removing them and inserting the
other text there leaves; if recording is on, with one native operation on top of all chains, under
new heads, and with the replaced and the other text for its arguments. -/
theorem replace_removes_and_inserts (wf : s.WellFormed) (wfOther : o.WellFormed) (within : s.Within)
    (withinOther : o.Within) (fits : s.length + o.length ≤ Position.last) (recorder : Recorder)
    (b e : Nat) :
    ((replace b e o).Fails (s, recorder) ↔ (remove b e).Fails s) ∧
    (¬ (remove b e).Fails s →
      ∃ plain, ((remove b e).andThen (insert b o)) s = { state := plain } ∧
        (recorder.config.enabled = false →
          replace b e o (s, recorder) = { state := (plain, recorder) }) ∧
        (recorder.config.enabled = true →
          ∃ r recorder' replaced, replace b e o (s, recorder) = { state := (r, recorder') } ∧
            bytes { value := replaced } = s.bytes.extract b e ∧ r.value = plain.value ∧
            Taint.Extends
              { name := "replace", native := true, location := recorder.location,
                arguments := [recorder.shortened replaced, recorder.shortened o.value] }
              plain.taint r.taint ∧
            ∀ number ∈ r.taint.heads, recorder.nextSerial ≤ number)) := by
  by_cases cuts : s.CutsAt b e
  · obtain ⟨cut, found⟩ := exists_cut cuts
    obtain ⟨rest, removed, -⟩ := exists_remove wf (by omega) found
    obtain ⟨plain, done, wfPlain, replaced⟩ :=
      replace_eq_recordOn wf wfOther within withinOther fits recorder found
    obtain ⟨r, accepted⟩ : ∃ r, replace b e o (s, recorder) = { state := r } := ⟨_, replaced⟩
    refine ⟨iff_of_false (Edit.not_fails_of_done accepted) (Edit.not_fails_of_done removed),
      fun _ => ⟨plain, done, fun off => ?_, fun on => ?_⟩⟩
    · rw [replaced, recordOn, Recorder.record_of_disabled off]
      rfl
    · obtain ⟨r, recorder', recorded, value, extended, heads⟩ :=
        exists_recordOn wfPlain on "replace" [String.ofList cut.middle, o.value]
      exact ⟨r, recorder', _, replaced.trans recorded, bytes_middle found, value, extended, heads⟩
  · have refused := Edit.fails_of_stopped (remove_eq_error cuts)
    exact ⟨iff_of_true (Edit.fails_of_stopped (replace_eq_error cuts recorder)) refused,
      fun accepted => absurd refused accepted⟩

/-- A byte inside a range is replaced, with the replacement recorded and not, and a window whose
bounds are in the wrong order is refused. -/
theorem replace_removes_and_inserts_inside :
    let s : Text := ⟨"äbc", Taint.ofList (Range.span 1 4 (.ofSource { name := "read" } 0))⟩
    let o : Text := { value := "éé" }
    (s.WellFormed ∧ o.WellFormed ∧ s.Within ∧ o.Within ∧ s.length + o.length ≤ Position.last) ∧
      (replace 3 2 o).Fails (s, {}) ∧ ¬ (remove 2 3).Fails s ∧
      (∃ plain, ((remove 2 3).andThen (insert 2 o)) s = { state := plain } ∧
        replace 2 3 o (s, { config := { enabled := false } }) =
          { state := (plain, { config := { enabled := false } }) }) ∧
      ∃ plain r recorder' replaced, ((remove 2 3).andThen (insert 2 o)) s = { state := plain } ∧
        replace 2 3 o (s, {}) = { state := (r, recorder') } ∧
        bytes { value := replaced } = [98] ∧ r.value = plain.value ∧
        Taint.Extends
          { name := "replace", native := true,
            arguments := [Recorder.shortened {} replaced, Recorder.shortened {} "éé"] }
          plain.taint r.taint := by
  intro s o
  have sound : s.WellFormed ∧ o.WellFormed ∧ s.Within ∧ o.Within ∧
      s.length + o.length ≤ Position.last := by decide
  rcases sound with ⟨wf, wfOther, within, withinOther, fits⟩
  have composed := replace_removes_and_inserts wf wfOther within withinOther fits
  have refused : (remove 3 2).Fails s := Edit.fails_of_stopped (remove_eq_error (by decide))
  have accepted : ¬ (remove 2 3).Fails s := by
    have done : (remove 2 3 s).fault = none := by decide
    rintro ⟨fault, fails⟩
    rw [done] at fails
    cases fails
  obtain ⟨plain, done, unrecorded, -⟩ :=
    (composed { config := { enabled := false } } 2 3).2 accepted
  obtain ⟨plain', done', -, recorded⟩ := (composed {} 2 3).2 accepted
  obtain ⟨r, recorder', replaced, done'', same, value, extended, -⟩ := recorded rfl
  exact ⟨⟨wf, wfOther, within, withinOther, fits⟩, (composed {} 3 2).1.mpr refused, accepted,
    ⟨plain, done, unrecorded rfl⟩, plain', r, recorder', replaced, done', done'', same, value,
    extended⟩

/-! ## Replacing no bytes -/

theorem recordOn_of_disabled (off : recorder.config.enabled = false) (name : String)
    (arguments : List String) :
    recordOn name arguments (s, recorder) = { state := (s, recorder) } := by
  rw [recordOn, Recorder.record_of_disabled off]
  rfl

/-- Between two characters both put the same text in the place of no bytes. -/
theorem exists_insert_replace (wf : s.WellFormed) (wfOther : o.WellFormed) (within : s.Within)
    (withinOther : o.Within) (fits : s.length + o.length ≤ Position.last)
    (off : recorder.config.enabled = false) (boundary : Boundary s.characters index) :
    ∃ r, insert index o s = { state := r } ∧
      replace index index o (s, recorder) = { state := (r, recorder) } := by
  obtain ⟨cut, found⟩ := exists_cut ⟨Nat.le_refl index, boundary, boundary⟩
  obtain ⟨r, inserted, spliced⟩ := exists_insert wf wfOther within withinOther fits found
  obtain ⟨r', substituted, spliced'⟩ := exists_substitute wf wfOther within withinOther fits found
  rw [← spliced.unique spliced'] at substituted
  exact ⟨r, inserted,
    (replace_of_substitute recorder found substituted).trans (recordOn_of_disabled off ..)⟩

/-- **Inserting is replacing no bytes, but for empty texts.**  For texts with taint within their
values, and with recording off, replacing no bytes fails exactly at the offsets that are not between
characters; inserting fails there too, unless the inserted text is empty.  So both come to the same
at every offset between characters, and at every offset for a text that is not empty, and to
different ends wherever an empty text is inserted at another offset. -/
theorem insert_agrees_replace_iff (wf : s.WellFormed) (wfOther : o.WellFormed) (within : s.Within)
    (withinOther : o.Within) (fits : s.length + o.length ≤ Position.last)
    (off : recorder.config.enabled = false) (index : Nat) :
    ((replace index index o).Fails (s, recorder) ↔ ¬ Boundary s.characters index) ∧
    ((insert index o).Fails s ↔ ¬ Boundary s.characters index ∧ ¬ o.isEmpty = true) ∧
    (Outcome.Agree (fun r (p : Text × Recorder) => p = (r, recorder)) (insert index o s)
        (replace index index o (s, recorder)) ↔
      Boundary s.characters index ∨ ¬ o.isEmpty = true) := by
  by_cases boundary : Boundary s.characters index
  · obtain ⟨r, inserted, replaced⟩ :=
      exists_insert_replace wf wfOther within withinOther fits off boundary
    refine ⟨iff_of_false (Edit.not_fails_of_done replaced) (not_not.mpr boundary),
      iff_of_false (Edit.not_fails_of_done inserted) fun astray => astray.1 boundary,
      iff_of_true ?_ (.inl boundary)⟩
    rw [inserted, replaced]
    exact .done rfl
  · have replaced := replace_eq_error (o := o)
      (fun cuts : s.CutsAt index index => boundary cuts.2.1) recorder
    refine ⟨iff_of_true (Edit.fails_of_stopped replaced) boundary, ?_⟩
    by_cases nothing : o.isEmpty = true
    · have inserted : insert index o s = { state := s } := by
        rw [insert, if_pos nothing, Edit.nothing]
      refine ⟨iff_of_false (Edit.not_fails_of_done inserted) fun filled => filled.2 nothing,
        iff_of_false (fun agree => ?_) (not_or.mpr ⟨boundary, not_not.mpr nothing⟩)⟩
      rw [inserted, replaced] at agree
      cases agree.fault
    · have inserted := insert_eq_error nothing boundary
      refine ⟨iff_of_true (Edit.fails_of_stopped inserted) ⟨boundary, nothing⟩,
        iff_of_true ?_ (.inr nothing)⟩
      rw [inserted, replaced]
      exact .stopped _ _ rfl

/-- Inside a character both are refused, and in front of the next one both put the text into the
range around it. -/
theorem insert_agrees_replace_iff_inside :
    let read : Chain := .ofSource { name := "read" } 0
    let s : Text := ⟨"äbc", Taint.ofList (Range.span 1 4 read)⟩
    let o : Text := ⟨"xé", Taint.ofList (Range.span 0 3 read)⟩
    let unrecorded : Recorder := { config := { enabled := false } }
    (s.WellFormed ∧ o.WellFormed ∧ s.Within ∧ o.Within ∧ s.length + o.length ≤ Position.last) ∧
      unrecorded.config.enabled = false ∧
      (replace 1 1 o).Fails (s, unrecorded) ∧ (insert 1 o).Fails s ∧
      ¬ (replace 2 2 o).Fails (s, unrecorded) ∧ ¬ (insert 2 o).Fails s ∧
      Outcome.Agree (fun r (p : Text × Recorder) => p = (r, unrecorded)) (insert 2 o s)
        (replace 2 2 o (s, unrecorded)) := by
  intro read s o unrecorded
  have sound : s.WellFormed ∧ o.WellFormed ∧ s.Within ∧ o.Within ∧
      s.length + o.length ≤ Position.last := by decide
  rcases sound with ⟨wf, wfOther, within, withinOther, fits⟩
  have off : unrecorded.config.enabled = false := rfl
  have agrees := insert_agrees_replace_iff wf wfOther within withinOther fits off
  have astray : ¬ Boundary s.characters 1 := by decide
  have between : Boundary s.characters 2 := by decide
  exact ⟨⟨wf, wfOther, within, withinOther, fits⟩, off, (agrees 1).1.mpr astray,
    (agrees 1).2.1.mpr ⟨astray, by decide⟩, fun fails => (agrees 2).1.mp fails between,
    fun fails => ((agrees 2).2.1.mp fails).1 between, (agrees 2).2.2.mpr (.inl between)⟩

/-- An empty text is inserted inside a character, where replacing no bytes by it is refused. -/
theorem not_insert_agrees_replace :
    let read : Chain := .ofSource { name := "read" } 0
    let s : Text := ⟨"é", Taint.ofList (Range.span 0 2 read)⟩
    let o : Text := { value := "" }
    let unrecorded : Recorder := { config := { enabled := false } }
    (s.WellFormed ∧ o.WellFormed ∧ s.Within ∧ o.Within ∧ s.length + o.length ≤ Position.last) ∧
      unrecorded.config.enabled = false ∧ ¬ Boundary s.characters 1 ∧
      insert 1 o s = { state := s } ∧
      replace 1 1 o (s, unrecorded) = { state := (s, unrecorded), fault := some .offCharacters } ∧
      ¬ ((insert 1 o).Fails s ↔ (replace 1 1 o).Fails (s, unrecorded)) := by
  intro read s o unrecorded
  have inserted : insert 1 o s = { state := s } := rfl
  have astray : ¬ s.CutsAt 1 1 := by decide
  have replaced := replace_eq_error (o := o) astray unrecorded
  exact ⟨by decide, rfl, by decide, inserted, replaced, fun same =>
    Edit.not_fails_of_done inserted (same.mpr (Edit.fails_of_stopped replaced))⟩

end Text

end TextProvenance
