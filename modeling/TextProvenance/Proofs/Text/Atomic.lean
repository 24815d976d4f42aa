import TextProvenance.Proofs.Text.Within

/-!
# Edits of texts are done as a whole or not at all

Edits of texts change the value first and the taint after it, in up to three steps.  The only check
that fails for a text with taint within its value is the one that comes before all changes: whether
the offsets are between characters, and in order (`Text.CutsAt`).  After it all steps succeed, as
the taint that they meet is known (`Text.exists_insert`, `Text.exists_remove`,
`Text.exists_replace`).
-/

namespace TextProvenance

namespace Text

open Utf8 (Boundary)

variable {s o : Text} {start stop index : Nat}

/-- A text can be taken apart at the offsets: they are in order, and each of them is at an end of
the text or between two characters. -/
def CutsAt (s : Text) (start stop : Nat) : Prop :=
  start ≤ stop ∧ Boundary s.characters start ∧ Boundary s.characters stop

theorem exists_cut (cuts : s.CutsAt start stop) :
    ∃ cut, Utf8.cut? start stop s.characters = some cut :=
  Utf8.exists_cut cuts.1 cuts.2.1 cuts.2.2

theorem cut_eq_error (astray : ¬ s.CutsAt start stop) :
    s.cut start stop = .error .offCharacters := by
  unfold Text.cut
  cases found : Utf8.cut? start stop s.characters with
  | none => rfl
  | some cut =>
    rcases lengths_of_cut found with ⟨-, -, ordered, -⟩
    exact absurd ⟨ordered, Utf8.boundaries_of_cut found⟩ astray

instance (s : Text) (start stop : Nat) : Decidable (s.CutsAt start stop) :=
  inferInstanceAs (Decidable (_ ∧ _ ∧ _))

/-! ## Each edit -/

theorem exists_push (wf : s.WellFormed) (wfOther : o.WellFormed) (within : s.Within)
    (withinOther : o.Within) (fits : s.length + o.length ≤ Position.last) :
    ∃ r, push o s = { state := r } := by
  obtain ⟨taint, done, -⟩ := exists_concat wf wfOther within withinOther fits
  refine ⟨⟨s.value ++ o.value, taint⟩, ?_⟩
  rw [push, Edit.given_of_ok (Position.ofOffset_eq_ok (by omega)),
    Edit.andThen_of_done (onTaint_of_done done)]
  rfl

/-- An insertion that is refused has changed nothing: the value is cut before it is replaced. -/
theorem insert_eq_error (filled : ¬ o.isEmpty = true) (astray : ¬ Boundary s.characters index) :
    insert index o s = { state := s, fault := some .offCharacters } := by
  have refused := cut_eq_error fun cuts : s.CutsAt index index => astray cuts.2.1
  rw [insert, if_neg filled, Edit.andThen_of_stopped (replaceValue_of_error refused)]

theorem remove_eq_error (astray : ¬ s.CutsAt start stop) :
    remove start stop s = { state := s, fault := some .offCharacters } := by
  rw [remove, Edit.andThen_of_stopped (replaceValue_of_error (cut_eq_error astray))]

theorem replace_eq_error (astray : ¬ s.CutsAt start stop) (recorder : Recorder) :
    replace start stop o (s, recorder) =
      { state := (s, recorder), fault := some .offCharacters } := by
  simp only [replace]
  rw [Edit.given_of_error (cut_eq_error astray), Edit.fail]

/-- **Edits of texts are done as a whole or not at all.**  For texts with taint within their values,
appending never fails, and the other edits fail exactly if their offsets do not cut the text between
characters; then neither value nor taint has changed, and nothing has been recorded.  Inserting
an empty text does not look at the offset. -/
theorem edits_done_or_unchanged (wf : s.WellFormed) (wfOther : o.WellFormed) (within : s.Within)
    (withinOther : o.Within) (fits : s.length + o.length ≤ Position.last) (recorder : Recorder) :
    (∃ r, push o s = { state := r }) ∧
    (∀ i, (o.isEmpty = true ∨ Boundary s.characters i → ∃ r, insert i o s = { state := r }) ∧
      (¬ o.isEmpty = true → ¬ Boundary s.characters i →
        insert i o s = { state := s, fault := some .offCharacters })) ∧
    ∀ b e, (s.CutsAt b e →
        (∃ r, remove b e s = { state := r }) ∧
        ∃ r recorder', replace b e o (s, recorder) = { state := (r, recorder') }) ∧
      (¬ s.CutsAt b e →
        remove b e s = { state := s, fault := some .offCharacters } ∧
        replace b e o (s, recorder) =
          { state := (s, recorder), fault := some .offCharacters }) := by
  refine ⟨exists_push wf wfOther within withinOther fits,
    fun i => ⟨fun accepted => ?_, insert_eq_error⟩,
    fun b e => ⟨fun cuts => ?_, fun astray => ⟨remove_eq_error astray, replace_eq_error astray _⟩⟩⟩
  · by_cases nothing : o.isEmpty = true
    · exact ⟨s, by rw [insert, if_pos nothing, Edit.nothing]⟩
    · have boundary := accepted.resolve_left nothing
      obtain ⟨cut, found⟩ := exists_cut ⟨Nat.le_refl i, boundary, boundary⟩
      obtain ⟨r, done, -⟩ := exists_insert wf wfOther within withinOther fits found
      exact ⟨r, done⟩
  · obtain ⟨cut, found⟩ := exists_cut cuts
    obtain ⟨removed, done, -⟩ := exists_remove wf (by omega) found
    obtain ⟨replaced, recorder', done', -, -⟩ :=
      exists_replace wf wfOther within withinOther fits recorder found
    exact ⟨⟨removed, done⟩, replaced, recorder', done'⟩

/-- An offset inside a character is refused, and so are offsets in the wrong order. -/
theorem edits_done_or_unchanged_inside :
    insert 1 { value := "b" }
        ⟨"éa", ⟨some [⟨0, 3, .ofSource { name := "read" } 0, by decide, by decide⟩]⟩⟩ =
      { state := ⟨"éa", ⟨some [⟨0, 3, .ofSource { name := "read" } 0, by decide, by decide⟩]⟩⟩,
        fault := some .offCharacters } ∧
    remove 3 2 ⟨"éa", ⟨some [⟨0, 3, .ofSource { name := "read" } 0, by decide, by decide⟩]⟩⟩ =
      { state := ⟨"éa", ⟨some [⟨0, 3, .ofSource { name := "read" } 0, by decide, by decide⟩]⟩⟩,
        fault := some .offCharacters } := by
  have outcomes := edits_done_or_unchanged (o := { value := "b" })
    (s := ⟨"éa", ⟨some [⟨0, 3, .ofSource { name := "read" } 0, by decide, by decide⟩]⟩⟩)
    (by decide) (by decide) (by decide) (by decide) (by decide) {}
  exact ⟨(outcomes.2.1 1).2 (by decide) (by decide), ((outcomes.2.2 3 2).2 (by decide)).1⟩

end Text

end TextProvenance
