import Mathlib.Data.List.Infix
import TextProvenance.Proofs.Session.WellFormed
import TextProvenance.Proofs.Text.Within

/-!
# Taint within texts, over whole runs

Every operation on texts keeps taint within the values, except for copying taint, which checks
nothing.  So the taint of all texts stays within their values in a run exactly if every copy in it
lands within the text that it is copied to (`Session.within_after_iff`).

The texts of a run must not be longer than positions count, and its commands must not change the
taint of a text on its own.
-/

namespace TextProvenance

theorem Text.closed_sound : Text.Closed Text.Sound where
  wellFormed _ sound := sound.wellFormed
  untainted value := sound_untainted value
  ofChain _ _ _ ok := sound_ofChain ok
  ofTaint _ _ _ wf ok := sound_ofTaint wf ok
  markSource _ _ _ _ _ ok := sound_markSource ok
  substring _ _ _ _ _ _ sound ok := sound_substring sound ok
  concat _ _ _ sound soundOther ok := sound_concat sound soundOther ok
  mapCharacters _ _ _ _ _ _ _ ok := sound_mapCharacters ok
  split _ _ _ _ _ sound ok := sound_recordPieces sound ok
  markArguments _ _ _ _ sound := sound_markArguments sound
  push _ sound := keeps_sound_push sound
  insert index _ sound := keeps_sound_insert index sound

namespace Session

open SessionM

variable {s : Session} {name : String} {text : Text}

/-- All texts of the session have the property. -/
def Texts (s : Session) (P : Text → Prop) : Prop :=
  ∀ name text, (name, Value.text text) ∈ s.values → P text

instance {P : Text → Prop} [DecidablePred P] : Decidable (s.Texts P) :=
  decidable_of_iff
    (s.values.all fun | (_, .text text) => decide (P text) | _ => true) <| by
      rw [List.all_eq_true]
      constructor
      · intro all name text mem
        exact of_decide_eq_true (all _ mem)
      · rintro texts ⟨name, value⟩ mem
        cases value with
        | text text => exact decide_eq_true (texts name text mem)
        | chain _ | range _ | taint _ => rfl

theorem texts_of_inits {P : Text → Prop} {commands : List Command}
    (each : ∀ before ∈ commands.inits, (s.after before).Texts P) :
    ∀ before, before <+: commands → (s.after before).Texts P :=
  fun before run => each before ((List.mem_inits before commands).mpr run)

/-- The command changes the taint of a text on its own, without its value. -/
def EditsTaintOfText (s : Session) : Command → Prop
  | .change name (.taint ..) => ∃ text, s.value? name = some (.text text)
  | _ => False

/-- If the command copies taint, and the copy does not fail, then all of it lands within the text
that it is copied to. -/
def CopiesWithin (s : Session) : Command → Prop
  | .change name (.copyTaint source start offset stop) =>
    ∀ target origin, s.value? name = some (.text target) → s.value? source = some (.text origin) →
      (Text.copyTaint origin start offset stop target).fault = none →
        ∀ p, start ≤ p → p < stop.getD origin.length → origin.taint.chainAt p ≠ none →
          p + offset < target.length
  | _ => True

/-! ## Conditional changes -/

theorem Holds.sound (holds : s.Holds (Value.Meets Text.Sound))
    (found : s.value? name = some (.text text)) : text.Sound :=
  holds _ (mem_of_value? found)

theorem Holds.weaken {P Q : Text → Prop} (holds : s.Holds (Value.Meets P))
    (weaker : ∀ text, P text → Q text) : s.Holds (Value.Meets Q) := by
  rintro ⟨name, value⟩ mem
  have meets := holds _ mem
  cases value with
  | text text => exact weaker text meets
  | chain _ | range _ | taint _ => exact meets

theorem Holds.of_values {s' : Session} {P : Value → Prop} (holds : s.Holds P)
    (same : s'.values = s.values) : s'.Holds P := by
  unfold Holds
  rw [same]
  exact holds

theorem value?_of_values {s' : Session} (same : s'.values = s.values) (name : String) :
    s'.value? name = s.value? name := by
  rw [value?, same]
  rfl

theorem value?_bind (s : Session) (name : String) (value : Value) :
    (s.bind name value).value? name = some value := by
  simp [value?, bind]

/-- After its change, a command only reads the value that it answers. -/
theorem values_step_change (s : Session) (name : String) (change : Change) :
    (s.step (.change name change)).values = ((change.apply name).ends s).2.values :=
  values_ends_bind (fun _ => reads_bind (reads_named name) fun _ => reads_pure _) s

theorem holds_editText {edit : Edit Text} (holds : s.Holds (Value.Meets Text.Sound))
    (each : ∀ text, s.value? name = some (.text text) → (edit text).state.Sound) :
    ((editText name edit).ends s).2.Holds (Value.Meets Text.Sound) := by
  rw [ends_editText]
  cases found : s.value? name with
  | none => exact holds
  | some value =>
    cases value with
    | text text => exact holds.bind (each text found)
    | chain _ | range _ | taint _ => exact holds

/-- An edit with another text as its operand. -/
theorem holds_textNamed_bind {other : String} {action : Text → SessionM Unit}
    (holds : s.Holds (Value.Meets Text.Sound))
    (each : ∀ text, s.value? other = some (.text text) →
      ((action text).ends s).2.Holds (Value.Meets Text.Sound)) :
    ((textNamed other >>= action).ends s).2.Holds (Value.Meets Text.Sound) := by
  rw [ends_bind, ends_textNamed]
  cases found : s.value? other with
  | none => exact holds
  | some value =>
    cases value with
    | text text => exact each text found
    | chain _ | range _ | taint _ => exact holds

theorem holds_editRecorded {edit : Edit (Text × Recorder)}
    (holds : s.Holds (Value.Meets Text.Sound))
    (each : ∀ text, s.value? name = some (.text text) →
      (edit (text, s.recorder)).state.1.Sound) :
    ((editRecorded name edit).ends s).2.Holds (Value.Meets Text.Sound) := by
  refine holds_textNamed_bind holds fun text found => ?_
  rw [ends_bind, ends_get]
  refine (Keeps.ends (Q := fun _ => True) ?_ s holds).1
  exact keeps_keeping (keeps_bind (keeps_useRecorder _) fun _ _ => keeps_assign (each text found))

/-- Changing taint that is not that of a text leaves the name for taint. -/
theorem holds_applyTaintChange (change : Taint.Change)
    (holds : s.Holds (Value.Meets Text.Sound))
    (noText : ∀ text, s.value? name ≠ some (.text text)) :
    ((applyTaintChange name change).ends s).2.Holds (Value.Meets Text.Sound) ∧
      ∀ text, ((applyTaintChange name change).ends s).2.value? name ≠ some (.text text) := by
  unfold applyTaintChange
  rw [ends_bind, ends_taintNamed]
  cases found : s.value? name with
  | none => exact ⟨holds, noText⟩
  | some value =>
    cases value with
    | text text => exact absurd found (noText text)
    | chain _ | range _ => exact ⟨holds, noText⟩
    | taint t =>
      have wf : t.WellFormed := holds _ (mem_of_value? found)
      simp only [Option.bind_some, Value.taint?, ends_bind, ends_recording, ends_editTaint]
      have found' : ({ s with recorder := s.recorder.advance (change.serials t) } : Session).value?
          name = some (.taint t) := found
      rw [found']
      have holds' : ({ s with recorder := s.recorder.advance (change.serials t) } : Session).Holds
          (Value.Meets Text.Sound) := holds
      have kept : ((change.edit s.recorder.nextSerial t).state).WellFormed :=
        change.keeps_wellFormed s.recorder.nextSerial t wf
      have meets : Value.Meets Text.Sound
          (.taint (change.edit s.recorder.nextSerial t).state) := kept
      refine ⟨holds'.bind meets, fun text => ?_⟩
      rw [value?_bind]
      exact fun same => nomatch same

theorem holds_times_applyTaintChange (change : Taint.Change) (count : Nat)
    (holds : s.Holds (Value.Meets Text.Sound))
    (noText : ∀ text, s.value? name ≠ some (.text text)) :
    ((times count (applyTaintChange name change)).ends s).2.Holds (Value.Meets Text.Sound) := by
  induction count generalizing s with
  | zero => exact holds
  | succ count ih =>
    rcases holds_applyTaintChange change holds noText with ⟨holdsFirst, noTextFirst⟩
    rw [times, ends_bind]
    rcases ended : (applyTaintChange name change).ends s with ⟨_ | _, s'⟩
    · rw [ended] at holdsFirst
      exact holdsFirst
    · rw [ended] at holdsFirst noTextFirst
      exact ih holdsFirst noTextFirst

theorem Change.holds_sound {change : Change} (conditional : change.Conditional)
    (holds : s.Holds (Value.Meets Text.Sound))
    (sized : s.Texts fun text => text.length ≤ Position.last)
    (noTaint : ¬ s.EditsTaintOfText (.change name change))
    (copies : s.CopiesWithin (.change name change)) :
    ((change.apply name).ends s).2.Holds (Value.Meets Text.Sound) := by
  cases change with
  | taint term count =>
    rw [Change.apply, ends_bind]
    have same := term.reads_eval.values s
    rcases ended : term.eval.ends s with ⟨_ | change, s'⟩
    · rw [ended] at same
      exact holds.of_values same
    · rw [ended] at same
      refine holds_times_applyTaintChange change count (holds.of_values same) fun text found => ?_
      rw [value?_of_values same] at found
      exact noTaint ⟨text, found⟩
  | remove start stop =>
    exact holds_editText holds fun text found =>
      Text.sound_remove (holds.sound found) (sized name text (mem_of_value? found))
  | replace start stop other =>
    exact holds_textNamed_bind holds fun other foundOther =>
      holds_editRecorded holds fun text found =>
        Text.sound_replace (holds.sound found) (holds.sound foundOther)
          (sized name text (mem_of_value? found))
  | copyTaint source start offset stop =>
    exact holds_textNamed_bind holds fun origin foundOrigin =>
      holds_editText holds fun text found =>
        (Text.sound_copyTaint_iff (holds.sound found) (holds.sound foundOrigin).wellFormed).mpr
          (copies text origin found foundOrigin)
  | _ => cases conditional

/-! ## Steps and runs -/

theorem holds_sound_step {command : Command} (holds : s.Holds (Value.Meets Text.Sound))
    (sized : s.Texts fun text => text.length ≤ Position.last)
    (noTaint : ¬ s.EditsTaintOfText command) (copies : s.CopiesWithin command) :
    (s.step command).Holds (Value.Meets Text.Sound) := by
  by_cases conditional : ∃ name change, command = .change name change ∧ change.Conditional
  · rcases conditional with ⟨name, change, rfl, conditional⟩
    exact (Change.holds_sound conditional holds sized noTaint copies).of_values
      (values_step_change s name change)
  · refine ((command.keeps_meets Text.closed_sound fun name change same isConditional => ?_).ends s
      holds).1
    exact absurd ⟨name, change, same, isConditional⟩ conditional

theorem holds_sound_of_within (wf : s.Holds (Value.Meets Text.WellFormed))
    (within : s.Texts Text.Within) : s.Holds (Value.Meets Text.Sound) := by
  rintro ⟨name, value⟩ mem
  have meets := wf _ mem
  cases value with
  | text text => exact ⟨meets, within name text mem⟩
  | chain _ | range _ | taint _ => exact meets

/-- If a text is within its value after taint has been copied to it, then all of that taint has
landed within it. -/
theorem copiesWithin_of_step {command : Command} (holds : s.Holds (Value.Meets Text.Sound))
    (within : (s.step command).Texts Text.Within) : s.CopiesWithin command := by
  cases command with
  | change name change =>
    cases change with
    | copyTaint source start offset stop =>
      intro target origin foundTarget foundOrigin
      have wf : origin.WellFormed := (holds.sound foundOrigin).wellFormed
      refine (Text.sound_copyTaint_iff (holds.sound foundTarget) wf).mp ⟨?_, ?_⟩
      · exact Text.keeps_copyTaint origin start offset stop target
          (holds.sound foundTarget).wellFormed
      · apply within name _
        rw [values_step_change, Change.apply, ends_bind, ends_textNamed, foundOrigin]
        simp only [ends_editText, foundTarget]
        exact List.mem_cons_self
    | _ => trivial
  | _ => trivial

theorem after_append (s : Session) (before : List Command) (command : Command) :
    s.after (before ++ [command]) = (s.after before).step command := by
  rw [after, List.foldl_append]
  rfl

/-- **When taint stays within texts.**  From a session of sound texts, in a run of any commands with
any arguments, of which none changes the taint of a text on its own and none makes a text too long
for positions, the taint of every text is always within its value exactly if every copy of taint in
the run lands within the text that it is copied to. -/
theorem within_after_iff (s : Session) (commands : List Command)
    (start : s.Holds (Value.Meets Text.Sound))
    (sized : ∀ before, before <+: commands →
      (s.after before).Texts fun text => text.length ≤ Position.last)
    (noTaint : ∀ before command, before ++ [command] <+: commands →
      ¬ (s.after before).EditsTaintOfText command) :
    (∀ before, before <+: commands → (s.after before).Texts Text.Within) ↔
      ∀ before command, before ++ [command] <+: commands →
        (s.after before).CopiesWithin command := by
  constructor
  · intro within before command run
    have wf : (s.after before).Holds (Value.Meets Text.WellFormed) :=
      holds_wellFormed_after (start.weaken fun _ sound => sound.wellFormed) before
    have inFront : before <+: commands := (List.prefix_append before [command]).trans run
    apply copiesWithin_of_step (holds_sound_of_within wf (within before inFront))
    rw [← after_append]
    exact within _ run
  · intro copies before run
    have sound : (s.after before).Holds (Value.Meets Text.Sound) := by
      induction before using List.reverseRecOn with
      | nil => exact start
      | append_singleton before command ih =>
        have inFront : before <+: commands := (List.prefix_append before [command]).trans run
        rw [after_append]
        exact holds_sound_step (ih inFront) (sized before inFront) (noTaint before command run)
          (copies before command run)
    exact fun name text mem => (sound (name, .text text) mem).within

/-- Taint is copied onto the front of a longer text, and some of it is removed. -/
theorem within_after_iff_removed :
    (({} : Session).Holds (Value.Meets Text.Sound)) ∧
      ((∀ before, before <+: [
          Command.make "source" (.taintedText "abc" (.given { name := "read" })),
          .make "target" (.text "wxyz"), .change "target" (.copyTaint "source" 0 1 none),
          .change "target" (.remove 2 3)] →
        (({} : Session).after before).Texts Text.Within) ↔
      ∀ before command, before ++ [command] <+: [
          Command.make "source" (.taintedText "abc" (.given { name := "read" })),
          .make "target" (.text "wxyz"), .change "target" (.copyTaint "source" 0 1 none),
          .change "target" (.remove 2 3)] →
        (({} : Session).after before).CopiesWithin command) := by
  have start : ({} : Session).Holds (Value.Meets Text.Sound) := fun _ mem => nomatch mem
  refine ⟨start, within_after_iff _ _ start ?_ ?_⟩
  · apply texts_of_inits
    decide
  · intro before command run
    have mem : command ∈ _ := run.subset (List.mem_append_right before List.mem_cons_self)
    simp only [List.mem_cons, List.not_mem_nil, or_false] at mem
    rcases mem with rfl | rfl | rfl | rfl <;> exact id

/-- Nothing keeps taint from being copied behind the end of a text: here onto an empty one. -/
theorem not_within_after_copy :
    ∃ commands : List Command,
      (∀ before, before <+: commands →
        (({} : Session).after before).Texts fun text => text.length ≤ Position.last) ∧
      (∀ before command, before ++ [command] <+: commands →
        ¬ (({} : Session).after before).EditsTaintOfText command) ∧
      ¬ (({} : Session).after commands).Texts Text.Within := by
  refine ⟨[.make "source" (.taintedText "abc" (.given { name := "read" })),
    .make "target" (.text ""), .change "target" (.copyTaint "source" 0 0 none)], ?_, ?_, ?_⟩
  · apply texts_of_inits
    decide
  · intro before command run
    have mem : command ∈ _ := run.subset (List.mem_append_right before List.mem_cons_self)
    simp only [List.mem_cons, List.not_mem_nil, or_false] at mem
    rcases mem with rfl | rfl | rfl <;> exact id
  · decide

end Session

end TextProvenance
