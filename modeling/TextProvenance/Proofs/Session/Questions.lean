import TextProvenance.Proofs.Session.Identity
import TextProvenance.Proofs.Session.Recording

/-!
# When the embedding is asked

In a run of operations on texts the embedding is asked for a location exactly when an operation is
recorded (`Session.asks_when_recording`).  `Command.recorded` says on which texts a command records
an operation, `SessionM.Silent` of a computation that it asks nothing, and `SessionM.Asks` that it
asks once for each tainted text among its results.
-/

namespace TextProvenance

/-- The text that a value is. -/
def Value.text? : Value → Option Text
  | text s => some s
  | _ => none

theorem Value.filterMap_text? (parts : List Text) :
    (parts.map Value.text).filterMap Value.text? = parts := by
  rw [List.filterMap_map]
  exact List.filterMap_some

namespace SessionM

open Session (OperationTerm)

variable {α β : Type} {m : SessionM α}

/-! ## Computations that ask nothing -/

/-- The computation asks nothing. -/
def Silent (m : SessionM α) : Prop := ∀ s : Session, s.recorder.After 0 (m.ends s).2.recorder

theorem Still.silent (still : Still m) : Silent m :=
  fun s => (congrArg Session.recorder (still s)).symm ▸ s.recorder.after_refl

theorem silent_pure (a : α) : Silent (pure a) := (still_pure a).silent

theorem silent_ofFault (result : Except Fault α) : Silent (ofFault result) := by
  cases result with
  | error fault => exact (still_throw _).silent
  | ok a => exact silent_pure a

theorem silent_bind {f : α → SessionM β} (first : Silent m) (second : ∀ a, Silent (f a)) :
    Silent (m >>= f) := by
  intro s
  have silent := first s
  rw [ends_bind]
  rcases ended : m.ends s with ⟨_ | a, s'⟩
  · rw [ended] at silent
    exact silent
  · rw [ended] at silent
    exact silent.trans (second a s')

theorem silent_editText (name : String) (edit : Edit Text) : Silent (editText name edit) := by
  intro s
  rw [ends_editText]
  split <;> exact s.recorder.after_refl

theorem silent_newChain {source : OperationTerm} (given : source.IsGiven) :
    Silent (Session.newChain source) := by
  cases source with
  | given operation => exact fun s => s.recorder.after_advance 1
  | made name native arguments => cases given

/-! ## Computations that have a result -/

/-- The computation has a result, with the property, and leaves the recorder as it is. -/
def Answers (m : SessionM α) (Q : α → Prop) : Prop :=
  ∀ s, ∃ a s', m.ends s = (.ok a, s') ∧ s'.recorder = s.recorder ∧ Q a

theorem answers_pure {a : α} {Q : α → Prop} (has : Q a) : Answers (pure a) Q :=
  fun s => ⟨a, s, rfl, rfl, has⟩

theorem answers_assign (name : String) (value : Value) :
    Answers (assign name value) fun _ => True :=
  fun s => ⟨(), s.bind name value, rfl, rfl, trivial⟩

theorem answers_bind {f : α → SessionM β} {Q : β → Prop} (first : Answers m fun _ => True)
    (second : ∀ a, Answers (f a) Q) : Answers (m >>= f) Q := by
  intro s
  obtain ⟨a, s', ended, same, _⟩ := first s
  obtain ⟨b, s'', ended', same', has⟩ := second a s'
  refine ⟨b, s'', ?_, same'.trans same, has⟩
  rw [ends_bind, ended]
  exact ended'

theorem answers_nameParts (target : String) (index : Nat) (parts : List Text) :
    Answers (Session.nameParts target index parts) fun _ => True := by
  induction parts generalizing index with
  | nil => exact answers_pure trivial
  | cons part rest ih => exact answers_bind (answers_assign _ _) fun _ => ih (index + 1)

theorem answers_assignAll (named : List (String × Text)) :
    Answers (named.forM fun (name, s) => assign name (.text s)) fun _ => True := by
  induction named with
  | nil => exact answers_pure trivial
  | cons first rest ih => exact answers_bind (answers_assign _ _) fun _ => ih

/-! ## Computations that ask -/

/-- The texts of a result; none of a failure. -/
def textsOf (texts : α → List Text) : Except Failure α → List Text
  | .ok a => texts a
  | .error _ => []

/-- The computation records an operation on each tainted one of the texts of its result. -/
def Asks (m : SessionM α) (texts : α → List Text) : Prop :=
  ∀ s, Text.RecordedEach s.recorder (textsOf texts (m.ends s).1) (m.ends s).2.recorder

variable {texts : α → List Text}

theorem Silent.asks (silent : Silent m) : Asks m fun _ => [] := by
  intro s
  have none : textsOf (fun _ => []) (m.ends s).1 = [] := by cases (m.ends s).1 <;> rfl
  rw [none]
  exact Text.recordedEach_nil (silent s)

theorem asks_recording {use : Recorder → α × Recorder}
    (each : ∀ recorder, Text.RecordedEach recorder (texts (use recorder).1) (use recorder).2) :
    Asks (recording use) texts := fun s => each s.recorder

theorem asks_recordingOrFault {use : Recorder → Except Fault (α × Recorder)}
    (each : ∀ recorder a recorder', use recorder = .ok (a, recorder') →
      Text.RecordedEach recorder (texts a) recorder') : Asks (recordingOrFault use) texts := by
  intro s
  rw [ends_recordingOrFault]
  cases used : use s.recorder with
  | error fault => exact Text.recordedEach_nil s.recorder.after_refl
  | ok made => exact each _ _ _ used

/-- What asks nothing may come first. -/
theorem asks_bind {f : α → SessionM β} {texts : β → List Text} (first : Silent m)
    (second : ∀ a, Asks (f a) texts) : Asks (m >>= f) texts := by
  intro s
  have silent := Text.recordedEach_nil (first s)
  rw [ends_bind]
  rcases ended : m.ends s with ⟨_ | a, s'⟩
  · rw [ended] at silent
    exact silent
  · rw [ended] at silent
    exact silent.append (second a s')

/-- What has a result in any case may follow. -/
theorem Asks.bind {f : α → SessionM β} {others : β → List Text} (asks : Asks m texts)
    (answers : ∀ a, Answers (f a) fun b => others b = texts a) : Asks (m >>= f) others := by
  intro s
  have recorded := asks s
  rw [ends_bind]
  rcases ended : m.ends s with ⟨_ | a, s'⟩
  · rw [ended] at recorded
    exact recorded
  · obtain ⟨b, s'', ended', same, equal⟩ := answers a s'
    rw [ended] at recorded
    dsimp only
    rw [ended', same, textsOf, equal]
    exact recorded

/-- What an edit has recorded if it is done is the text that it leaves. -/
theorem asks_editRecorded {edit : Edit (Text × Recorder)}
    (done : ∀ s recorder, (edit (s, recorder)).fault = none →
      Text.RecordedEach recorder [(edit (s, recorder)).state.1] (edit (s, recorder)).state.2)
    (fails : ∀ s recorder fault, (edit (s, recorder)).fault = some fault →
      (edit (s, recorder)).state.2 = recorder) (name : String) :
    Asks (do editRecorded name edit; return [← named name])
      fun answer : List Value => answer.filterMap Value.text? := by
  intro s
  rw [ends_bind, ends_editRecorded]
  cases s.value? name with
  | none => exact Text.recordedEach_nil s.recorder.after_refl
  | some value =>
    cases value with
    | text t =>
      dsimp only
      cases ended : (edit (t, s.recorder)).fault with
      | none =>
        dsimp only
        rw [ends_bind, ends_named, Session.value?_bind_self]
        exact done t s.recorder ended
      | some fault =>
        refine Text.recordedEach_nil ?_
        change s.recorder.After 0 (edit (t, s.recorder)).state.2
        rw [fails t s.recorder fault ended]
        exact s.recorder.after_refl
    | chain _ | range _ | taint _ => exact Text.recordedEach_nil s.recorder.after_refl

/-- The text of a made value is what the computation has recorded. -/
theorem Asks.value {m : SessionM Text} (asks : Asks m fun s => [s]) :
    Asks (do return .text (← m)) fun value : Value => value.text?.toList :=
  asks.bind fun _ => answers_pure rfl

end SessionM

namespace Session

open SessionM

/-! ## Commands -/

/-- The command records operations, on the texts that it answers with. -/
def Command.records : Command → Bool
  | make _ (.substring ..) | make _ (.lower _) | make _ (.upper _) | change _ (.replace ..)
  | split .. | markArguments .. => true
  | _ => false

/-- The parts that a split which fails has recorded in front of where it fails. -/
def Command.brokenOff (s : Session) : Command → List Text
  | split name separator _ =>
    match s.value? name with
    | some (.text t) => (t.splitInFront separator s.recorder).1
    | _ => []
  | _ => []

/-- The texts on which the command records an operation if they are tainted. -/
def Command.recorded (s : Session) (command : Command) : List Text :=
  match (command.run.ends s).1 with
  | .ok answer => if command.records then answer.filterMap Value.text? else []
  | .error _ => command.brokenOff s

theorem Maker.asks_eval {maker : Maker} (makes : maker.MakesText) (name : String) :
    Asks maker.eval fun value =>
      if (Command.make name maker).records then value.text?.toList else [] := by
  cases maker with
  | text value => exact (silent_pure _).asks
  | textOf name =>
    exact (silent_bind (still_textNamed name).silent fun s => silent_pure _).asks
  | taintedText value source =>
    exact (silent_bind (silent_newChain makes) fun c =>
      silent_bind (silent_ofFault _) fun s => silent_pure _).asks
  | textWithTaint value name =>
    exact (silent_bind (still_taintNamed name).silent fun t =>
      silent_bind (silent_ofFault _) fun s => silent_pure _).asks
  | concatText left right =>
    exact (silent_bind (still_textNamed left).silent fun left =>
      silent_bind (still_textNamed right).silent fun right =>
        silent_bind (silent_ofFault _) fun s => silent_pure _).asks
  | substring name start stop =>
    exact asks_bind (still_textNamed name).silent fun s =>
      (asks_recordingOrFault fun _ _ _ ok => Text.recordedEach_substring ok).value
  | lower name | upper name =>
    exact asks_bind (still_textNamed name).silent fun s =>
      (asks_recordingOrFault fun _ _ _ ok => Text.recordedEach_mapCharacters ok).value
  | _ => cases makes

/-- The changes that do not record ask nothing. -/
theorem Change.silent_apply {how : Change} (changes : how.ChangesText) (name : String)
    (silent : (Command.change name how).records = false) : Silent (how.apply name) := by
  cases how with
  | markSource start stop source =>
    exact silent_bind (silent_newChain changes) fun c => silent_editText _ _
  | untaint => exact silent_editText _ _
  | push other | insert _ other | copyTaint other _ _ _ =>
    exact silent_bind (still_textNamed other).silent fun s => silent_editText _ _
  | remove start stop => exact silent_editText _ _
  | replace start stop other => cases silent
  | _ => cases changes

/-- What a command records is among its answer, if nothing is left of it when it fails. -/
theorem Command.recordedEach_of_asks {s : Session} {command : Command}
    (asks : Asks command.run fun answer =>
      if command.records then answer.filterMap Value.text? else [])
    (whole : command.brokenOff s = []) :
    Text.RecordedEach s.recorder (command.recorded s) (s.step command).recorder := by
  have recorded := asks s
  unfold Command.recorded
  cases ended : (command.run.ends s).1 with
  | error failure =>
    rw [ended] at recorded
    change Text.RecordedEach _ (command.brokenOff s) _
    rw [whole]
    exact recorded
  | ok answer =>
    rw [ended] at recorded
    exact recorded

theorem asks_replace (name : String) (start stop : Nat) (other : String) :
    Asks (Command.change name (.replace start stop other)).run
      (·.filterMap Value.text?) := by
  have steps : (Command.change name (.replace start stop other)).run = (do
      let other ← textNamed other
      editRecorded name (Text.replace start stop other)
      return [← named name]) := bind_assoc ..
  rw [steps]
  exact asks_bind (still_textNamed other).silent fun other =>
    asks_editRecorded (fun _ _ => Text.recordedEach_replace)
      (fun _ _ _ => Text.recorder_of_replace_fails) name

/-- Splitting has recorded all parts if it is done, and those in front of where it fails if not. -/
theorem recordedEach_split (s : Session) (name separator target : String) :
    Text.RecordedEach s.recorder ((Command.split name separator target).recorded s)
      (s.step (.split name separator target)).recorder := by
  have nothing := Text.recordedEach_nil s.recorder.after_refl
  change Text.RecordedEach _ _ ((Command.split name separator target).run.ends s).2.recorder
  unfold Command.recorded Command.brokenOff Command.run
  dsimp only
  rw [ends_bind, ends_textNamed]
  cases found : s.value? name with
  | none => exact nothing
  | some value =>
    cases value with
    | text t =>
      dsimp only
      rw [ends_bind, ends_leaving, ends_recordingOrFault]
      cases parted : t.split separator s.recorder with
      | error fault => exact Text.recordedEach_splitInFront t separator s.recorder
      | ok made =>
        obtain ⟨_, s', named, same, _⟩ :=
          answers_nameParts target 0 made.1 { s with recorder := made.2 }
        dsimp only
        rw [ends_bind, named]
        change Text.RecordedEach _ ((made.1.map .text).filterMap Value.text?) s'.recorder
        rw [same, Value.filterMap_text?]
        exact Text.recordedEach_recordPieces parted
    | chain _ | range _ | taint _ => exact nothing

/-- One step: a command asks once for each of the tainted texts that it records. -/
theorem Command.recordedEach {command : Command} (onTexts : command.OnTexts) (s : Session) :
    Text.RecordedEach s.recorder (command.recorded s) (s.step command).recorder := by
  cases command with
  | make name maker =>
    refine recordedEach_of_asks ((maker.asks_eval onTexts name).bind fun value => ?_) rfl
    refine answers_bind (answers_assign _ _) fun _ => answers_pure ?_
    cases value <;> rfl
  | change name how =>
    cases records : (change name how).records with
    | false =>
      have silent : Silent (change name how).run :=
        silent_bind (how.silent_apply onTexts name records) fun _ =>
          silent_bind (still_named name).silent fun value => silent_pure _
      refine recordedEach_of_asks ?_ rfl
      simp only [records]
      exact silent.asks
    | true =>
      cases how with
      | replace start stop other =>
        exact recordedEach_of_asks (asks_replace name start stop other) rfl
      | _ => cases records
  | look ranges => cases onTexts
  | split name separator target => exact recordedEach_split ..
  | markArguments texts function sourceInfo =>
    refine recordedEach_of_asks ?_ rfl
    refine asks_bind (still_mapM still_textNamed texts).silent fun arguments => ?_
    have marks : Asks (recording (Text.markArguments function sourceInfo arguments)) (·) :=
      asks_recording (Text.recordedEach_markArguments function sourceInfo arguments)
    refine marks.bind fun marked => answers_bind (answers_assignAll _) fun _ => ?_
    exact answers_pure (Value.filterMap_text? marked)
  | drop name =>
    have silent : Silent (drop name).run :=
      silent_bind (fun s => s.recorder.after_refl) fun _ => silent_pure _
    exact recordedEach_of_asks silent.asks rfl

/-! ## Runs -/

/-- The texts on which commands record an operation if they are tainted, one command after the
other. -/
def recorded (s : Session) : List Command → List Text
  | [] => []
  | command :: rest => command.recorded s ++ (s.step command).recorded rest

theorem recordedEach_after (s : Session) {program : List Command}
    (onTexts : ∀ command ∈ program, command.OnTexts) :
    Text.RecordedEach s.recorder (s.recorded program) (s.after program).recorder := by
  induction program generalizing s with
  | nil => exact Text.recordedEach_nil s.recorder.after_refl
  | cons command rest ih =>
    have first := Command.recordedEach (onTexts command (by simp)) s
    exact first.append (ih _ fun c mem => onTexts c (by simp [mem]))

/-- **The embedding is asked exactly when an operation is recorded.**  In every run of operations on
texts, every command asks once for each tainted one of the texts that it records an operation on, in
their order, and else nothing; if recording is off, or locations are not recorded, it asks nothing.
The operation that is recorded on the `k`-th of them carries the answer to its own question; so do
all operations of the run. -/
theorem asks_when_recording (s : Session) (program : List Command)
    (onTexts : ∀ command ∈ program, command.OnTexts) :
    let config := s.recorder.config
    let asking := config.enabled && config.recordLocations
    let location (asked : Nat) := if config.recordLocations then s.recorder.callSite asked else none
    (∀ before command, before ++ [command] <+: program →
      let now := s.after before
      let tainted := (command.recorded now).filter Text.isTainted
      (now.step command).recorder.asked =
        now.recorder.asked + (if asking then tainted.length else 0) ∧
      (config.enabled = true → ∀ k t, tainted[k]? = some t → ∀ c ∈ t.taint.chains,
        c.Since now.recorder.nextSerial ∧
          c.operation.location = location (now.recorder.asked + k))) ∧
    let tainted := (s.recorded program).filter Text.isTainted
    (s.after program).recorder.asked =
      s.recorder.asked + (if asking then tainted.length else 0) ∧
    (config.enabled = true → ∀ k t, tainted[k]? = some t → ∀ c ∈ t.taint.chains,
      c.Since s.recorder.nextSerial ∧
        c.operation.location = location (s.recorder.asked + k)) := by
  intro config asking location
  refine ⟨fun before command run => ?_, ?_⟩
  · have inFront : before <+: program := (List.prefix_append before [command]).trans run
    have soFar := recordedEach_after s fun command mem => onTexts command (inFront.subset mem)
    have step := Command.recordedEach (onTexts command (run.subset (by simp))) (s.after before)
    have asked := step.after.asked
    have located := step.located
    unfold Recorder.questionsFor at asked
    unfold Recorder.locationAt at located
    rw [soFar.after.config] at asked located
    rw [soFar.after.callSite] at located
    exact ⟨asked, located⟩
  · have whole := recordedEach_after s onTexts
    exact ⟨whole.after.asked, whole.located⟩

/-- A part of a text is cut out, the text is split, and its pieces are marked as arguments: every
tainted result has its own question, and the argument the last answer. -/
theorem asks_when_recording_split :
    let read : Chain := .ofSource { name := "read" } 0
    let s : Session := {
      values := [("given", .taint ⟨some [⟨0, 2, read, by decide, by decide⟩]⟩)]
      recorder := { callSite := fun asked => some { line := asked.toUInt32 } } }
    let program : List Command := [
      .make "text" (.textWithTaint "abc" "given"), .make "part" (.substring "text" 1 3),
      .split "text" "" "piece", .markArguments ["piece.0", "piece.2"] "eval" "input"]
    (∀ command ∈ program, command.OnTexts) ∧ (s.after program).recorder.asked = 4 ∧
      ∀ t, ((s.recorded program).filter Text.isTainted)[3]? = some t → ∀ c ∈ t.taint.chains,
        c.operation.location = some { line := 3 } := by
  intro read s program
  have onTexts : ∀ command ∈ program, command.OnTexts := by
    simp [program, Command.OnTexts, Maker.MakesText]
  obtain ⟨-, asked, located⟩ := asks_when_recording s program onTexts
  refine ⟨onTexts, ?_, fun t found c mem => (located rfl 3 t found c mem).2⟩
  rw [asked]
  decide +kernel

end Session

end TextProvenance
