import TextProvenance.Proofs.Session.Alike
import TextProvenance.Proofs.Session.WellFormed

/-!
# Recording does not interfere with tracking

A run of operations on texts is compared with a second run of them, under another recorder: with
other settings, other call sites, and another supply of serial numbers.  What is recorded differs
then, and so does how taint is cut into ranges.  But the same operations fail, and after every one
of them the texts have the same values, the same positions are tainted, and by the same sources
(`Session.tracks_alike`).
-/

namespace TextProvenance.Session

open SessionM

/-! ## Operations on texts -/

/-- The operation is written out, and not made by the recorder. -/
def OperationTerm.IsGiven : OperationTerm → Prop
  | given _ => True
  | made .. => False

/-- What is made is a text, and its source is given. -/
def Maker.MakesText : Maker → Prop
  | taintedText _ source => source.IsGiven
  | text _ | textOf _ | textWithTaint .. | substring .. | concatText .. | lower _ | upper _ => True
  | _ => False

/-- What is changed is a text, value and taint together, and a new source is given. -/
def Change.ChangesText : Change → Prop
  | markSource _ _ source => source.IsGiven
  | untaint | push _ | insert .. | remove .. | replace .. | copyTaint .. => True
  | _ => False

/-- The command is an operation on texts. -/
def Command.OnTexts : Command → Prop
  | make _ maker => maker.MakesText
  | change _ how => how.ChangesText
  | split .. | markArguments .. | drop _ => True
  | look _ => False

/-- The command fails in the session. -/
def Command.Fails (s : Session) (command : Command) : Prop :=
  ∃ failure, (command.run.ends s).1 = .error failure

theorem agree_newChain {source : OperationTerm} (given : source.IsGiven) :
    Agree (newChain source) (newChain source) fun c c' => c.source = c'.source := by
  cases source with
  | given operation =>
    apply agree_bind (Q := (· = ·)) (agree_pure rfl)
    rintro operation _ rfl
    exact agree_recording fun _ _ => rfl
  | made name native arguments => cases given

theorem agree_nameParts {target : String} {parts parts' : List Text}
    (all : List.Forall₂ Text.Alike parts parts') (index : Nat) :
    Agree (nameParts target index parts) (nameParts target index parts') fun _ _ => True := by
  induction all generalizing index with
  | nil => exact agree_pure trivial
  | cons alike _ ih =>
    exact agree_bind (agree_assign _ (.text alike)) fun _ _ _ => ih (index + 1)

theorem Maker.agree_eval {maker : Maker} (makes : maker.MakesText) :
    Agree maker.eval maker.eval Value.Alike := by
  cases maker with
  | text value => exact agree_pure (.text ⟨rfl, Taint.alike_self Taint.wellFormed_untainted⟩)
  | textOf name =>
    exact agree_bind (agree_textNamed name) fun s s' alike => agree_pure (.text alike)
  | taintedText value source =>
    exact agree_bind (agree_newChain makes) fun c c' same =>
      agree_bind (agree_ofFault (Text.together_ofChain value same)) fun s s' alike =>
        agree_pure (.text alike)
  | textWithTaint value name =>
    exact agree_bind (agree_taintNamed name) fun t t' alike =>
      agree_bind (agree_ofFault (Text.together_ofTaint value alike)) fun s s' alike =>
        agree_pure (.text alike)
  | substring name start stop =>
    exact agree_bind (agree_textNamed name) fun s s' alike =>
      agree_bind (agree_recordingOrFault fun _ _ => Text.together_substring alike start stop)
        fun s s' alike => agree_pure (.text alike)
  | concatText left right =>
    exact agree_bind (agree_textNamed left) fun left left' alike =>
      agree_bind (agree_textNamed right) fun right right' alikeRight =>
        agree_bind (agree_ofFault (Text.together_concat alike alikeRight)) fun s s' alike =>
          agree_pure (.text alike)
  | lower name | upper name =>
    exact agree_bind (agree_textNamed name) fun s s' alike =>
      agree_bind (agree_recordingOrFault fun _ _ => Text.together_mapCharacters alike _ _)
        fun s s' alike => agree_pure (.text alike)
  | _ => cases makes

theorem Change.agree_apply {change : Change} (changes : change.ChangesText) (name : String) :
    Agree (change.apply name) (change.apply name) fun _ _ => True := by
  cases change with
  | markSource start stop source =>
    exact agree_bind (agree_newChain changes) fun c c' same =>
      agree_editText name (Edit.agree_step fun s s' alike =>
        Text.together_markSource alike start stop same)
  | untaint =>
    exact agree_editText name (Edit.agree_step fun s s' alike => .ok (Text.alike_untaint alike))
  | push other =>
    exact agree_bind (agree_textNamed other) fun other other' alike =>
      agree_editText name (Text.agree_push alike)
  | insert index other =>
    exact agree_bind (agree_textNamed other) fun other other' alike =>
      agree_editText name (Text.agree_insert index alike)
  | remove start stop => exact agree_editText name (Text.agree_remove start stop)
  | replace start stop other =>
    exact agree_bind (agree_textNamed other) fun other other' alike =>
      agree_editRecorded name (Text.agree_replace start stop alike)
  | copyTaint source start offset stop =>
    exact agree_bind (agree_textNamed source) fun source source' alike =>
      agree_editText name (Text.agree_copyTaint alike start offset stop)
  | _ => cases changes

/-- One step of two runs: the command fails in both, or answers values that are alike. -/
theorem Command.agree_run {command : Command} (onTexts : command.OnTexts) :
    Agree command.run command.run (List.Forall₂ Value.Alike) := by
  have texts {parts parts' : List Text} (all : List.Forall₂ Text.Alike parts parts') :
      List.Forall₂ Value.Alike (parts.map .text) (parts'.map .text) :=
    List.rel_map (fun _ _ alike => .text alike) all
  cases command with
  | make name maker =>
    exact agree_bind (maker.agree_eval onTexts) fun value value' alike =>
      agree_bind (agree_assign name alike) fun _ _ _ => agree_pure (.cons alike .nil)
  | change name how =>
    exact agree_bind (how.agree_apply onTexts name) fun _ _ _ =>
      agree_bind (agree_named name) fun value value' alike => agree_pure (.cons alike .nil)
  | look ranges => cases onTexts
  | split name separator target =>
    refine agree_bind (agree_textNamed name) fun s s' alike => ?_
    refine agree_bind (agree_leaving (agree_recordingOrFault fun _ _ =>
      Text.together_split alike separator)) fun parts parts' all => ?_
    exact agree_bind (agree_nameParts all 0) fun _ _ _ => agree_pure (texts all)
  | markArguments names function sourceInfo =>
    refine agree_bind (agree_mapM agree_textNamed) fun arguments arguments' all => ?_
    refine agree_bind (agree_recording fun _ _ => Text.alike_markArguments all)
      fun marked marked' all => ?_
    exact agree_bind (agree_assignAll all) fun _ _ _ => agree_pure (texts all)
  | drop name =>
    exact agree_bind ⟨fun s s' alike => ⟨alike.unbind name, .ok trivial⟩⟩
      fun _ _ (_ : True) => agree_pure .nil

/-! ## Runs -/

variable {s s' : Session}

theorem Alike.step (alike : s.Alike s') {command : Command} (onTexts : command.OnTexts) :
    (s.step command).Alike (s'.step command) :=
  ((Command.agree_run onTexts).ends s s' alike).1

theorem Alike.fails_iff (alike : s.Alike s') {command : Command} (onTexts : command.OnTexts) :
    command.Fails s ↔ command.Fails s' :=
  ((Command.agree_run onTexts).ends s s' alike).2.exists_error_iff

theorem Alike.after (alike : s.Alike s') {program : List Command}
    (onTexts : ∀ command ∈ program, command.OnTexts) :
    (s.after program).Alike (s'.after program) := by
  induction program generalizing s s' with
  | nil => exact alike
  | cons command rest ih =>
    exact ih (alike.step (onTexts command (by simp))) fun c mem => onTexts c (by simp [mem])

theorem alike_of_inputs {inputs : List (String × Value)}
    (wellFormed : ∀ named ∈ inputs, ∀ t, named.2.taint? = some t → t.WellFormed)
    (recorder recorder' : Recorder) : Alike ⟨inputs, recorder⟩ ⟨inputs, recorder'⟩ := by
  apply List.forall₂_same.mpr
  rintro ⟨name, value⟩ mem
  refine ⟨rfl, ?_⟩
  cases value with
  | chain c => exact .chain c
  | range r => exact .range r
  | taint t => exact .taint (Taint.alike_self (wellFormed _ mem t rfl))
  | text s => exact .text (Text.alike_self (wellFormed _ mem s.taint rfl))

/-- **Recording does not interfere with tracking.**  Two runs of a program on texts, on the same
inputs and under any two recorders, have the same steps that fail, and after every step every name
stands for the same in both, up to what was recorded: a text has the same value, the same positions
of it are tainted, and the taint of each has the same source. -/
theorem tracks_alike (inputs : List (String × Value)) (recorder recorder' : Recorder)
    (program : List Command)
    (wellFormed : ∀ named ∈ inputs, ∀ t, named.2.taint? = some t → t.WellFormed)
    (onTexts : ∀ command ∈ program, command.OnTexts) :
    (∀ before, before <+: program → ∀ name,
      Option.Rel Value.Alike ((after ⟨inputs, recorder⟩ before).value? name)
        ((after ⟨inputs, recorder'⟩ before).value? name)) ∧
    ∀ before command, before ++ [command] <+: program →
      (command.Fails (after ⟨inputs, recorder⟩ before) ↔
        command.Fails (after ⟨inputs, recorder'⟩ before)) := by
  have start := alike_of_inputs wellFormed recorder recorder'
  have alike {before : List Command} (run : before <+: program) :
      (after ⟨inputs, recorder⟩ before).Alike (after ⟨inputs, recorder'⟩ before) :=
    start.after fun command mem => onTexts command (run.subset mem)
  refine ⟨fun before run name => (alike run).value? name, fun before command run => ?_⟩
  have inFront : before <+: program := (List.prefix_append before [command]).trans run
  have mem : command ∈ program := run.subset (by simp)
  exact (alike inFront).fails_iff (onTexts command mem)

/-- A text with given taint is cut up and put together again, once under a recorder that is on, and
once under one that is off; replacing bytes behind its end fails in both runs. -/
theorem tracks_alike_off :
    let read : Chain := .ofSource { name := "read" } 0
    let inputs : List (String × Value) :=
      [("given", .taint ⟨some [⟨0, 3, read, by decide, by decide⟩]⟩)]
    let on : Recorder := { callSite := fun asked => some { line := asked.toUInt32 } }
    let off : Recorder :=
      { config := { enabled := false, maxArgumentLength := 1 }, nextSerial := 7 }
    let program : List Command := [
      .make "text" (.textWithTaint "abc" "given"), .make "part" (.substring "text" 1 3),
      .change "text" (.push "part"), .change "text" (.replace 2 9 "part"),
      .change "text" (.insert 1 "part")]
    (∀ named ∈ inputs, ∀ t, named.2.taint? = some t → t.WellFormed) ∧
      (∀ command ∈ program, command.OnTexts) ∧
      (∀ before, before <+: program → ∀ name,
        Option.Rel Value.Alike ((after ⟨inputs, on⟩ before).value? name)
          ((after ⟨inputs, off⟩ before).value? name)) ∧
      ∀ before command, before ++ [command] <+: program →
        (command.Fails (after ⟨inputs, on⟩ before) ↔
          command.Fails (after ⟨inputs, off⟩ before)) := by
  intro read inputs on off program
  have wellFormed : ∀ named ∈ inputs, ∀ t, named.2.taint? = some t → t.WellFormed := by
    intro named mem t taint
    cases List.mem_singleton.mp mem
    cases taint
    decide
  have onTexts : ∀ command ∈ program, command.OnTexts := by
    simp [program, Command.OnTexts, Maker.MakesText, Change.ChangesText]
  exact ⟨wellFormed, onTexts, tracks_alike inputs on off program wellFormed onTexts⟩

end TextProvenance.Session
