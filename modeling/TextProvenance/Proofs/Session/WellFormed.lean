import TextProvenance.Proofs.Session.Closed

/-!
# Taint stays well formed in sessions

Whatever commands are run, and whether they succeed or fail, every taint and every text of a session
has well-formed taint (`Session.wellFormed_after`).  That is a property of texts that all operations
are closed under (`Text.closed_wellFormed`), and the conditional changes keep it too; a run is an
induction over its commands.
-/

namespace TextProvenance

theorem Text.closed_wellFormed : Text.Closed Text.WellFormed where
  wellFormed _ wf := wf
  untainted _ := Taint.wellFormed_untainted
  ofChain _ _ _ ok := ofChain_wellFormed ok
  ofTaint _ _ _ wf ok := ofTaint_wellFormed wf ok
  markSource _ _ _ _ _ ok := markSource_wellFormed ok
  substring _ _ _ _ _ _ _ ok := substring_wellFormed ok
  concat _ _ _ wf _ ok := concat_wellFormed wf ok
  mapCharacters _ _ _ _ _ _ _ ok := mapCharacters_wellFormed ok
  split _ _ _ _ _ _ ok := recordPieces_wellFormed ok
  markArguments _ _ _ _ wf := markArguments_wellFormed wf
  push other _ := keeps_push other
  insert index other _ := keeps_insert index other

theorem Value.meets_wellFormed_iff {value : Value} :
    value.Meets Text.WellFormed ↔ ∀ t, value.taint? = some t → t.WellFormed := by
  cases value with
  | chain _ | range _ => exact ⟨fun _ _ taint => (nomatch taint), fun _ => trivial⟩
  | taint t => exact ⟨fun wf _ taint => Option.some.inj taint ▸ wf, fun wf => wf t rfl⟩
  | text s => exact ⟨fun wf _ taint => Option.some.inj taint ▸ wf, fun wf => wf s.taint rfl⟩

namespace Session

open SessionM

theorem keeps_applyTaintChange (name : String) (change : Taint.Change) :
    Keeps (Value.Meets Text.WellFormed) (applyTaintChange name change) fun _ => True :=
  keeps_bind (reads_taintNamed name).keeps fun _ _ =>
    keeps_bind (reads_recording _).keeps fun serial _ =>
      keeps_editTaint (change.keeps_wellFormed serial) fun s wf =>
        change.keeps_wellFormed serial s.taint wf

theorem Change.keeps_wellFormed (name : String) (change : Change) :
    Keeps (Value.Meets Text.WellFormed) (change.apply name) fun _ => True := by
  refine change.keeps_meets Text.closed_wellFormed name fun conditional => ?_
  cases change with
  | taint term count =>
    exact keeps_bind term.reads_eval.keeps fun change _ =>
      keeps_times (keeps_applyTaintChange name change) count
  | remove start stop => exact keeps_editText (Text.keeps_remove start stop)
  | replace start stop other =>
    exact keeps_bind (keeps_textNamed other) fun other _ =>
      keeps_editRecorded (Text.keeps_replace start stop other)
  | copyTaint source start offset stop =>
    exact keeps_bind (keeps_textNamed source) fun source _ =>
      keeps_editText (Text.keeps_copyTaint source start offset stop)
  | _ => cases conditional

/-- From a session whose taint is well formed, any commands lead to one whose taint is. -/
theorem holds_wellFormed_after {s : Session} (wf : s.Holds (Value.Meets Text.WellFormed))
    (commands : List Command) : (s.after commands).Holds (Value.Meets Text.WellFormed) :=
  wf.after fun command _ => command.keeps_meets Text.closed_wellFormed fun name change _ _ =>
    change.keeps_wellFormed name

/-- **Taint is well formed in every run.**  From a session without taint, any commands with any
arguments, also ones that fail, lead to a session where every taint, and the taint of every text, is
well formed. -/
theorem wellFormed_after (s : Session) (commands : List Command)
    (untainted : ∀ named ∈ s.values, ∀ t, named.2.taint? = some t → t = .untainted) :
    ∀ named ∈ (s.after commands).values, ∀ t, named.2.taint? = some t → t.WellFormed := by
  have wf : s.Holds (Value.Meets Text.WellFormed) := by
    intro named mem
    refine Value.meets_wellFormed_iff.mpr fun t taint => ?_
    rw [untainted named mem t taint]
    exact Taint.wellFormed_untainted
  intro named mem
  exact Value.meets_wellFormed_iff.mp (holds_wellFormed_after wf commands named mem)

/-- Source taint is overlaid in part, extended, and appended to out of order, which fails. -/
theorem wellFormed_after_overlay :
    (∀ named ∈ [("t", Value.taint .untainted)], ∀ t, named.2.taint? = some t → t = .untainted) ∧
      ∀ named ∈ (after { values := [("t", .taint .untainted)] } [
          .change "t" (.taint (.append (.fresh 2 6 (.given { name := "read" }))) 1),
          .change "t" (.taint (.overlay 0 4 (.given { name := "join" })) 2),
          .change "t" (.taint (.extend (.made "trim" true ["x"])) 1),
          .change "t" (.taint (.append (.fresh 1 3 (.given { name := "late" }))) 1)]).values,
        ∀ t, named.2.taint? = some t → t.WellFormed := by
  have untainted : ∀ named ∈ [("t", Value.taint .untainted)], ∀ t,
      named.2.taint? = some t → t = .untainted := by
    intro named mem t taint
    cases List.mem_singleton.mp mem
    exact (Option.some.inj taint).symm
  exact ⟨untainted, wellFormed_after { values := [("t", .taint .untainted)] } _ untainted⟩

end Session

end TextProvenance
