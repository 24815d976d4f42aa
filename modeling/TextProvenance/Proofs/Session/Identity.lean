import TextProvenance.Proofs.Session.Ledger
import TextProvenance.Proofs.Session.Made
import TextProvenance.Proofs.Text.Questions

/-!
# Identity of nodes in runs

A node is the one that was recorded under its number: `identity_after` says so of all that can be
reached in any run, that new nodes differ from those that were there, and that a command leaves all
names alone that it does not set.

A ledger that covers a session can be written on for every command (`Command.records_run`, one case
for each way to make or change a value), so after any commands there is a ledger that covers the
session (`exists_covers_after`).
-/

namespace TextProvenance

namespace Session

open SessionM

variable {sets : String → Prop} {pre : List Chain} {name : String} {L : Ledger}

/-- The names that a command may give to other values, or forget. -/
def Command.Sets : Command → String → Prop
  | make name _, other | change name _, other | drop name, other => other = name
  | split _ _ target, other => ∃ index : Nat, other = s!"{target}.{index}"
  | markArguments texts _ _, other => other ∈ texts
  | look _, _ => False

/-- The values that a command answers with; none if it fails. -/
def Command.answer (s : Session) (command : Command) : List Value :=
  match (command.run.ends s).1 with
  | .ok values => values
  | .error _ => []

/-! ## Makers -/

theorem OperationTerm.records_eval (operation : OperationTerm) :
    Records sets pre operation.eval fun _ => [] := by
  cases operation with
  | given operation => exact records_pure (List.nil_subset _)
  | made name native arguments =>
    unfold eval
    refine records_recording fun L recorder same _ => ?_
    rw [Recorder.nextSerial_operation, ← same]
    exact Ledger.continues_nil

theorem records_newChain (source : OperationTerm) :
    Records sets pre (newChain source) fun c => [c] :=
  records_bind source.records_eval fun operation =>
    records_recording fun _ recorder same _ => recorder.continues_newChain same operation

theorem records_extendChain {c : Chain} (mem : c ∈ pre) (operation : Operation) :
    Records sets pre (recording (·.extendChain c operation)) fun d => [d] :=
  records_recording fun _ _ same listed =>
    Recorder.continues_extendChain same (listed c mem) operation

theorem RangeTerm.records_eval (range : RangeTerm) :
    Records sets pre range.eval fun r => [r.chain] := by
  have bounded {start stop : Nat} {c : Chain} :
      Records sets ([c] ++ pre) (ofFault (Range.ofBounds start stop c)) fun r => [r.chain] := by
    refine records_ofFault fun r ok => ?_
    rw [Range.chain_of_ofBounds ok]
    exact List.subset_append_left ..
  cases range with
  | named name => exact records_rangeNamed name
  | along start stop chain => exact records_bind (records_chainNamed chain) fun _ => bounded
  | fresh start stop source => exact records_bind (records_newChain source) fun _ => bounded

/-- Ranges of entries are numbered one after the other, and their chains stand on no others. -/
theorem records_taintOfEntries (entries : List Listing.Entry) :
    Records sets pre (taintOfEntries entries) Taint.chains := by
  refine records_recordingOrFault fun L recorder t recorder' same _ ok => ?_
  rcases bind_eq_ok_iff.mp ok with ⟨made, built, ended⟩
  cases ended
  rw [← same] at built
  rw [Recorder.advance, ← same]
  have count : entries.length =
      ((Listing.ranges entries L.nextSerial).map Range.chain).length := by
    simp [Listing.ranges]
  rw [count]
  refine Ledger.continues_of_numbered _ ?_ (fun c mem p parent => ?_) fun c mem => .inr ?_
  · rw [← count, List.map_map]
    exact Listing.serials_ranges entries L.nextSerial
  · obtain ⟨r, memRanges, rfl⟩ := List.mem_map.mp mem
    obtain ⟨index, inside, rfl⟩ := List.mem_mapIdx.mp memRanges
    cases parent
  · exact Taint.under_iff.mp
      (Taint.under_ofRanges (fun r mem => List.mem_map_of_mem mem) built) c mem

/-- Taint that is built from a range with a listed chain. -/
theorem records_ofRange {r : Range} (mem : r.chain ∈ pre) :
    Records sets pre (ofFault (Taint.ofRange r)) Taint.chains :=
  records_ofFault fun _ ok => Taint.under_iff.mp (Taint.under_ofRange mem ok)

theorem records_value {α : Type} {m : SessionM α} {chains : α → List Chain} {make : α → Value}
    (records : Records sets pre m chains) (same : ∀ a, (make a).chains = chains a) :
    Records sets pre (do return make (← m)) Value.chains :=
  records_bind records fun a => records_pure (same a ▸ List.subset_append_left ..)

theorem Maker.records_eval (maker : Maker) : Records sets pre maker.eval Value.chains := by
  cases maker with
  | chain source => exact records_value (records_newChain source) fun _ => rfl
  | chainOf name => exact records_value (records_chainNamed name) fun _ => rfl
  | extendedChain name operation =>
    refine records_bind (records_chainNamed name) fun c => ?_
    refine records_bind operation.records_eval fun operation => ?_
    exact records_value (records_extendChain List.mem_cons_self operation) fun _ => rfl
  | chainOfRange range | range range => exact records_value range.records_eval fun _ => rfl
  | shiftedRange range amount =>
    refine records_bind range.records_eval fun r => records_value ?_ fun _ => rfl
    refine records_ofFault fun x ok => ?_
    rw [Value.chains, Range.chain_of_moved ok]
    exact List.subset_append_left ..
  | rangeWithBounds range start stop =>
    refine records_bind range.records_eval fun r => records_value ?_ fun _ => rfl
    refine records_ofFault fun x ok => ?_
    rw [Value.chains, Range.chain_of_ofBounds ok]
    exact List.subset_append_left ..
  | untainted => exact records_pure (List.nil_subset _)
  | taintOf name => exact records_value (records_taintNamed name) fun _ => rfl
  | taintOfRange range =>
    exact records_bind range.records_eval fun r =>
      records_value (records_ofRange List.mem_cons_self) fun _ => rfl
  | taintOfRanges ranges =>
    refine records_bind (records_mapM fun range _ _ => range.records_eval) fun items => ?_
    refine records_value (records_ofFault fun t ok => ?_) fun _ => rfl
    refine Taint.under_iff.mp (Taint.under_ofRanges (fun r mem => ?_) ok)
    exact List.mem_append_left _ (List.mem_flatMap.mpr ⟨r, mem, List.mem_singleton_self _⟩)
  | taintOfSource start stop source =>
    exact records_bind (RangeTerm.records_eval (.fresh start stop source)) fun r =>
      records_value (records_ofRange List.mem_cons_self) fun _ => rfl
  | taintOfChain name length =>
    exact records_bind (RangeTerm.records_eval (.along 0 length name)) fun r =>
      records_value (records_ofRange List.mem_cons_self) fun _ => rfl
  | listing content =>
    simp only [eval]
    split
    · exact records_value (records_taintOfEntries _) fun _ => rfl
    · exact records_throw _
  | listingOrUntainted content => exact records_value (records_taintOfEntries _) fun _ => rfl
  | subtaint name start stop =>
    refine records_bind (records_taintNamed name) fun t => records_value ?_ fun _ => rfl
    refine records_ofFault fun window ok => ?_
    exact Taint.under_iff.mp (Taint.subtaint_under (Taint.under_of_append fun _ => id) ok)
  | concatTaint left leftLength right =>
    refine records_bind (records_taintNamed left) fun t => ?_
    refine records_bind (records_taintNamed right) fun u => records_value ?_ fun _ => rfl
    refine records_ofFault fun joined ok => ?_
    refine Taint.under_iff.mp (Taint.concatOf_under (P := (· ∈ _)) ?_ ?_ ok)
    · exact Taint.under_iff.mpr fun c mem =>
        List.mem_append_right _ (List.mem_append_left _ mem)
    · exact Taint.under_of_append fun _ => id
  | extendedTaint name operation =>
    refine records_bind (records_taintNamed name) fun t => ?_
    refine records_bind operation.records_eval fun operation => records_value ?_ fun _ => rfl
    refine records_recordingOrFault fun L recorder t' recorder' same listed ok => ?_
    rcases bind_eq_ok_iff.mp ok with ⟨made, extended, ended⟩
    cases ended
    rw [← same] at extended
    rw [Recorder.advance, ← same]
    refine Taint.continues_extended (Taint.under_iff.mpr fun c mem => listed c ?_) extended
    exact List.mem_append_right _ (List.mem_append_left _ mem)
  | text value => exact records_pure (List.nil_subset _)
  | textOf name => exact records_value (records_textNamed name) fun _ => rfl
  | taintedText value source =>
    refine records_bind (records_newChain source) fun c => records_value ?_ fun _ => rfl
    refine records_ofFault fun s ok => ?_
    exact Taint.under_iff.mp (Text.ofChain_under (P := (· ∈ _)) List.mem_cons_self ok)
  | textWithTaint value name =>
    refine records_bind (records_taintNamed name) fun t => records_value ?_ fun _ => rfl
    refine records_ofFault fun s ok => ?_
    exact Taint.under_iff.mp
      (Text.ofTaint_under (P := (· ∈ _)) (Taint.under_of_append fun _ => id) ok)
  | substring name start stop =>
    refine records_bind (records_textNamed name) fun s => records_value ?_ fun _ => rfl
    exact records_recordingOrFault fun L recorder s' recorder' same listed ok =>
      Text.continues_substring same (Taint.under_of_append listed) ok
  | concatText left right =>
    refine records_bind (records_textNamed left) fun s => ?_
    refine records_bind (records_textNamed right) fun other => records_value ?_ fun _ => rfl
    refine records_ofFault fun joined ok => ?_
    refine Taint.under_iff.mp (Text.concat_under (P := (· ∈ _)) ?_ ?_ ok)
    · exact Taint.under_iff.mpr fun c mem =>
        List.mem_append_right _ (List.mem_append_left _ mem)
    · exact Taint.under_of_append fun _ => id
  | lower name | upper name =>
    refine records_bind (records_textNamed name) fun s => records_value ?_ fun _ => rfl
    exact records_recordingOrFault fun L recorder s' recorder' same listed ok =>
      Text.continues_mapCharacters same (Taint.under_of_append listed) ok

/-! ## Changes -/

theorem TaintChange.records_eval (change : TaintChange) :
    Records sets pre change.eval Taint.Change.operandChains := by
  have operand {α : Type} {m : SessionM α} {chains : α → List Chain} {make : α → Taint.Change}
      (records : Records sets pre m chains) (same : ∀ a, (make a).operandChains = chains a) :
      Records sets pre (do return make (← m)) Taint.Change.operandChains :=
    records_bind records fun a => records_pure (same a ▸ List.subset_append_left ..)
  cases change with
  | append range | addRange range => exact operand range.records_eval fun _ => rfl
  | addTaint other => exact operand (records_taintNamed other) fun _ => rfl
  | concat other offset => exact operand (records_taintNamed other) fun _ => rfl
  | insert index other => exact operand (records_taintNamed other) fun _ => rfl
  | set index chain => exact operand (records_chainNamed chain) fun _ => rfl
  | overlay start stop operation => exact operand operation.records_eval fun _ => rfl
  | extend operation => exact operand operation.records_eval fun _ => rfl
  | clearBetween _ _ | clearAt _ | clear | shift _ _ | convertBase _ _ _ =>
    exact records_pure (List.nil_subset _)

theorem records_applyTaintChange {change : Taint.Change} (set : sets name)
    (operands : change.operandChains ⊆ pre) :
    Records sets pre (applyTaintChange name change) fun _ => [] := by
  constructor
  · intro s L covers listed
    rw [chainsOf_nil]
    cases named : (s.value? name).bind Value.taint? with
    | none =>
      rw [ends_applyTaintChange_of_none named]
      exact continues_of_covers covers
    | some t =>
      obtain ⟨value, found, tainted⟩ := Option.bind_eq_some_iff.mp named
      have under : t.Under L.Lists := Taint.under_iff.mpr fun c mem =>
        covers.lists c (mem_chains_of_value? found (Value.chains_of_taint? tainted ▸ mem))
      have continues := change.continues under fun c mem => listed c (operands mem)
      rw [covers.nextSerial, ← Value.chains_of_taint? (value.taint?_withTaint _)] at continues
      rw [ends_applyTaintChange found tainted]
      exact continues_bind (s := s) covers continues
  · intro s other unset
    cases named : (s.value? name).bind Value.taint? with
    | none => rw [ends_applyTaintChange_of_none named]
    | some t =>
      obtain ⟨value, found, tainted⟩ := Option.bind_eq_some_iff.mp named
      rw [ends_applyTaintChange found tainted]
      exact value?_bind_of_ne { s with recorder := _ } _ fun same => unset (same ▸ set)

theorem Change.records_apply (set : sets name) (change : Change) :
    Records sets pre (change.apply name) fun _ => [] := by
  cases change with
  | extendChain operation count =>
    refine records_bind operation.records_eval fun operation => records_times ?_ count
    refine records_bind (records_chainNamed name) fun c => ?_
    refine records_bind (records_extendChain List.mem_cons_self operation) fun d => ?_
    exact records_assign set (List.subset_append_left ..)
  | resizeRange start stop =>
    refine records_bind (records_rangeNamed name) fun r => ?_
    have resized : Records sets ([r.chain] ++ pre) (ofFault (r.withBounds start stop))
        fun x => [x.chain] := by
      refine records_ofFault fun x ok => ?_
      rw [Range.chain_of_ofBounds ok]
      exact List.subset_append_left ..
    exact records_bind resized fun x => records_assign set (List.subset_append_left ..)
  | extendRange operation =>
    refine records_bind operation.records_eval fun operation => ?_
    refine records_bind (records_rangeNamed name) fun r => ?_
    refine records_bind (records_extendChain List.mem_cons_self operation) fun d => ?_
    exact records_assign set (List.subset_append_left ..)
  | taint change count =>
    refine records_bind change.records_eval fun change => records_times ?_ count
    exact records_applyTaintChange set (List.subset_append_left ..)
  | markSource start stop source =>
    refine records_bind (records_newChain source) fun c => records_editText set fun P each => ?_
    exact Edit.keeps_step fun s s' _ ok => Text.markSource_under (each c List.mem_cons_self) ok
  | untaint =>
    refine records_editText set fun P _ => Edit.keeps_step fun s s' _ ok => ?_
    cases ok
    exact Taint.under_untainted
  | push other =>
    refine records_bind (records_textNamed other) fun other => records_editText set fun P each => ?_
    exact Text.keeps_under_push (Taint.under_of_append each)
  | insert index other =>
    refine records_bind (records_textNamed other) fun other => records_editText set fun P each => ?_
    exact Text.keeps_under_insert index (Taint.under_of_append each)
  | remove start stop =>
    exact records_editText set fun P _ => Text.keeps_under_remove start stop
  | replace start stop other =>
    refine records_bind (records_textNamed other) fun other => ?_
    refine records_editRecorded set fun L s recorder same under listed => ?_
    exact Text.continued_replace same under (Taint.under_of_append listed)
  | copyTaint source start offset stop =>
    refine records_bind (records_textNamed source) fun source =>
      records_editText set fun P each => ?_
    exact Text.keeps_under_copyTaint (Taint.under_of_append each) start offset stop

/-! ## Commands -/

theorem records_nameParts {target : String} {parts : List Text} (index : Nat)
    (set : ∀ index : Nat, sets s!"{target}.{index}") (sub : Text.chainsOf parts ⊆ pre) :
    Records sets pre (nameParts target index parts) fun _ => [] := by
  induction parts generalizing index with
  | nil => exact records_pure (List.nil_subset _)
  | cons part rest ih =>
    rw [Text.chainsOf_cons] at sub
    rcases List.append_subset.mp sub with ⟨first, others⟩
    exact records_bind (records_assign (set index) first) fun _ => ih (index + 1) others

theorem Command.records_run (command : Command) :
    Records command.Sets pre command.run (·.flatMap Value.chains) := by
  cases command with
  | make name maker =>
    refine records_bind maker.records_eval fun value => ?_
    refine records_bind (records_assign rfl (List.subset_append_left ..)) fun _ => records_pure ?_
    simp
  | change name how =>
    have set : (change name how).Sets name := rfl
    refine records_bind (how.records_apply set) fun _ => ?_
    refine records_bind (records_named name) fun value => records_pure ?_
    simp
  | look ranges =>
    refine records_bind (records_mapM fun range _ _ => range.records_eval) fun items =>
      records_pure ?_
    simp [List.flatMap_map, Value.chains]
  | split name separator target =>
    refine records_bind (records_textNamed name) fun s => ?_
    have cuts : Records (split name separator target).Sets (s.taint.chains ++ pre)
        (recordingOrFault (s.split separator)) Text.chainsOf :=
      records_recordingOrFault fun L recorder parts recorder' same listed ok =>
        Text.continues_split same (Taint.under_of_append listed) ok
    have later (recorder : Recorder) :
        recorder.nextSerial ≤ (s.splitInFront separator recorder).2.nextSerial :=
      (s.recordedEach_splitInFront separator recorder).after.nextSerial
    refine records_bind (records_leaving later cuts) fun parts => ?_
    refine records_bind (records_nameParts 0 (fun index => ⟨index, rfl⟩)
      (List.subset_append_left ..)) fun _ => records_pure ?_
    rw [List.flatMap_map]
    exact List.subset_append_left ..
  | markArguments texts function sourceInfo =>
    refine records_bind (records_mapM fun name _ _ => records_textNamed name) fun arguments => ?_
    refine records_bind (records_recording fun L recorder same listed =>
      Text.continues_markArguments same fun s mem => Taint.under_iff.mpr fun c memChains =>
        listed c (List.mem_append_left _ (List.mem_flatMap.mpr ⟨s, mem, memChains⟩)))
      fun marked => ?_
    refine records_bind (records_forM fun named mem => ?_) fun _ => records_pure ?_
    · refine records_assign (List.of_mem_zip mem).1 fun c memChains => ?_
      exact List.mem_append_left _
        (List.mem_flatMap.mpr ⟨named.2, (List.of_mem_zip mem).2, memChains⟩)
    · rw [List.flatMap_map]
      exact List.subset_append_left ..
  | drop name =>
    exact records_bind (records_unbind rfl) fun _ => records_pure (List.nil_subset _)

/-! ## Runs -/

/-- What is reached from a session makes a ledger that covers it. -/
theorem covers_reachedFrom {s : Session} (covers : L.Covers s) :
    (L.reachedFrom s.chains covers.lists).Covers s :=
  ⟨covers.nextSerial, fun _ mem => Chain.reachedFrom_of_mem mem⟩

/-- For every command the ledger can be written on, so that it covers the session after it and lists
the chains of its answer. -/
theorem exists_covers_step {s : Session} (covers : L.Covers s) (command : Command) :
    ∃ L' : Ledger, L.WrittenOn L' ∧ L'.Covers (s.step command) ∧
      ∀ c ∈ (s.step command).chains ++ (command.answer s).flatMap Value.chains, L'.Lists c := by
  have records : Records command.Sets [] command.run (·.flatMap Value.chains) :=
    command.records_run
  obtain ⟨L', written, same, listed⟩ := records.continues s L covers nofun
  refine ⟨L', written, ⟨same, fun c mem => listed c (List.mem_append_left _ mem)⟩, ?_⟩
  have answered : (command.answer s).flatMap Value.chains =
      chainsOf (·.flatMap Value.chains) (command.run.ends s).1 := by
    unfold Command.answer
    cases (command.run.ends s).1 <;> rfl
  rw [answered]
  exact listed

theorem exists_covers_after {s : Session} (covers : L.Covers s) (commands : List Command) :
    ∃ L' : Ledger, L'.Covers (s.after commands) := by
  induction commands generalizing s L with
  | nil => exact ⟨L, covers⟩
  | cons command rest ih =>
    obtain ⟨L', _, coversStep, _⟩ := exists_covers_step covers command
    exact ih coversStep

/-- What a command has made is numbered from where the recorder was. -/
theorem Command.since_of_made_answer {s : Session} {command : Command} {c : Chain}
    (made : command.Made s.recorder.config (command.answer s) c) :
    c.Since s.recorder.nextSerial := by
  unfold answer at made
  rcases ended : command.run.ends s with ⟨_ | answer, s'⟩
  · rw [ended] at made
    cases command <;> simp [Made] at made
  · rw [ended] at made
    exact since_of_made ended made

/-- **In every run the number of a node tells it from all other nodes.**  Of what is held after any
commands, and of what the last of them answers with, two chains are the same if their numbers are,
and then have the same operations and the same chain below their heads.  The nodes that the last
command makes differ from all that could be reached before it, and besides them it leaves nothing
but what could be reached before, or other new nodes.  Names that it does not set stand for what
they stood for. -/
theorem identity_after (recorder : Recorder) (commands : List Command) (command : Command) :
    let s := after { recorder } commands
    let held := (s.step command).chains ++ (command.answer s).flatMap Value.chains
    (∀ c d : Chain, c.ReachedFrom held → d.ReachedFrom held →
      (c.serial = d.serial ↔ c = d) ∧
      (c.serial = d.serial → c.operations = d.operations ∧ c.parent? = d.parent?)) ∧
    (∀ c, command.Made s.recorder.config (command.answer s) c →
      ∀ d : Chain, d.ReachedFrom s.chains → c.serial ≠ d.serial) ∧
    (∀ c : Chain, c.ReachedFrom held →
      c.ReachedFrom s.chains ∨ ∀ d : Chain, d.ReachedFrom s.chains → c.serial ≠ d.serial) ∧
    ∀ name, ¬ command.Sets name → (s.step command).value? name = s.value? name := by
  intro s held
  have start : (Ledger.empty recorder.nextSerial).Covers { recorder } := ⟨rfl, nofun⟩
  obtain ⟨L, covers⟩ := exists_covers_after start commands
  have records : Records command.Sets [] command.run (·.flatMap Value.chains) :=
    command.records_run
  obtain ⟨L', written, _, listed⟩ := exists_covers_step (covers_reachedFrom covers) command
  have reaches {c : Chain} (reached : c.ReachedFrom held) : L'.Lists c :=
    L'.lists_of_reachedFrom listed reached
  -- what is numbered from the next number on differs from everything that could be reached
  have apart {c : Chain} (since : c.Since s.recorder.nextSerial) (d : Chain)
      (reached : d.ReachedFrom s.chains) : c.serial ≠ d.serial := by
    have before := (L.reachedFrom s.chains covers.lists).numbered d reached
    have next : L.nextSerial = s.recorder.nextSerial := covers.nextSerial
    intro same
    exact absurd (next ▸ before) (Nat.not_lt.mpr (same ▸ since))
  refine ⟨fun c d reached reached' => ?_, fun c made => apart (Command.since_of_made_answer made),
    fun c reached => ?_, fun name unset => records.frame s name unset⟩
  · have unique := L'.unique c d (reaches reached) (reaches reached')
    refine ⟨⟨unique, fun same => same ▸ rfl⟩, fun same => ?_⟩
    rw [unique same]
    exact ⟨rfl, rfl⟩
  · rcases written.new c (reaches reached) with before | late
    · exact .inl before
    · exact .inr (apart (covers.nextSerial ▸ late))

/-- A chain with two names is extended under one of them: that name stands for a new node on top of
the chain, and the other name for the chain. -/
theorem identity_after_shared :
    let source : Chain := .ofSource { name := "read" } 0
    let longer : Chain := source.extend { name := "trim" } 1
    let s := after { recorder := {} }
      [.make "a" (.chain (.given { name := "read" })), .make "b" (.chainOf "a")]
    let s' := s.step (.change "a" (.extendChain (.given { name := "trim" }) 1))
    s'.value? "a" = some (.chain longer) ∧ s'.value? "b" = some (.chain source) ∧
      longer.serial ≠ source.serial := by
  intro source longer s s'
  obtain ⟨_, made, _, frame⟩ := identity_after {}
    [.make "a" (.chain (.given { name := "read" })), .make "b" (.chainOf "a")]
    (.change "a" (.extendChain (.given { name := "trim" }) 1))
  have answered : Value.chain longer ∈ [Value.chain longer] := List.mem_singleton_self _
  refine ⟨rfl, frame "b" (by decide : ¬ "b" = "a"), made longer ?_ source ?_⟩
  · exact ⟨_, answered, Nat.one_pos, List.mem_singleton_self _⟩
  · exact Chain.reachedFrom_of_mem List.mem_cons_self

end Session

end TextProvenance
