import TextProvenance.Proofs.Listing.Decode
import TextProvenance.Proofs.Session.Keeps
import TextProvenance.Proofs.Text.Since

/-!
# Nodes that commands make

`Command.Made` says which chains of an answer have a node that the command made: a new source, an
extension, the window of an overlay, entries of a listing, and what is recorded if recording is on.
All of these are numbered from where the recorder was before the command (`Command.since_of_made`).

The proofs take apart how a computation that has a result was reached, one step after the other
(`SessionM.ends_bind_ok_iff`).
-/

namespace TextProvenance

namespace SessionM

variable {α β : Type} {m : SessionM α} {s s' : Session} {a : α} {b : β}

/-! ## How results are reached -/

theorem ends_bind_ok_iff {f : α → SessionM β} {after : Session} :
    (m >>= f).ends s = (.ok b, after) ↔
      ∃ a s', m.ends s = (.ok a, s') ∧ (f a).ends s' = (.ok b, after) := by
  rw [ends_bind]
  rcases m.ends s with ⟨_ | a, s'⟩
  · exact ⟨nofun, fun ⟨_, _, ended, _⟩ => nomatch ended⟩
  · refine ⟨fun ended => ⟨a, s', rfl, ended⟩, fun ⟨_, _, first, ended⟩ => ?_⟩
    cases first
    exact ended

/-- A result that is made of the one of a first step. -/
theorem exists_of_ends_map {make : α → β} (ended : (do return make (← m)).ends s = (.ok b, s')) :
    ∃ a, m.ends s = (.ok a, s') ∧ b = make a := by
  obtain ⟨a, after, first, ended⟩ := ends_bind_ok_iff.mp ended
  cases ended
  exact ⟨a, first, rfl⟩

theorem ends_ofFault_ok_iff {result : Except Fault α} :
    (ofFault result).ends s = (.ok a, s') ↔ result = .ok a ∧ s' = s := by
  rw [ends_ofFault]
  cases result with
  | error fault => exact ⟨nofun, fun ⟨ok, _⟩ => nomatch ok⟩
  | ok made =>
    refine ⟨fun ended => ?_, fun ⟨ok, same⟩ => ?_⟩
    · cases ended
      exact ⟨rfl, rfl⟩
    · cases ok
      rw [same]
      rfl

theorem exists_of_ends_recordingOrFault {use : Recorder → Except Fault (α × Recorder)}
    (ended : (recordingOrFault use).ends s = (.ok a, s')) :
    ∃ recorder, use s.recorder = .ok (a, recorder) ∧ s' = { s with recorder } := by
  rw [ends_recordingOrFault] at ended
  cases used : use s.recorder with
  | error fault =>
    rw [used] at ended
    cases ended
  | ok made =>
    rw [used] at ended
    cases ended
    exact ⟨made.2, rfl, rfl⟩

theorem ends_leaving_ok_iff {left : Recorder → Recorder} :
    (leaving left m).ends s = (.ok a, s') ↔ m.ends s = (.ok a, s') := by
  rw [ends_leaving]
  rcases m.ends s with ⟨_ | b, after⟩
  · exact ⟨nofun, nofun⟩
  · rfl

/-- An edit in a session that has a result was not stopped. -/
theorem done_of_ends {fault : Option Fault} {after : Session}
    (ended : ((match fault with
      | none => .ok ()
      | some fault => .error (.fault fault), after) : Except Failure Unit × Session) =
        (.ok (), s')) : fault = none ∧ s' = after := by
  cases fault with
  | none =>
    cases ended
    exact ⟨rfl, rfl⟩
  | some fault => cases ended

/-- Repeated steps come to a last one, to which the recorder has not gone back. -/
theorem exists_last_of_ends_times {action : SessionM Unit} {count : Nat} (positive : 0 < count)
    (advances : ∀ s s', action.ends s = (.ok (), s') →
      s.recorder.nextSerial ≤ s'.recorder.nextSerial)
    (ended : (times count action).ends s = (.ok (), s')) :
    ∃ last, s.recorder.nextSerial ≤ last.recorder.nextSerial ∧
      action.ends last = (.ok (), s') := by
  induction count generalizing s with
  | zero => cases positive
  | succ count ih =>
    obtain ⟨_, middle, first, others⟩ := ends_bind_ok_iff.mp ended
    cases count with
    | zero =>
      cases others
      exact ⟨s, Nat.le_refl _, first⟩
    | succ count =>
      obtain ⟨last, le, ended⟩ := ih (Nat.succ_pos _) others
      exact ⟨last, Nat.le_trans (advances s middle first) le, ended⟩

end SessionM

namespace Session

open SessionM

variable {s s' : Session} {config : Config} {name : String} {c : Chain} {serial : Nat}
  {value : Value}

/-! ## Which nodes are made -/

/-- The range is under a new chain. -/
def RangeTerm.MakesNode : RangeTerm → Prop
  | fresh .. => True
  | named _ | along .. => False

/-- All chains of the value have a new node. -/
def Maker.MakesNodes (config : Config) : Maker → Prop
  | chain _ | extendedChain .. | taintOfSource .. | listing _ | listingOrUntainted _
  | extendedTaint .. | taintedText .. => True
  | chainOfRange term | range term | shiftedRange term _ | rangeWithBounds term _ _
  | taintOfRange term => term.MakesNode
  | taintOfRanges terms => ∀ term ∈ terms, term.MakesNode
  | substring .. | lower _ | upper _ => config.enabled
  | chainOf _ | untainted | taintOf _ | taintOfChain .. | subtaint .. | concatTaint .. | text _
  | textOf _ | textWithTaint .. | concatText .. => False

/-- The chain is one of the changed value, with a node that the change has made. -/
def Change.Made (config : Config) (value : Value) (c : Chain) : Change → Prop
  | extendChain _ count | taint (.extend _) count => 0 < count ∧ c ∈ value.chains
  | taint (.overlay start stop _) count =>
    0 < count ∧ ∃ t p, value.taint? = some t ∧ start ≤ p ∧ p < stop ∧ t.chainAt p = some c
  | extendRange _ | markSource .. => c ∈ value.chains
  | replace .. => config.enabled ∧ c ∈ value.chains
  | _ => False

/-- The chain is one of the answer, with a node that the command has made. -/
def Command.Made (config : Config) (answer : List Value) (c : Chain) : Command → Prop
  | make _ maker => maker.MakesNodes config ∧ c ∈ answer.flatMap Value.chains
  | change _ how => ∃ value ∈ answer, how.Made config value c
  | look ranges => (∀ range ∈ ranges, range.MakesNode) ∧ c ∈ answer.flatMap Value.chains
  | split .. | markArguments .. => config.enabled ∧ c ∈ answer.flatMap Value.chains
  | drop _ => False

/-! ## Makers -/

theorem nextSerial_of_ends_operation {operation : OperationTerm} {a : Operation}
    (ended : operation.eval.ends s = (.ok a, s')) :
    s'.recorder.nextSerial = s.recorder.nextSerial := by
  cases operation with
  | given operation =>
    cases ended
    rfl
  | made name native arguments =>
    have same := s.recorder.nextSerial_operation name native arguments
    cases ended
    exact same

theorem since_of_ends_newChain {source : OperationTerm}
    (ended : (newChain source).ends s = (.ok c, s')) :
    c.Since s.recorder.nextSerial ∧ s.recorder.nextSerial ≤ s'.recorder.nextSerial := by
  obtain ⟨operation, middle, evaluated, ended⟩ := ends_bind_ok_iff.mp ended
  have same := nextSerial_of_ends_operation evaluated
  cases ended
  rw [← same]
  exact ⟨Nat.le_refl _, Nat.le_succ _⟩

theorem RangeTerm.since_of_ends {term : RangeTerm} {r : Range} (makes : term.MakesNode)
    (ended : term.eval.ends s = (.ok r, s')) :
    r.chain.Since s.recorder.nextSerial ∧ s.recorder.nextSerial ≤ s'.recorder.nextSerial := by
  cases term with
  | fresh start stop source =>
    obtain ⟨c, middle, made, ended⟩ := ends_bind_ok_iff.mp ended
    obtain ⟨bounds, rfl⟩ := ends_ofFault_ok_iff.mp ended
    rw [Range.chain_of_ofBounds bounds]
    exact since_of_ends_newChain made
  | named _ | along _ _ _ => exact makes.elim

theorem RangeTerm.since_of_ends_mapM {terms : List RangeTerm} {ranges : List Range}
    (makes : ∀ term ∈ terms, term.MakesNode)
    (ended : (terms.mapM RangeTerm.eval).ends s = (.ok ranges, s'))
    (le : serial ≤ s.recorder.nextSerial) : ∀ r ∈ ranges, r.chain.Since serial := by
  induction terms generalizing s ranges with
  | nil =>
    cases ended
    exact nofun
  | cons term rest ih =>
    rw [List.mapM_cons] at ended
    obtain ⟨r, middle, first, ended⟩ := ends_bind_ok_iff.mp ended
    obtain ⟨others, after, second, ended⟩ := ends_bind_ok_iff.mp ended
    cases ended
    rcases List.forall_mem_cons.mp makes with ⟨makesFirst, makesOthers⟩
    rcases term.since_of_ends makesFirst first with ⟨since, advanced⟩
    exact List.forall_mem_cons.mpr
      ⟨Nat.le_trans le since, ih makesOthers second (Nat.le_trans le advanced)⟩

theorem since_of_ends_taintOfEntries {entries : List Listing.Entry} {t : Taint}
    (ended : (taintOfEntries entries).ends s = (.ok t, s')) :
    t.Under (Chain.Since s.recorder.nextSerial) := by
  obtain ⟨recorder, used, _⟩ := exists_of_ends_recordingOrFault ended
  obtain ⟨made, built, same⟩ := bind_eq_ok_iff.mp used
  cases same
  refine Taint.under_ofRanges (fun r mem => ?_) built
  obtain ⟨index, inside, rfl⟩ := List.mem_mapIdx.mp mem
  exact Nat.le_add_right ..

theorem Maker.since_of_ends {maker : Maker} (makes : maker.MakesNodes s.recorder.config)
    (ended : maker.eval.ends s = (.ok value, s')) :
    ∀ c ∈ value.chains, c.Since s.recorder.nextSerial := by
  cases maker with
  | chain source =>
    obtain ⟨c, made, rfl⟩ := exists_of_ends_map ended
    exact List.forall_mem_singleton.mpr (since_of_ends_newChain made).1
  | extendedChain name operation =>
    obtain ⟨c, middle, found, ended⟩ := ends_bind_ok_iff.mp ended
    cases (still_chainNamed name).eq found
    obtain ⟨operation, middle, evaluated, ended⟩ := ends_bind_ok_iff.mp ended
    obtain ⟨d, made, rfl⟩ := exists_of_ends_map ended
    cases made
    rw [← nextSerial_of_ends_operation evaluated]
    exact List.forall_mem_singleton.mpr (Nat.le_refl _)
  | chainOfRange term | range term =>
    obtain ⟨r, made, rfl⟩ := exists_of_ends_map ended
    exact List.forall_mem_singleton.mpr (term.since_of_ends makes made).1
  | shiftedRange term amount =>
    obtain ⟨r, middle, made, ended⟩ := ends_bind_ok_iff.mp ended
    obtain ⟨x, moved, rfl⟩ := exists_of_ends_map ended
    rw [Value.chains, Range.chain_of_moved (ends_ofFault_ok_iff.mp moved).1]
    exact List.forall_mem_singleton.mpr (term.since_of_ends makes made).1
  | rangeWithBounds term start stop =>
    obtain ⟨r, middle, made, ended⟩ := ends_bind_ok_iff.mp ended
    obtain ⟨x, moved, rfl⟩ := exists_of_ends_map ended
    rw [Value.chains, Range.chain_of_ofBounds (ends_ofFault_ok_iff.mp moved).1]
    exact List.forall_mem_singleton.mpr (term.since_of_ends makes made).1
  | taintOfRange term =>
    obtain ⟨r, middle, made, ended⟩ := ends_bind_ok_iff.mp ended
    obtain ⟨t, built, rfl⟩ := exists_of_ends_map ended
    exact Taint.under_iff.mp (Taint.under_ofRange (term.since_of_ends makes made).1
      (ends_ofFault_ok_iff.mp built).1)
  | taintOfRanges terms =>
    obtain ⟨ranges, middle, made, ended⟩ := ends_bind_ok_iff.mp ended
    obtain ⟨t, built, rfl⟩ := exists_of_ends_map ended
    have since := RangeTerm.since_of_ends_mapM makes made (Nat.le_refl _)
    exact Taint.under_iff.mp (Taint.under_ofRanges since (ends_ofFault_ok_iff.mp built).1)
  | taintOfSource start stop source =>
    obtain ⟨r, middle, made, ended⟩ := ends_bind_ok_iff.mp ended
    obtain ⟨t, built, rfl⟩ := exists_of_ends_map ended
    have since := (RangeTerm.fresh start stop source).since_of_ends trivial made
    exact Taint.under_iff.mp (Taint.under_ofRange since.1 (ends_ofFault_ok_iff.mp built).1)
  | listing content =>
    simp only [eval] at ended
    split at ended
    · obtain ⟨t, made, rfl⟩ := exists_of_ends_map ended
      exact Taint.under_iff.mp (since_of_ends_taintOfEntries made)
    · cases ended
  | listingOrUntainted content =>
    obtain ⟨t, made, rfl⟩ := exists_of_ends_map ended
    exact Taint.under_iff.mp (since_of_ends_taintOfEntries made)
  | extendedTaint name operation =>
    obtain ⟨t, middle, found, ended⟩ := ends_bind_ok_iff.mp ended
    cases (still_taintNamed name).eq found
    obtain ⟨operation, middle, evaluated, ended⟩ := ends_bind_ok_iff.mp ended
    obtain ⟨t', made, rfl⟩ := exists_of_ends_map ended
    obtain ⟨recorder, used, _⟩ := exists_of_ends_recordingOrFault made
    obtain ⟨copy, extended, same⟩ := bind_eq_ok_iff.mp used
    cases same
    rw [← nextSerial_of_ends_operation evaluated]
    exact Taint.under_iff.mp (Taint.extended_since extended)
  | taintedText value source =>
    obtain ⟨c, middle, made, ended⟩ := ends_bind_ok_iff.mp ended
    obtain ⟨s, built, rfl⟩ := exists_of_ends_map ended
    exact Taint.under_iff.mp (Text.ofChain_under (since_of_ends_newChain made).1
      (ends_ofFault_ok_iff.mp built).1)
  | substring name start stop =>
    obtain ⟨text, middle, found, ended⟩ := ends_bind_ok_iff.mp ended
    cases (still_textNamed name).eq found
    obtain ⟨part, made, rfl⟩ := exists_of_ends_map ended
    obtain ⟨recorder, used, _⟩ := exists_of_ends_recordingOrFault made
    exact Taint.under_iff.mp (Text.substring_since makes (Nat.le_refl _) used)
  | lower name | upper name =>
    obtain ⟨text, middle, found, ended⟩ := ends_bind_ok_iff.mp ended
    cases (still_textNamed name).eq found
    obtain ⟨mapped, made, rfl⟩ := exists_of_ends_map ended
    obtain ⟨recorder, used, _⟩ := exists_of_ends_recordingOrFault made
    exact Taint.under_iff.mp (Text.mapCharacters_since makes (Nat.le_refl _) used)
  | chainOf _ | untainted | taintOf _ | taintOfChain _ _ | subtaint _ _ _ | concatTaint _ _ _
  | text _ | textOf _ | textWithTaint _ _ | concatText _ _ => exact makes.elim

/-! ## Changes -/

theorem exists_of_ends_extendNamed {operation : Operation}
    (ended : (extendNamed name operation).ends s = (.ok (), s')) :
    ∃ c : Chain, s' = { s with recorder := s.recorder.advance 1 }.bind name
      (.chain (c.extend operation s.recorder.nextSerial)) := by
  obtain ⟨c, middle, found, ended⟩ := ends_bind_ok_iff.mp ended
  cases (still_chainNamed name).eq found
  obtain ⟨d, middle, made, ended⟩ := ends_bind_ok_iff.mp ended
  cases made
  cases ended
  exact ⟨c, rfl⟩

/-- A change that is done leaves a value with the changed taint. -/
theorem exists_of_ends_applyTaintChange {how : Taint.Change}
    (ended : (applyTaintChange name how).ends s = (.ok (), s')) :
    ∃ t value, (how.edit s.recorder.nextSerial t).fault = none ∧
      value.taint? = some (how.edit s.recorder.nextSerial t).state ∧
      s' = { s with recorder := s.recorder.advance (how.serials t) }.bind name value := by
  cases named : (s.value? name).bind Value.taint? with
  | none =>
    rw [ends_applyTaintChange_of_none named] at ended
    cases ended
  | some t =>
    obtain ⟨held, found, tainted⟩ := Option.bind_eq_some_iff.mp named
    rw [ends_applyTaintChange found tainted] at ended
    rcases done_of_ends ended with ⟨done, same⟩
    exact ⟨t, held.withTaint _, done, held.taint?_withTaint _, same⟩

/-- Of a change that is made several times, the last one leaves the value. -/
theorem exists_of_ends_times_applyTaintChange {how : Taint.Change} {count : Nat}
    (positive : 0 < count)
    (ended : (times count (applyTaintChange name how)).ends s = (.ok (), s'))
    (found : s'.value? name = some value) :
    ∃ serial t, s.recorder.nextSerial ≤ serial ∧ (how.edit serial t).fault = none ∧
      value.taint? = some (how.edit serial t).state := by
  have advances (s s' : Session) (ended : (applyTaintChange name how).ends s = (.ok (), s')) :
      s.recorder.nextSerial ≤ s'.recorder.nextSerial := by
    obtain ⟨t, value, _, _, rfl⟩ := exists_of_ends_applyTaintChange ended
    exact Nat.le_add_right ..
  obtain ⟨last, le, ended⟩ := exists_last_of_ends_times positive advances ended
  obtain ⟨t, changed, done, tainted, rfl⟩ := exists_of_ends_applyTaintChange ended
  rw [value?_bind_self] at found
  cases found
  exact ⟨last.recorder.nextSerial, t, le, done, tainted⟩

theorem exists_of_ends_editText {edit : Edit Text}
    (ended : (editText name edit).ends s = (.ok (), s')) :
    ∃ text, (edit text).fault = none ∧ s' = s.bind name (.text (edit text).state) := by
  obtain ⟨text, middle, found, ended⟩ := ends_bind_ok_iff.mp ended
  cases (still_textNamed name).eq found
  rw [ends_keeping_assign] at ended
  exact ⟨text, done_of_ends ended⟩

theorem exists_of_ends_editRecorded {edit : Edit (Text × Recorder)}
    (ended : (editRecorded name edit).ends s = (.ok (), s')) :
    ∃ text, (edit (text, s.recorder)).fault = none ∧
      s'.value? name = some (.text (edit (text, s.recorder)).state.1) := by
  rw [ends_editRecorded] at ended
  split at ended
  · rename_i text found
    obtain ⟨done, rfl⟩ := done_of_ends ended
    exact ⟨text, done, value?_bind_self { s with recorder := _ } name _⟩
  · cases ended

theorem Change.since_of_ends {how : Change} (ended : (how.apply name).ends s = (.ok (), s'))
    (found : s'.value? name = some value) (made : how.Made s.recorder.config value c) :
    c.Since s.recorder.nextSerial := by
  cases how with
  | extendChain operation count =>
    obtain ⟨operation, middle, evaluated, ended⟩ := ends_bind_ok_iff.mp ended
    have advances (s s' : Session) (ended : (extendNamed name operation).ends s = (.ok (), s')) :
        s.recorder.nextSerial ≤ s'.recorder.nextSerial := by
      obtain ⟨c, rfl⟩ := exists_of_ends_extendNamed ended
      exact Nat.le_succ _
    obtain ⟨last, le, ended⟩ := exists_last_of_ends_times made.1 advances ended
    obtain ⟨d, rfl⟩ := exists_of_ends_extendNamed ended
    rw [value?_bind_self] at found
    cases found
    cases List.mem_singleton.mp made.2
    rw [← nextSerial_of_ends_operation evaluated]
    exact le
  | extendRange operation =>
    obtain ⟨operation, middle, evaluated, ended⟩ := ends_bind_ok_iff.mp ended
    obtain ⟨r, after, named, ended⟩ := ends_bind_ok_iff.mp ended
    cases (still_rangeNamed name).eq named
    obtain ⟨d, after, extended, ended⟩ := ends_bind_ok_iff.mp ended
    cases extended
    cases ended
    rw [value?_bind_self] at found
    cases found
    cases List.mem_singleton.mp made
    rw [← nextSerial_of_ends_operation evaluated]
    exact Nat.le_refl _
  | taint term count =>
    obtain ⟨change, middle, evaluated, ended⟩ := ends_bind_ok_iff.mp ended
    cases term with
    | extend operation =>
      obtain ⟨recorded, given, rfl⟩ := exists_of_ends_map evaluated
      obtain ⟨serial, t, le, _, tainted⟩ := exists_of_ends_times_applyTaintChange made.1 ended found
      have mem := Value.chains_of_taint? tainted ▸ made.2
      rw [← nextSerial_of_ends_operation given]
      exact Nat.le_trans le (Taint.under_iff.mp (Taint.extend_since t recorded serial) c mem)
    | overlay start stop operation =>
      obtain ⟨recorded, given, rfl⟩ := exists_of_ends_map evaluated
      obtain ⟨positive, held, p, heldTaint, late, early, there⟩ := made
      obtain ⟨serial, t, le, done, tainted⟩ :=
        exists_of_ends_times_applyTaintChange positive ended found
      cases heldTaint.symm.trans tainted
      rw [← nextSerial_of_ends_operation given]
      exact Nat.le_trans le (Taint.overlay_since (Edit.ok_of_step_done done) late early there)
    | append _ | addRange _ | addTaint _ | clearBetween _ _ | clearAt _ | clear | concat _ _
    | shift _ _ | insert _ _ | set _ _ | convertBase _ _ _ => exact False.elim made
  | markSource start stop source =>
    obtain ⟨chain, middle, fresh, ended⟩ := ends_bind_ok_iff.mp ended
    obtain ⟨text, done, rfl⟩ := exists_of_ends_editText ended
    rw [value?_bind_self] at found
    cases found
    have marked := Edit.ok_of_step_done done
    exact Taint.under_iff.mp (Text.markSource_under (since_of_ends_newChain fresh).1 marked) c made
  | replace start stop other =>
    obtain ⟨other, middle, named, ended⟩ := ends_bind_ok_iff.mp ended
    cases (still_textNamed _).eq named
    obtain ⟨text, done, replaced⟩ := exists_of_ends_editRecorded ended
    rw [replaced] at found
    cases found
    exact Taint.under_iff.mp (Text.replace_since made.1 done) c made.2
  | resizeRange _ _ | untaint | push _ | insert _ _ | remove _ _ | copyTaint _ _ _ _ =>
    exact made.elim

/-! ## Commands -/

/-- A command that has an answer has made nodes only under numbers that were not used before. -/
theorem Command.since_of_made {command : Command} {answer : List Value}
    (ended : command.run.ends s = (.ok answer, s'))
    (made : command.Made s.recorder.config answer c) : c.Since s.recorder.nextSerial := by
  cases command with
  | make name maker =>
    obtain ⟨value, middle, evaluated, ended⟩ := ends_bind_ok_iff.mp ended
    cases ended
    have mem : c ∈ value.chains := by simpa using made.2
    exact maker.since_of_ends made.1 evaluated c mem
  | change name how =>
    obtain ⟨_, middle, applied, ended⟩ := ends_bind_ok_iff.mp ended
    obtain ⟨value, named, rfl⟩ := exists_of_ends_map ended
    obtain ⟨held, mem, made⟩ := made
    cases List.mem_singleton.mp mem
    rcases value?_of_ends_named named with ⟨found, rfl⟩
    exact how.since_of_ends applied found made
  | look terms =>
    obtain ⟨ranges, evaluated, rfl⟩ := exists_of_ends_map ended
    have since := RangeTerm.since_of_ends_mapM made.1 evaluated (Nat.le_refl _)
    obtain ⟨value, memValues, mem⟩ := List.mem_flatMap.mp made.2
    obtain ⟨r, memRanges, rfl⟩ := List.mem_map.mp memValues
    cases List.mem_singleton.mp mem
    exact since r memRanges
  | split name separator target =>
    obtain ⟨text, middle, named, ended⟩ := ends_bind_ok_iff.mp ended
    cases (still_textNamed name).eq named
    obtain ⟨parts, middle, cut, ended⟩ := ends_bind_ok_iff.mp ended
    obtain ⟨recorder, used, _⟩ := exists_of_ends_recordingOrFault (ends_leaving_ok_iff.mp cut)
    obtain ⟨_, middle, _, ended⟩ := ends_bind_ok_iff.mp ended
    cases ended
    obtain ⟨value, memValues, mem⟩ := List.mem_flatMap.mp made.2
    obtain ⟨part, memParts, rfl⟩ := List.mem_map.mp memValues
    have since := Text.recordPieces_since made.1 (Nat.le_refl _) used part memParts
    exact Taint.under_iff.mp since c mem
  | markArguments texts function sourceInfo =>
    obtain ⟨arguments, middle, named, ended⟩ := ends_bind_ok_iff.mp ended
    cases (still_mapM still_textNamed texts).eq named
    obtain ⟨marked, middle, marking, ended⟩ := ends_bind_ok_iff.mp ended
    cases marking
    obtain ⟨_, middle, _, ended⟩ := ends_bind_ok_iff.mp ended
    cases ended
    obtain ⟨value, memValues, mem⟩ := List.mem_flatMap.mp made.2
    obtain ⟨argument, memMarked, rfl⟩ := List.mem_map.mp memValues
    have since := Text.markArguments_since made.1 (Nat.le_refl _) argument memMarked
    exact Taint.under_iff.mp since c mem
  | drop name => exact made.elim

end Session

end TextProvenance
