import TextProvenance.Proofs.Taint.Extension
import TextProvenance.Proofs.Text.Since

/-!
# Questions for locations

A recorder asks the embedding for a location when it makes an operation.  `Text.RecordedEach` says of
a list of texts that an operation has been recorded on each of the tainted ones, in order, with one
question for each of them, asked just before: the answers are the locations of the operations.  It
holds of no texts, of one text, and of one list behind another, and so of everything that records.
-/

namespace TextProvenance

theorem Taint.isTainted_extend (t : Taint) (operation : Operation) (serial : Nat) :
    (t.extend operation serial).isTainted = t.isTainted :=
  Option.isSome_map

namespace Recorder

variable {recorder before middle after : Recorder} {questions more : Nat}

/-- The recorder after some questions: the settings and the embedding are the same, and it has not
gone back in its supply of serial numbers. -/
structure After (questions : Nat) (before after : Recorder) : Prop where
  config : after.config = before.config
  callSite : after.callSite = before.callSite
  asked : after.asked = before.asked + questions
  nextSerial : before.nextSerial ≤ after.nextSerial

theorem after_refl (recorder : Recorder) : recorder.After 0 recorder :=
  ⟨rfl, rfl, rfl, Nat.le_refl _⟩

theorem After.trans (first : before.After questions middle) (second : middle.After more after) :
    before.After (questions + more) after := by
  refine ⟨second.config.trans first.config, second.callSite.trans first.callSite, ?_,
    Nat.le_trans first.nextSerial second.nextSerial⟩
  rw [second.asked, first.asked, Nat.add_assoc]

/-- The location of the operation that is made after `k` more questions; nothing if locations are
not recorded. -/
def locationAt (recorder : Recorder) (k : Nat) : Option Location :=
  if recorder.config.recordLocations then recorder.callSite (recorder.asked + k) else none

/-- Number of questions when an operation is recorded on each of some texts. -/
def questionsFor (recorder : Recorder) (texts : List Text) : Nat :=
  if recorder.config.enabled && recorder.config.recordLocations then
    (texts.filter Text.isTainted).length
  else 0

theorem after_operation (recorder : Recorder) (name : String) (native : Bool)
    (arguments : List String) :
    recorder.After (if recorder.config.recordLocations then 1 else 0)
      (recorder.operation name native arguments).2 := by
  unfold operation
  split
  · exact ⟨rfl, rfl, rfl, Nat.le_refl _⟩
  · exact after_refl recorder

theorem after_advance (recorder : Recorder) (used : Nat) :
    recorder.After 0 (recorder.advance used) :=
  ⟨rfl, rfl, rfl, Nat.le_add_right ..⟩

end Recorder

namespace Text

variable {s part : Text} {recorder before middle after : Recorder} {texts others parts : List Text}
  {function sourceInfo name : String}

/-- An operation has been recorded on each of the tainted texts, in order, with one question for
each of them that its location answers. -/
structure RecordedEach (before : Recorder) (texts : List Text) (after : Recorder) : Prop where
  after : before.After (before.questionsFor texts) after
  located : before.config.enabled = true → ∀ k s, (texts.filter isTainted)[k]? = some s →
    ∀ c ∈ s.taint.chains, c.Since before.nextSerial ∧ c.operation.location = before.locationAt k

theorem recordedEach_nil (silent : before.After 0 after) : RecordedEach before [] after := by
  refine ⟨?_, fun _ k s found => nomatch found⟩
  unfold Recorder.questionsFor
  rw [List.filter_nil, List.length_nil, ite_self]
  exact silent

/-- Nothing is asked for a text without taint. -/
theorem recordedEach_untainted (untainted : ¬ s.isTainted = true) (recorder : Recorder) :
    RecordedEach recorder [s] recorder := by
  have none : [s].filter isTainted = [] := List.filter_cons_of_neg untainted
  have nothing := recordedEach_nil recorder.after_refl
  refine ⟨?_, fun on => ?_⟩
  · unfold Recorder.questionsFor
    rw [none]
    exact nothing.after
  · rw [none]
    exact nothing.located on

/-- Nothing is asked if recording is off. -/
theorem recordedEach_of_disabled (off : recorder.config.enabled = false) (texts : List Text) :
    RecordedEach recorder texts recorder := by
  refine ⟨?_, fun on => nomatch off.symm.trans on⟩
  unfold Recorder.questionsFor
  rw [off, Bool.false_and]
  exact recorder.after_refl

/-- What is asked for later texts is asked after what is asked for earlier ones. -/
theorem RecordedEach.append (first : RecordedEach before texts middle)
    (second : RecordedEach middle others after) :
    RecordedEach before (texts ++ others) after := by
  have same := first.after.config
  constructor
  · have total : before.questionsFor (texts ++ others) =
        before.questionsFor texts + middle.questionsFor others := by
      unfold Recorder.questionsFor
      rw [same, List.filter_append, List.length_append]
      split <;> rfl
    exact total ▸ first.after.trans second.after
  · intro on k s found c mem
    rw [List.filter_append] at found
    rcases Nat.lt_or_ge k (texts.filter isTainted).length with early | late
    · rw [List.getElem?_append_left early] at found
      exact first.located on k s found c mem
    · rw [List.getElem?_append_right late] at found
      obtain ⟨since, location⟩ := second.located (same ▸ on) _ s found c mem
      refine ⟨Nat.le_trans first.after.nextSerial since, location.trans ?_⟩
      unfold Recorder.locationAt
      rw [same, first.after.callSite, first.after.asked, Recorder.questionsFor, on, Bool.true_and]
      split
      · congr 1
        omega
      · rfl

/-! ## One text -/

/-- An operation that the recorder makes for a tainted text, and records on it. -/
theorem recordedEach_extend {t : Taint} (on : recorder.config.enabled = true)
    (tainted : t.isTainted = true) (value name : String) (native : Bool)
    (arguments : List String) :
    let made := recorder.operation name native arguments
    RecordedEach recorder [⟨value, (made.2.extend t made.1).1⟩] (made.2.extend t made.1).2 := by
  intro made
  have one : [⟨value, (made.2.extend t made.1).1⟩].filter isTainted =
      [⟨value, (made.2.extend t made.1).1⟩] :=
    List.filter_cons_of_pos (by rwa [isTainted, Recorder.extend, Taint.isTainted_extend])
  constructor
  · have total : recorder.questionsFor [⟨value, (made.2.extend t made.1).1⟩] =
        (if recorder.config.recordLocations then 1 else 0) + 0 := by
      unfold Recorder.questionsFor
      rw [one, on, Bool.true_and]
      rfl
    exact total ▸ (recorder.after_operation name native arguments).trans (made.2.after_advance _)
  · intro _ k s found c mem
    rw [one] at found
    cases k with
    | succ k => cases found
    | zero =>
      obtain rfl := Option.some.inj found
      have serial : made.2.nextSerial = recorder.nextSerial :=
        recorder.nextSerial_operation name native arguments
      have chains : (made.2.extend t made.1).1.chains = _ :=
        Taint.chains_extend t made.1 made.2.nextSerial
      rw [chains] at mem
      obtain ⟨d, -, rfl⟩ := List.mem_map.mp mem
      refine ⟨serial ▸ Nat.le_add_right .., ?_⟩
      change made.1.location = _
      rw [recorder.operation_eq name native arguments]
      rfl

/-- Recording on a text: nothing is asked if recording is off, or if it has no taint. -/
theorem recordedEach_record (recorder : Recorder) (value : String) (t : Taint) (name : String)
    (arguments : List String) :
    RecordedEach recorder [⟨value, (recorder.record t name arguments).1⟩]
      (recorder.record t name arguments).2 := by
  cases on : recorder.config.enabled with
  | false =>
    rw [Recorder.record_of_disabled on]
    exact recordedEach_of_disabled on _
  | true =>
    unfold Recorder.record
    rw [on, Bool.true_and]
    by_cases tainted : t.isTainted = true
    · rw [if_pos tainted]
      exact recordedEach_extend on tainted value name true arguments
    · rw [if_neg tainted]
      have untainted : ¬ (Text.mk value t).isTainted = true := tainted
      exact recordedEach_untainted untainted recorder

/-! ## Everything that records -/

theorem recordedEach_substring {start stop : Nat}
    (ok : s.substring start stop recorder = .ok (part, after)) :
    RecordedEach recorder [part] after := by
  obtain ⟨cut, window, -, -, rfl, rfl⟩ := exists_of_substring ok
  exact recordedEach_record ..

theorem recordedEach_mapCharacters {map : Char → List Char}
    (ok : s.mapCharacters map name recorder = .ok (part, after)) :
    RecordedEach recorder [part] after := by
  obtain ⟨ranges, mapped, -, -, rfl, rfl⟩ := exists_of_mapCharacters ok
  exact recordedEach_record ..

theorem recordedEach_recordPieces {separator : String} {start index : Nat}
    {pieces : List (List Char)}
    (ok : s.recordPieces separator start index recorder pieces = .ok (parts, after)) :
    RecordedEach recorder parts after := by
  induction pieces generalizing start index recorder parts with
  | nil =>
    cases ok
    exact recordedEach_nil (Recorder.after_refl _)
  | cons piece rest ih =>
    obtain ⟨window, others, -, recorded, rfl⟩ := exists_of_recordPieces_cons ok
    have first := recordedEach_record recorder (String.ofList piece) window "split"
      [separator, toString index]
    exact first.append (ih recorded)

theorem recordedEach_recordInFront (s : Text) (separator : String) (start index : Nat)
    (recorder : Recorder) (pieces : List (List Char)) :
    RecordedEach recorder (s.recordInFront separator start index recorder pieces).1
      (s.recordInFront separator start index recorder pieces).2 := by
  induction pieces generalizing start index recorder with
  | nil => exact recordedEach_nil recorder.after_refl
  | cons piece rest ih =>
    unfold recordInFront
    split
    · exact recordedEach_nil recorder.after_refl
    · exact (recordedEach_recordPieces ‹_›).append (ih ..)

theorem recordedEach_splitInFront (s : Text) (separator : String) (recorder : Recorder) :
    RecordedEach recorder (s.splitInFront separator recorder).1
      (s.splitInFront separator recorder).2 :=
  recordedEach_recordInFront ..

theorem recordedEach_markFrom (on : recorder.config.enabled = true) (index : Nat)
    (arguments : List Text) :
    RecordedEach recorder (markFrom function sourceInfo index recorder arguments).1
      (markFrom function sourceInfo index recorder arguments).2 := by
  induction arguments generalizing index recorder with
  | nil => exact recordedEach_nil recorder.after_refl
  | cons argument rest ih =>
    unfold markFrom
    by_cases tainted : argument.isTainted = true
    · rw [if_pos tainted]
      have first := recordedEach_extend on tainted argument.value function false
        [function, sourceInfo, toString index]
      exact first.append (ih (first.after.config ▸ on) (index + 1))
    · rw [if_neg tainted]
      exact (recordedEach_untainted tainted recorder).append (ih on (index + 1))

theorem recordedEach_markArguments (function sourceInfo : String) (arguments : List Text)
    (recorder : Recorder) :
    RecordedEach recorder (markArguments function sourceInfo arguments recorder).1
      (markArguments function sourceInfo arguments recorder).2 := by
  unfold markArguments
  split
  · exact recordedEach_markFrom ‹_› 0 arguments
  · exact recordedEach_of_disabled (eq_false_of_ne_true ‹_›) arguments

/-- A replacement that is done has recorded the text. -/
theorem recordedEach_replace {start stop : Nat} {other : Text}
    (done : (replace start stop other (s, recorder)).fault = none) :
    RecordedEach recorder [(replace start stop other (s, recorder)).state.1]
      (replace start stop other (s, recorder)).state.2 := by
  rcases replace_cases start stop other s recorder with ⟨cut, t, -, recorded⟩ | ⟨t, fault, fails⟩
  · rw [recorded]
    exact recordedEach_record ..
  · rw [fails] at done
    cases done

/-- A replacement that fails has recorded nothing. -/
theorem recorder_of_replace_fails {start stop : Nat} {other : Text} {fault : Fault}
    (stopped : (replace start stop other (s, recorder)).fault = some fault) :
    (replace start stop other (s, recorder)).state.2 = recorder := by
  rcases replace_cases start stop other s recorder with ⟨cut, t, -, recorded⟩ | ⟨t, fault, fails⟩
  · rw [recorded] at stopped
    cases stopped
  · rw [fails]

end Text

end TextProvenance
