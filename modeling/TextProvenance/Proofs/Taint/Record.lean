import TextProvenance.Proofs.Taint.WellFormed
import TextProvenance.Recorder

/-!
# Recording operations on taint, position by position

Recording extends the chains of tainted positions, and taints no other position
(`Taint.extend_spec`).  What a recorder does depends on its settings: nothing, if recording is off
(`Recorder.record_spec`).
-/

namespace TextProvenance

namespace Taint

variable {t : Taint} {p : Nat}

theorem label_withChain (r : Range) (extension : Chain → Chain) :
    (r.withChain (extension r.chain)).label p = (r.label p).map extension := by
  by_cases covers : r.Covers p
  · rw [Range.label_of_covers covers]
    exact Range.label_of_covers covers
  · rw [Range.label_of_not_covers covers]
    exact Range.label_of_not_covers covers

theorem labelIn_withChain (ranges : List Range) (extension : Chain → Chain) :
    labelIn (ranges.map fun r => r.withChain (extension r.chain)) p =
      (labelIn ranges p).map extension := by
  induction ranges with
  | nil => rfl
  | cons r rest ih => rw [List.map_cons, labelIn_cons, labelIn_cons, ih, label_withChain,
      Option.map_or]

/-- The extension of a chain is numbered from the serial number on. -/
theorem extend_spec (wf : t.WellFormed) (operation : Operation) (serial : Nat) :
    (t.extend operation serial).HasLabels fun p =>
      (t.chainAt p).map fun c => c.extend operation (serial + t.chains.idxOf c) := by
  have wfExtended : (t.extend operation serial).WellFormed := extend_wellFormed wf
  refine ⟨wfExtended, fun p => ?_⟩
  rw [wfExtended.chainAt_eq, ranges_extend, labelIn_withChain, wf.chainAt_eq]
  refine Option.map_congr fun c found => ?_
  obtain ⟨r, mem, -, rfl⟩ := exists_of_labelIn_eq_some found
  exact follow_of_mem operation serial mem

end Taint

namespace Recorder

variable {recorder : Recorder} {t : Taint} {name : String} {arguments : List String}

/-- The location of an operation that is made now; nothing if locations are not recorded. -/
def location (recorder : Recorder) : Option Location :=
  if recorder.config.recordLocations then recorder.callSite recorder.asked else none

/-- An argument as it is recorded. -/
def shortened (recorder : Recorder) (argument : String) : String :=
  truncate recorder.config.maxArgumentLength.toNat argument

/-- What recording a built-in operation makes of a chain: the chain extended by the operation, under
the number that it gets, or the chain as it is if recording is off. -/
def recorded (recorder : Recorder) (name : String) (arguments : List String)
    (number : Chain → Nat) (c : Chain) : Chain :=
  if recorder.config.enabled then
    c.extend (recorder.operation name true arguments).1 (number c)
  else c

theorem operation_eq (recorder : Recorder) (name : String) (native : Bool)
    (arguments : List String) :
    (recorder.operation name native arguments).1 =
      { name, native, arguments := arguments.map recorder.shortened,
        location := recorder.location } := by
  unfold operation location
  split <;> rfl

theorem nextSerial_operation (recorder : Recorder) (name : String) (native : Bool)
    (arguments : List String) :
    (recorder.operation name native arguments).2.nextSerial = recorder.nextSerial := by
  unfold operation
  split <;> rfl

theorem record_of_disabled (off : recorder.config.enabled = false) :
    recorder.record t name arguments = (t, recorder) := by
  rw [record, off, Bool.false_and]
  rfl

/-- Untainted taint has no chains to extend, so nothing is lost where nothing is recorded. -/
theorem record_of_enabled (on : recorder.config.enabled = true) :
    (recorder.record t name arguments).1 =
      t.extend (recorder.operation name true arguments).1 recorder.nextSerial := by
  rw [record, on, Bool.true_and]
  rcases t with ⟨_ | ranges⟩
  · rfl
  · exact congrArg (Taint.extend _ _) (nextSerial_operation ..)

/-- Recording extends the chains of all tainted positions, under numbers not used before, or none of
them. -/
theorem record_spec (recorder : Recorder) (wf : t.WellFormed) (name : String)
    (arguments : List String) :
    ∃ number, (∀ c, recorder.nextSerial ≤ number c) ∧
      (recorder.record t name arguments).1.HasLabels fun p =>
        (t.chainAt p).map (recorder.recorded name arguments number) := by
  refine ⟨fun c => recorder.nextSerial + t.chains.idxOf c, fun c => Nat.le_add_right .., ?_⟩
  unfold recorded
  cases enabled : recorder.config.enabled with
  | false =>
    rw [record_of_disabled enabled]
    exact ⟨wf, fun p => by simp⟩
  | true =>
    rw [record_of_enabled enabled]
    exact Taint.extend_spec wf _ _

end Recorder

end TextProvenance
