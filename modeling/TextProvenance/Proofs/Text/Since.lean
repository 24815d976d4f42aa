import TextProvenance.Proofs.Text.Under

/-!
# Numbers of new chains

What is recorded with a supply of numbers is under chains that are numbered from there on
(`Chain.Since`): all of taint that is extended, the window of an overlay, and all results of
recorded operations on texts if recording is on.
-/

namespace TextProvenance

/-- The newest node was recorded under the number, or a later one. -/
def Chain.Since (serial : Nat) (c : Chain) : Prop := serial ≤ c.serial

namespace Taint

variable {t t' : Taint} {ranges : List Range} {r : Range} {start stop serial first p : Nat}
  {operation : Operation} {c : Chain} {P : Chain → Prop}

theorem ranges_eq_nil (clean : ¬ t.isTainted) : t.ranges = [] := by
  rw [ranges, Option.not_isSome_iff_eq_none.mp clean]
  rfl

theorem follow_since (mem : c ∈ t.chains) (le : first ≤ serial) :
    (follow (extensions t.chains operation serial) c).Since first := by
  rw [follow_extensions operation serial mem]
  exact Nat.le_trans le (Nat.le_add_right ..)

theorem extend_since (t : Taint) (operation : Operation) (serial : Nat) :
    (t.extend operation serial).Under (Chain.Since serial) := by
  intro r mem
  rw [ranges_extend] at mem
  obtain ⟨old, memRanges, rfl⟩ := List.mem_map.mp mem
  exact follow_since (mem_chains memRanges) (Nat.le_refl _)

theorem extended_since (ok : t.extended operation serial = .ok t') :
    t'.Under (Chain.Since serial) :=
  under_ofRanges (extend_since t operation serial) ok

/-- Of the ranges of an overlay, those that reach into the window are the gaps and the ranges with
their chains extended. -/
theorem overlaid_of_covers {gap : Chain} {extension : Chain → Chain} (cursor : Nat) (hasGap : P gap)
    (extended : ∀ r ∈ ranges, P (extension r.chain))
    (mem : r ∈ overlaid start stop gap extension cursor ranges) (covers : r.Covers p)
    (late : start ≤ p) (early : p < stop) : P r.chain := by
  induction ranges generalizing cursor with
  | nil => exact (Range.mem_span mem).2.2.2 ▸ hasGap
  | cons old rest ih =>
    rcases List.forall_mem_cons.mp extended with ⟨hasExtension, otherExtensions⟩
    simp only [overlaid, List.mem_append, List.mem_map] at mem
    rcases mem with (((inFront | between) | ⟨inside, memPart, rfl⟩) | behind) | later
    · have := (Range.mem_span inFront).2.2.1
      have := covers.2
      omega
    · exact (Range.mem_span between).2.2.2 ▸ hasGap
    · rw [Range.withChain, Range.chain_of_mem_part memPart]
      exact hasExtension
    · have := (Range.mem_span behind).1
      have := covers.1
      omega
    · exact ih _ otherExtensions later

/-- Every chain in the window of an overlay is new. -/
theorem overlay_since (ok : t.overlay start stop operation serial = .ok t') (late : start ≤ p)
    (early : p < stop) (found : t'.chainAt p = some c) : c.Since serial := by
  rcases bind_eq_ok_iff.mp ok with ⟨_, _, ok⟩
  rw [if_neg (by omega)] at ok
  rw [(hasLabels_of_ofRanges ok).chainAt] at found
  obtain ⟨r, mem, covers, rfl⟩ := exists_of_labelIn_eq_some found
  refine overlaid_of_covers start (Nat.le_refl _) (fun old mem => ?_) mem covers late early
  exact follow_since (mem_chains mem) (Nat.le_succ _)

end Taint

namespace Recorder

variable {recorder : Recorder} {t : Taint} {name : String} {arguments : List String} {serial : Nat}

/-- If recording is on, all of what is recorded is under new chains. -/
theorem record_since (enabled : recorder.config.enabled) (le : serial ≤ recorder.nextSerial) :
    (recorder.record t name arguments).1.Under (Chain.Since serial) := by
  intro r mem
  unfold record at mem
  rw [enabled, Bool.true_and] at mem
  split at mem
  · have since := Taint.extend_since t (recorder.operation name true arguments).1
      (recorder.operation name true arguments).2.nextSerial r mem
    rw [nextSerial_operation] at since
    exact Nat.le_trans le since
  · rename_i clean
    rw [Taint.ranges_eq_nil clean] at mem
    cases mem

theorem config_operation (recorder : Recorder) (name : String) (native : Bool)
    (arguments : List String) :
    (recorder.operation name native arguments).2.config = recorder.config := by
  unfold operation
  split <;> rfl

theorem config_record (recorder : Recorder) (t : Taint) (name : String) (arguments : List String) :
    (recorder.record t name arguments).2.config = recorder.config := by
  unfold record
  split
  · exact config_operation ..
  · rfl

theorem nextSerial_le_record (recorder : Recorder) (t : Taint) (name : String)
    (arguments : List String) :
    recorder.nextSerial ≤ (recorder.record t name arguments).2.nextSerial := by
  unfold record
  split
  · exact (nextSerial_operation recorder name true arguments).symm ▸ Nat.le_add_right ..
  · exact Nat.le_refl _

end Recorder

namespace Text

variable {s s' other : Text} {recorder recorder' : Recorder} {name function sourceInfo : String}
  {parts : List Text} {start stop serial : Nat}

theorem substring_since (enabled : recorder.config.enabled) (le : serial ≤ recorder.nextSerial)
    (ok : s.substring start stop recorder = .ok (s', recorder')) :
    s'.Under (Chain.Since serial) := by
  obtain ⟨cut, window, -, -, rfl, rfl⟩ := exists_of_substring ok
  exact Recorder.record_since enabled le

theorem mapCharacters_since {map : Char → List Char} (enabled : recorder.config.enabled)
    (le : serial ≤ recorder.nextSerial)
    (ok : s.mapCharacters map name recorder = .ok (s', recorder')) :
    s'.Under (Chain.Since serial) := by
  obtain ⟨ranges, mapped, -, -, rfl, rfl⟩ := exists_of_mapCharacters ok
  exact Recorder.record_since enabled le

theorem recordPieces_since {separator : String} {index : Nat} {pieces : List (List Char)}
    (enabled : recorder.config.enabled) (le : serial ≤ recorder.nextSerial)
    (ok : s.recordPieces separator start index recorder pieces = .ok (parts, recorder')) :
    ∀ part ∈ parts, part.Under (Chain.Since serial) := by
  induction pieces generalizing start index recorder parts with
  | nil =>
    cases ok
    exact nofun
  | cons piece rest ih =>
    obtain ⟨window, others, -, recorded, rfl⟩ := exists_of_recordPieces_cons ok
    have stillEnabled :
        (recorder.record window "split" [separator, toString index]).2.config.enabled := by
      rw [Recorder.config_record]
      exact enabled
    have later := Nat.le_trans le (recorder.nextSerial_le_record window "split"
      [separator, toString index])
    exact List.forall_mem_cons.mpr
      ⟨Recorder.record_since enabled le, ih stillEnabled later recorded⟩

theorem markFrom_since {arguments : List Text} (index : Nat) (le : serial ≤ recorder.nextSerial) :
    ∀ marked ∈ (markFrom function sourceInfo index recorder arguments).1,
      marked.Under (Chain.Since serial) := by
  induction arguments generalizing index recorder with
  | nil => exact nofun
  | cons argument rest ih =>
    simp only [markFrom]
    split
    · have le := (Recorder.nextSerial_operation recorder function false
        [function, sourceInfo, toString index]).symm ▸ le
      refine List.forall_mem_cons.mpr ⟨fun r mem => ?_, ih _ (Nat.le_trans le ?_)⟩
      · exact Nat.le_trans le (Taint.extend_since _ _ _ r mem)
      · exact Nat.le_add_right ..
    · rename_i clean
      refine List.forall_mem_cons.mpr ⟨fun r mem => ?_, ih (index + 1) le⟩
      rw [Taint.ranges_eq_nil clean] at mem
      cases mem

theorem markArguments_since {arguments : List Text} (enabled : recorder.config.enabled)
    (le : serial ≤ recorder.nextSerial) :
    ∀ marked ∈ (markArguments function sourceInfo arguments recorder).1,
      marked.Under (Chain.Since serial) := by
  rw [markArguments, if_pos enabled]
  exact markFrom_since 0 le

/-- Replacing that is done has recorded the text, if recording is on. -/
theorem replace_since (enabled : recorder.config.enabled)
    (done : (replace start stop other (s, recorder)).fault = none) :
    (replace start stop other (s, recorder)).state.1.Under (Chain.Since recorder.nextSerial) := by
  rcases replace_cases start stop other s recorder with ⟨cut, t, -, recorded⟩ | ⟨t, fault, fails⟩
  · rw [recorded]
    exact Recorder.record_since enabled (Nat.le_refl _)
  · rw [fails] at done
    cases done

end Text

end TextProvenance
