import TextProvenance.Proofs.Taint.Overwrite
import TextProvenance.Taint.Change

/-!
# Changes of taint are done as a whole or not at all

A change that builds its result apart leaves nothing behind when it fails.  Three changes go in
several steps: `Taint.concat` appends range by range, `Taint.addTaint` attaches range by range, and
`Taint.set` clears a position before it inserts there.  They check everything that can fail before
the first step, and after it the taint is known well enough to see that no later step fails.
`Taint.Change.unchanged_of_fault` has all changes, and the later steps of these three.
-/

namespace TextProvenance.Taint

variable {t other : Taint} {index offset : Nat} {moved : List Range}

theorem atomic_concat (wf : t.WellFormed) (wfOther : other.WellFormed) (offset : Nat) :
    Edit.Atomic (concat other offset) t := by
  by_cases early : offset < t.stop
  · exact Edit.atomic_of_eq (if_pos early) (Edit.atomic_fail _ t)
  · refine Edit.atomic_of_eq (if_neg early) (Edit.atomic_given fun moved ok => ?_)
    obtain ⟨t', run, -⟩ :=
      forEach_append_moved wf wfOther (Nat.le_of_not_lt early) (movedBy_of_shifted ok)
    exact Edit.atomic_of_done run

theorem atomic_set (wf : t.WellFormed) (index : Nat) (chain : Chain) :
    Edit.Atomic (set index chain) t := by
  by_cases inside : index < Position.last
  · obtain ⟨t', done, -⟩ := set_spec wf inside chain
    exact Edit.atomic_of_done done
  · exact Edit.atomic_of_eq (if_pos (Nat.le_of_not_lt inside)) (Edit.atomic_fail _ t)

namespace Change

/-- The taint that a change takes from elsewhere is well formed. -/
def OperandWellFormed : Change → Prop
  | addTaint other => other.WellFormed
  | concat other _ => other.WellFormed
  | insert _ other => other.WellFormed
  | _ => True

instance : (change : Change) → Decidable change.OperandWellFormed
  | addTaint other => inferInstanceAs (Decidable other.WellFormed)
  | concat other _ => inferInstanceAs (Decidable other.WellFormed)
  | insert _ other => inferInstanceAs (Decidable other.WellFormed)
  | append _ | addRange _ | clearBetween _ _ | clearAt _ | clear | shift _ _ | set _ _
  | overlay _ _ _ | extend _ | convertBase _ _ _ => .isTrue trivial

theorem atomic_edit (wf : t.WellFormed) (change : Change) (wfOperand : change.OperandWellFormed)
    (nextSerial : Nat) : Edit.Atomic (change.edit nextSerial) t := by
  cases change with
  | addTaint other =>
    obtain ⟨t', done, -⟩ := addTaint_spec wf wfOperand
    exact Edit.atomic_of_done done
  | concat other offset => exact atomic_concat wf wfOperand offset
  | set index chain => exact atomic_set wf index chain
  | append | addRange | clearBetween | clearAt | clear | shift | insert | overlay | extend
  | convertBase => exact Edit.atomic_step _ t

/-- **Changes of taint are done as a whole or not at all.**  A change of well-formed taint that
fails leaves the taint as it was.  For the changes in several steps, that is because no later step
fails: appending ranges that have been moved behind the taint, clearing a position and inserting
there, and attaching ranges. -/
theorem unchanged_of_fault (wf : t.WellFormed) :
    (∀ (change : Change) (nextSerial : Nat) (fault : Fault), change.OperandWellFormed →
      (change.edit nextSerial t).fault = some fault → (change.edit nextSerial t).state = t) ∧
    (∀ (other : Taint) (offset : Nat) (moved : List Range), other.WellFormed → t.stop ≤ offset →
      other.ranges.mapM (·.shifted offset) = .ok moved →
      ∃ t', Edit.forEach moved (fun r => Edit.step (·.append r)) t = { state := t' }) ∧
    (∀ (index : Nat) (chain : Chain), index < Position.last →
      ∃ cleared single t', t.clearAt index = .ok cleared ∧ ofPosition 0 chain = .ok single ∧
        cleared.insert index single = .ok t') ∧
    (∀ other : Taint, other.WellFormed →
      ∃ t', Edit.forEach other.ranges (fun r => Edit.step (·.addRange r)) t = { state := t' }) := by
  refine ⟨fun change nextSerial fault wfOperand fails =>
    atomic_edit wf change wfOperand nextSerial fault fails, ?_, ?_, ?_⟩
  · intro other offset moved wfOther late ok
    obtain ⟨t', run, -⟩ := forEach_append_moved wf wfOther late (movedBy_of_shifted ok)
    exact ⟨t', run⟩
  · intro index chain inside
    obtain ⟨cleared, single, t', clear, position, insert, -⟩ :=
      exists_clearAt_insert wf inside chain
    exact ⟨cleared, single, t', clear, position, insert⟩
  · intro other wfOther
    obtain ⟨t', run, -⟩ := addTaint_spec wf wfOther
    exact ⟨t', run⟩

/-- The second of two moved ranges leaves the positions, when the first has been moved already. -/
theorem unchanged_of_fault_concat :
    ((concat ⟨some [⟨0, 1, .ofSource { name := "read" } 1, by decide, by decide⟩,
        ⟨1, 9, .ofSource { name := "read" } 2, by decide, by decide⟩]⟩ 4294967290).edit 0
      ⟨some [⟨2, 4, .ofSource { name := "read" } 0, by decide, by decide⟩]⟩).state =
      ⟨some [⟨2, 4, .ofSource { name := "read" } 0, by decide, by decide⟩]⟩ := by
  have unchanged := unchanged_of_fault
    (t := ⟨some [⟨2, 4, .ofSource { name := "read" } 0, by decide, by decide⟩]⟩) (by decide)
  exact unchanged.1 (concat ⟨some [⟨0, 1, .ofSource { name := "read" } 1, by decide, by decide⟩,
    ⟨1, 9, .ofSource { name := "read" } 2, by decide, by decide⟩]⟩ 4294967290) 0
    (.rangeMovedOut 4294967290 9) (by decide) (by decide)

end Change

end TextProvenance.Taint
