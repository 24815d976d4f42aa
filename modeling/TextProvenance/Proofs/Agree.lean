import Mathlib.Data.List.Forall2
import TextProvenance.Proofs.Edit

/-!
# Runs that fail together

Two runs of the same steps, from states that are related in some way, are compared: whether they
fail together, and whether what they leave is related again.  What a run fails with is not compared.

The rules have the shape of those of `Edit.Keeps`, one for each way to put steps together.
-/

namespace TextProvenance

section Except

variable {ε α β α' β' : Type} {Q : α → α' → Prop} {R : β → β' → Prop}

/-- Two results are both there, and related, or both missing. -/
inductive Together (Q : α → α' → Prop) : Except ε α → Except ε α' → Prop
  | ok {a : α} {a' : α'} (related : Q a a') : Together Q (.ok a) (.ok a')
  | error (e e' : ε) : Together Q (.error e) (.error e')

theorem Together.exists_error_iff {x : Except ε α} {x' : Except ε α'} (together : Together Q x x') :
    (∃ e, x = .error e) ↔ ∃ e, x' = .error e := by
  cases together with
  | ok related => exact ⟨fun ⟨_, fails⟩ => (nomatch fails), fun ⟨_, fails⟩ => (nomatch fails)⟩
  | error e e' => exact ⟨fun _ => ⟨e', rfl⟩, fun _ => ⟨e, rfl⟩⟩

theorem together_of_errors {x : Except ε α} {x' : Except ε α'} (fails : ∃ e, x = .error e)
    (fails' : ∃ e, x' = .error e) : Together Q x x' := by
  rcases fails with ⟨e, rfl⟩
  rcases fails' with ⟨e', rfl⟩
  exact .error e e'

theorem together_bind {x : Except ε α} {x' : Except ε α'} {f : α → Except ε β}
    {f' : α' → Except ε β'} (first : Together Q x x')
    (second : ∀ a a', Q a a' → Together R (f a) (f' a')) : Together R (x >>= f) (x' >>= f') := by
  cases first with
  | ok related => exact second _ _ related
  | error e e' => exact .error e e'

/-- Two runs that start with the same step. -/
theorem together_bind_self {x : Except ε α} {f : α → Except ε β} {f' : α → Except ε β'}
    (each : ∀ a, x = .ok a → Together R (f a) (f' a)) : Together R (x >>= f) (x >>= f') := by
  cases x with
  | ok a => exact each a rfl
  | error e => exact .error e e

theorem together_map {x : Except ε α} {x' : Except ε α'} {f : α → β} {f' : α' → β'}
    (first : Together Q x x') (second : ∀ a a', Q a a' → R (f a) (f' a')) :
    Together R (f <$> x) (f' <$> x') := by
  cases first with
  | ok related => exact .ok (second _ _ related)
  | error e e' => exact .error e e'

end Except

/-! ## Edits -/

variable {σ σ' τ τ' : Type} {R : σ → σ' → Prop}

/-- The states of two outcomes are related, and both edits were stopped, or neither was. -/
structure Outcome.Agree (R : σ → σ' → Prop) (o : Outcome σ) (o' : Outcome σ') : Prop where
  state : R o.state o'.state
  fault : o.fault.isSome = o'.fault.isSome

theorem Outcome.Agree.done {s : σ} {s' : σ'} (related : R s s') :
    Outcome.Agree R { state := s } { state := s' } :=
  ⟨related, rfl⟩

theorem Outcome.Agree.stopped {s : σ} {s' : σ'} (fault fault' : Fault) (related : R s s') :
    Outcome.Agree R { state := s, fault := some fault } { state := s', fault := some fault' } :=
  ⟨related, rfl⟩

namespace Edit

section Outcomes

variable {s : σ} {s' : σ'}

theorem agree_outcome_step {change : σ → Except Fault σ} {change' : σ' → Except Fault σ'}
    (related : R s s') (together : Together R (change s) (change' s')) :
    Outcome.Agree R (step change s) (step change' s') := by
  unfold step
  generalize change s = result at together ⊢
  generalize change' s' = result' at together ⊢
  cases together with
  | ok related => exact .done related
  | error fault fault' => exact .stopped fault fault' related

/-- The second edits go on where the first ones are done. -/
theorem agree_outcome_andThen {first second : Edit σ} {first' second' : Edit σ'}
    (agree : Outcome.Agree R (first s) (first' s'))
    (each : ∀ t t', R t t' → first s = { state := t } → first' s' = { state := t' } →
      Outcome.Agree R (second t) (second' t')) :
    Outcome.Agree R (first.andThen second s) (first'.andThen second' s') := by
  unfold andThen
  rcases ended : first s with ⟨t, fault⟩
  rcases ended' : first' s' with ⟨t', fault'⟩
  rw [ended, ended'] at agree
  rcases agree with ⟨related, faults⟩
  cases fault with
  | none =>
    cases fault' with
    | none => exact each t t' related ended ended'
    | some fault' => cases faults
  | some fault =>
    cases fault' with
    | none => cases faults
    | some fault' => exact .stopped fault fault' related

/-- What is left of edits of copies is related, and both edits are stopped, or neither is. -/
theorem together_result {edit : Edit σ} {edit' : Edit σ'}
    (agree : Outcome.Agree R (edit s) (edit' s')) :
    Together R (edit.result s) (edit'.result s') := by
  unfold result
  rcases ended : edit s with ⟨t, fault⟩
  rcases ended' : edit' s' with ⟨t', fault'⟩
  rw [ended, ended'] at agree
  rcases agree with ⟨related, faults⟩
  cases fault with
  | none =>
    cases fault' with
    | none => exact .ok related
    | some fault' => cases faults
  | some fault =>
    cases fault' with
    | none => cases faults
    | some fault' => exact .error fault fault'

end Outcomes

/-- The edits take related states to outcomes that agree. -/
def Agree (R : σ → σ' → Prop) (edit : Edit σ) (edit' : Edit σ') : Prop :=
  ∀ s s', R s s' → Outcome.Agree R (edit s) (edit' s')

theorem agree_nothing : Agree R nothing nothing := fun _ _ related => .done related

theorem agree_step {change : σ → Except Fault σ} {change' : σ' → Except Fault σ'}
    (each : ∀ s s', R s s' → Together R (change s) (change' s')) :
    Agree R (step change) (step change') :=
  fun s s' related => agree_outcome_step related (each s s' related)

theorem agree_andThen {first second : Edit σ} {first' second' : Edit σ'}
    (agreeFirst : Agree R first first') (agreeSecond : Agree R second second') :
    Agree R (first.andThen second) (first'.andThen second') :=
  fun s s' related =>
    agree_outcome_andThen (agreeFirst s s' related) fun t t' related _ _ =>
      agreeSecond t t' related

theorem agree_given {α α' : Type} {Q : α → α' → Prop} {value : Except Fault α}
    {value' : Except Fault α'} {edit : α → Edit σ} {edit' : α' → Edit σ'}
    (together : Together Q value value') (each : ∀ a a', Q a a' → Agree R (edit a) (edit' a')) :
    Agree R (given value edit) (given value' edit') := by
  intro s s' related
  cases together with
  | ok relatedValues => exact each _ _ relatedValues s s' related
  | error fault fault' => exact .stopped fault fault' related

/-- Edits with the same value. -/
theorem agree_given_self {α : Type} {value : Except Fault α} {edit : α → Edit σ}
    {edit' : α → Edit σ'} (each : ∀ a, value = .ok a → Agree R (edit a) (edit' a)) :
    Agree R (given value edit) (given value edit') := by
  intro s s' related
  cases value with
  | ok a => exact each a rfl s s' related
  | error fault => exact .stopped fault fault related

/-- Edits of parts that are related agree if the rest that they leave is related too. -/
theorem agree_within {S : τ → τ' → Prop} {get : τ → σ} {get' : τ' → σ'} {set : τ → σ → τ}
    {set' : τ' → σ' → τ'} {edit : Edit σ} {edit' : Edit σ'}
    (part : ∀ t t', S t t' → R (get t) (get' t'))
    (whole : ∀ t t' s s', S t t' → R s s' → S (set t s) (set' t' s')) (agree : Agree R edit edit') :
    Agree S (within get set edit) (within get' set' edit') := by
  intro t t' related
  rcases agree _ _ (part t t' related) with ⟨states, faults⟩
  exact ⟨whole t t' _ _ related states, faults⟩

end Edit

end TextProvenance
