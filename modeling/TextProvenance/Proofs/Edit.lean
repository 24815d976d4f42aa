import Mathlib.Tactic.Common
import TextProvenance.Edit

/-!
# Reasoning about steps that may fail

How a result of several steps was reached, when all items of a list can be mapped, and which
conditions an edit keeps.  An edit that fails half-way leaves a state too, so `Edit.Keeps` speaks of
the state in any case; `Edit.Atomic` says that it is the state from before.
-/

namespace TextProvenance

section Except

variable {ε α β : Type}

theorem bind_eq_ok_iff {x : Except ε α} {f : α → Except ε β} {b : β} :
    x >>= f = .ok b ↔ ∃ a, x = .ok a ∧ f a = .ok b := by
  cases x with
  | error e => exact ⟨fun ok => (nomatch ok), fun ⟨_, ok, _⟩ => (nomatch ok)⟩
  | ok a => exact ⟨fun ok => ⟨a, rfl, ok⟩, fun ⟨_, same, ok⟩ => Except.ok.inj same ▸ ok⟩

theorem map_eq_ok_iff {x : Except ε α} {f : α → β} {b : β} :
    f <$> x = .ok b ↔ ∃ a, x = .ok a ∧ f a = b := by
  cases x with
  | error e => exact ⟨fun ok => (nomatch ok), fun ⟨_, ok, _⟩ => (nomatch ok)⟩
  | ok a => exact ⟨fun ok => ⟨a, rfl, Except.ok.inj ok⟩, fun ⟨_, same, ok⟩ => same ▸ ok ▸ rfl⟩

theorem bind_eq_error_iff {x : Except ε α} {f : α → Except ε β} {e : ε} :
    x >>= f = .error e ↔ x = .error e ∨ ∃ a, x = .ok a ∧ f a = .error e := by
  cases x with
  | error e' =>
    refine ⟨fun fails => .inl (Except.error.inj fails ▸ rfl), ?_⟩
    rintro (same | ⟨_, ok, _⟩)
    · exact Except.error.inj same ▸ rfl
    · cases ok
  | ok a =>
    refine ⟨fun fails => .inr ⟨a, rfl, fails⟩, ?_⟩
    rintro (same | ⟨_, same, fails⟩)
    · cases same
    · exact Except.ok.inj same ▸ fails

theorem map_eq_error_iff {x : Except ε α} {f : α → β} {e : ε} :
    f <$> x = .error e ↔ x = .error e := by
  cases x with
  | error e' => exact ⟨fun fails => Except.error.inj fails ▸ rfl,
      fun fails => Except.error.inj fails ▸ rfl⟩
  | ok a => exact ⟨fun fails => (nomatch fails), fun fails => (nomatch fails)⟩

/-- What some result has, the result has. -/
theorem holds_of_eq_ok {x : Except ε α} {a : α} {P : α → Prop} (ok : x = .ok a)
    (spec : ∃ b, x = .ok b ∧ P b) : P a := by
  obtain ⟨b, ok', holds⟩ := spec
  cases ok.symm.trans ok'
  exact holds

theorem not_error_of_eq_ok {x : Except ε α} {a : α} (ok : x = .ok a) :
    ¬ ∃ e, x = .error e := by
  rintro ⟨e, fails⟩
  cases ok.symm.trans fails

/-- A result is an error exactly where it is refused, if it is there wherever it is not refused. -/
theorem exists_error_iff {x : Except ε α} {refused : Prop} (fails : refused → ∃ e, x = .error e)
    (succeeds : ¬ refused → ∃ a, x = .ok a) : (∃ e, x = .error e) ↔ refused := by
  refine ⟨fun error => ?_, fails⟩
  by_contra accepted
  obtain ⟨a, ok⟩ := succeeds accepted
  exact not_error_of_eq_ok ok error

theorem mapM_singleton (f : α → Except ε β) (a : α) : [a].mapM f = ([·]) <$> f a := by
  rw [List.mapM_cons, List.mapM_nil]
  cases f a <;> rfl

theorem mapM_congr {f g : α → Except ε β} {items : List α} (same : ∀ a ∈ items, f a = g a) :
    items.mapM f = items.mapM g := by
  induction items with
  | nil => rfl
  | cons a rest ih =>
    rw [List.mapM_cons, List.mapM_cons, same a List.mem_cons_self,
      ih fun b mem => same b (List.mem_cons_of_mem a mem)]

/-- A list is mapped as a whole if every item is. -/
theorem mapM_eq_ok {f : α → Except ε β} {g : α → β} {items : List α}
    (each : ∀ a ∈ items, f a = .ok (g a)) : items.mapM f = .ok (items.map g) := by
  induction items with
  | nil => rfl
  | cons a rest ih =>
    rw [List.mapM_cons, each a (by simp), ih fun b mem => each b (by simp [mem])]
    rfl

/-- One item that cannot be mapped is enough for the list not to be mapped. -/
theorem mapM_eq_error {f : α → Except ε β} {items : List α} {a : α} (mem : a ∈ items)
    (fails : ∃ e, f a = .error e) : ∃ e, items.mapM f = .error e := by
  induction items with
  | nil => cases mem
  | cons b rest ih =>
    rw [List.mapM_cons]
    cases first : f b with
    | error e => exact ⟨e, rfl⟩
    | ok c =>
      rcases List.mem_cons.mp mem with rfl | mem
      · rcases fails with ⟨e, fails⟩
        rw [first] at fails
        cases fails
      · rcases ih mem with ⟨e, fails⟩
        exact ⟨e, by rw [fails]; rfl⟩

/-- Every item of the second list has a partner in the first. -/
theorem exists_of_forall₂ {R : α → β → Prop} {firsts : List α} {seconds : List β} {b : β}
    (all : List.Forall₂ R firsts seconds) (mem : b ∈ seconds) : ∃ a ∈ firsts, R a b := by
  induction all with
  | nil => cases mem
  | @cons a c firsts seconds first _ ih =>
    rcases List.mem_cons.mp mem with rfl | mem
    · exact ⟨a, by simp, first⟩
    · rcases ih mem with ⟨a, memFirsts, related⟩
      exact ⟨a, by simp [memFirsts], related⟩

end Except

namespace Edit

variable {σ α : Type} {I : σ → Prop}

/-! ## Outcomes of edits -/

section Outcomes

variable {first second : Edit σ} {change : σ → Except Fault σ} {s s' : σ} {fault : Fault}

theorem step_of_ok (ok : change s = .ok s') : step change s = { state := s' } := by
  rw [step, ok]

theorem step_of_error (fails : change s = .error fault) :
    step change s = { state := s, fault := some fault } := by
  rw [step, fails]

theorem andThen_of_done (done : first s = { state := s' }) :
    first.andThen second s = second s' := by
  rw [andThen, done]

theorem andThen_of_stopped (stopped : first s = { state := s', fault := some fault }) :
    first.andThen second s = { state := s', fault := some fault } := by
  rw [andThen, stopped]

theorem forEach_cons (a : α) (rest : List α) (edit : α → Edit σ) :
    forEach (a :: rest) edit = (edit a).andThen (forEach rest edit) := rfl

theorem given_of_ok {value : Except Fault α} {a : α} {edit : α → Edit σ} (ok : value = .ok a) :
    given value edit = edit a := by
  rw [ok, given]

theorem given_of_error {value : Except Fault α} {edit : α → Edit σ}
    (fails : value = .error fault) : given value edit = fail fault := by
  rw [fails, given]

theorem result_of_done (done : first s = { state := s' }) : first.result s = .ok s' := by
  rw [result, done]

/-- A step that is done is a change that succeeds. -/
theorem ok_of_step_done (done : (step change s).fault = none) :
    change s = .ok (step change s).state := by
  unfold step at *
  cases changed : change s with
  | ok s' => rfl
  | error fault =>
    rw [changed] at done
    cases done

end Outcomes

/-! ## Edits that fail -/

section Failures

variable {edit : Edit σ} {s s' : σ} {fault : Fault}

/-- The edit stops with a fault. -/
def Fails (edit : Edit σ) (s : σ) : Prop := ∃ fault, (edit s).fault = some fault

theorem fails_of_stopped (stopped : edit s = { state := s', fault := some fault }) :
    edit.Fails s := ⟨fault, by rw [stopped]⟩

theorem not_fails_of_done (done : edit s = { state := s' }) : ¬ edit.Fails s := by
  rintro ⟨fault, fails⟩
  rw [done] at fails
  cases fails

theorem fails_step_iff {change : σ → Except Fault σ} :
    (step change).Fails s ↔ ∃ fault, change s = .error fault := by
  cases changed : change s with
  | ok s' => exact iff_of_false (not_fails_of_done (step_of_ok changed)) (not_error_of_eq_ok rfl)
  | error fault => exact iff_of_true (fails_of_stopped (step_of_error changed)) ⟨fault, rfl⟩

/-- An edit fails exactly where it is refused, if it is done wherever it is not refused. -/
theorem fails_iff {refused : Prop} (fails : refused → edit.Fails s)
    (succeeds : ¬ refused → ∃ s', edit s = { state := s' }) : edit.Fails s ↔ refused := by
  refine ⟨fun stops => ?_, fails⟩
  by_contra accepted
  obtain ⟨s', done⟩ := succeeds accepted
  exact not_fails_of_done done stops

end Failures

/-! ## States after edits -/

section States

variable {first second : Edit σ} {s : σ}

theorem holds_step {change : σ → Except Fault σ} (holds : I s)
    (each : ∀ s', change s = .ok s' → I s') : I (step change s).state := by
  unfold step
  split
  · exact each _ ‹_›
  · exact holds

/-- The state after two edits is the one after the first if that fails. -/
theorem holds_andThen (holds : I (first s).state)
    (each : ∀ s', first s = { state := s' } → I (second s').state) :
    I (first.andThen second s).state := by
  unfold andThen
  split
  · exact each _ ‹_›
  · exact holds

theorem holds_given {value : Except Fault α} {edit : α → Edit σ} (holds : I s)
    (each : ∀ a, value = .ok a → I (edit a s).state) : I (given value edit s).state := by
  cases value with
  | error fault => exact holds
  | ok a => exact each a rfl

end States

/-! ## Edits that agree on a state -/

section Congr

variable {first first' second second' : Edit σ} {s : σ}

theorem step_congr {change change' : σ → Except Fault σ} (same : change s = change' s) :
    step change s = step change' s := by
  rw [step, step, same]

theorem andThen_congr (same : first s = first' s)
    (each : ∀ s', first' s = { state := s' } → second s' = second' s') :
    first.andThen second s = first'.andThen second' s := by
  rcases ended : first' s with ⟨s', _ | fault⟩
  · rw [andThen_of_done (same.trans ended), andThen_of_done ended, each s' ended]
  · rw [andThen_of_stopped (same.trans ended), andThen_of_stopped ended]

end Congr

/-! ## What edits keep -/

/-- The state that the edit leaves has the property if the state before it has. -/
def Keeps (I : σ → Prop) (edit : Edit σ) : Prop := ∀ s, I s → I (edit s).state

theorem keeps_nothing : Keeps I nothing := fun _ holds => holds

theorem keeps_step {change : σ → Except Fault σ}
    (each : ∀ s s', I s → change s = .ok s' → I s') : Keeps I (step change) :=
  fun s holds => holds_step holds fun s' ok => each s s' holds ok

theorem keeps_andThen {first second : Edit σ} (keepsFirst : Keeps I first)
    (keepsSecond : Keeps I second) : Keeps I (first.andThen second) := by
  intro s holds
  have middle := keepsFirst s holds
  refine holds_andThen middle fun s' done => ?_
  rw [done] at middle
  exact keepsSecond s' middle

theorem keeps_forEach {items : List α} {edit : α → Edit σ}
    (each : ∀ a ∈ items, Keeps I (edit a)) : Keeps I (forEach items edit) := by
  induction items with
  | nil => exact keeps_nothing
  | cons a rest ih =>
    exact keeps_andThen (each a (by simp)) (ih fun b mem => each b (by simp [mem]))

/-- Edits agree as a whole if they agree one by one on states with a property that they keep. -/
theorem forEach_congr {items : List α} {edit edit' : α → Edit σ} {s : σ} (holds : I s)
    (same : ∀ a ∈ items, ∀ s, I s → edit a s = edit' a s)
    (keeps : ∀ a ∈ items, Keeps I (edit' a)) : forEach items edit s = forEach items edit' s := by
  induction items generalizing s with
  | nil => rfl
  | cons a rest ih =>
    have kept := keeps a List.mem_cons_self s holds
    refine andThen_congr (same a List.mem_cons_self s holds) fun s' done => ?_
    rw [done] at kept
    exact ih kept (fun b mem => same b (List.mem_cons_of_mem a mem))
      fun b mem => keeps b (List.mem_cons_of_mem a mem)

theorem keeps_given {value : Except Fault α} {edit : α → Edit σ}
    (each : ∀ a, value = .ok a → Keeps I (edit a)) : Keeps I (given value edit) :=
  fun s holds => holds_given holds fun a ok => each a ok s holds

theorem keeps_within {τ : Type} {get : τ → σ} {set : τ → σ → τ} {edit : Edit σ}
    (getSet : ∀ t s, get (set t s) = s) (keeps : Keeps I edit) :
    Keeps (fun t => I (get t)) (within get set edit) := by
  intro t holds
  have kept := keeps (get t) holds
  simpa only [within, getSet] using kept

/-! ## Edits that leave nothing when they fail -/

section Atomic

variable {edit edit' : Edit σ} {s s' : σ}

/-- The edit is done as a whole, or the state is as it was. -/
def Atomic (edit : Edit σ) (s : σ) : Prop :=
  ∀ fault, (edit s).fault = some fault → (edit s).state = s

theorem atomic_of_done (done : edit s = { state := s' }) : Atomic edit s := by
  intro fault fails
  rw [done] at fails
  cases fails

/-- An edit is atomic at a state where it does what an atomic one does. -/
theorem atomic_of_eq (same : edit s = edit' s) (atomic : Atomic edit' s) : Atomic edit s := by
  unfold Atomic
  rw [same]
  exact atomic

theorem atomic_fail (fault : Fault) (s : σ) : Atomic (fail fault) s := fun _ _ => rfl

theorem atomic_step (change : σ → Except Fault σ) (s : σ) : Atomic (step change) s := by
  intro fault fails
  unfold step at fails ⊢
  split at fails
  · cases fails
  · rfl

theorem atomic_given {value : Except Fault α} {edit : α → Edit σ}
    (each : ∀ a, value = .ok a → Atomic (edit a) s) : Atomic (given value edit) s := by
  cases value with
  | error fault => exact atomic_fail fault s
  | ok a => exact each a rfl

end Atomic

end Edit

end TextProvenance
