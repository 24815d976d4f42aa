import TextProvenance.Fault

/-!
# Edits in place

An edit changes a state step by step.  If a step fails, the edit stops there, and what the steps
before it changed stays changed: the outcome has a state in any case.
-/

namespace TextProvenance

/-- What an edit leaves: the state, and the fault that stopped it. -/
structure Outcome (σ : Type) where
  state : σ
  fault : Option Fault := none

/-- A change of a state that may fail half-way. -/
abbrev Edit (σ : Type) := σ → Outcome σ

namespace Edit

variable {σ : Type}

/-- Changes nothing. -/
def nothing : Edit σ := fun s => { state := s }

/-- Fails at once. -/
def fail (fault : Fault) : Edit σ := fun s => { state := s, fault := some fault }

/-- A change in one step: all of it or nothing. -/
def step (change : σ → Except Fault σ) : Edit σ := fun s =>
  match change s with
  | .ok s' => { state := s' }
  | .error fault => { state := s, fault := some fault }

/-- One edit after another. -/
def andThen (first second : Edit σ) : Edit σ := fun s =>
  match first s with
  | { state, fault := none } => second state
  | stopped => stopped

/-- One edit for each item of a list, in order. -/
def forEach {α : Type} (items : List α) (edit : α → Edit σ) : Edit σ :=
  items.foldr (fun item rest => (edit item).andThen rest) nothing

/-- An edit with a value that is worked out first; nothing is changed if that fails. -/
def given {α : Type} (value : Except Fault α) (edit : α → Edit σ) : Edit σ :=
  match value with
  | .ok a => edit a
  | .error fault => fail fault

/-- An edit of one part of a larger state. -/
def within {τ : Type} (get : τ → σ) (set : τ → σ → τ) (edit : Edit σ) : Edit τ := fun t =>
  let outcome := edit (get t)
  { state := set t outcome.state, fault := outcome.fault }

/-- The state after an edit of a copy: nothing is left of an edit that fails. -/
def result (edit : Edit σ) (s : σ) : Except Fault σ :=
  match edit s with
  | { state, fault := none } => .ok state
  | { fault := some fault, .. } => .error fault

end Edit

end TextProvenance
