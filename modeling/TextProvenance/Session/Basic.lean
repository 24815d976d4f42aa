import TextProvenance.Listing.Reader
import TextProvenance.Text.Basic

/-!
# Sessions

A session holds values under names and one recorder.  A computation in a session may fail; what it
changed before stays changed.
-/

namespace TextProvenance

/-- What a name in a session can stand for. -/
inductive Value
  | chain (c : Chain)
  | range (r : Range)
  | taint (t : Taint)
  | text (s : Text)
deriving DecidableEq

/-- The chains of a value; of taint, one for each range. -/
def Value.chains : Value → List Chain
  | chain c => [c]
  | range r => [r.chain]
  | taint t => t.chains
  | text s => s.taint.chains

/-- The taint of a value; a text stands for its taint. -/
def Value.taint? : Value → Option Taint
  | taint t => some t
  | text s => some s.taint
  | _ => none

/-- Named values and the recorder they are made with. -/
structure Session where
  /-- Names and their values, the latest first. -/
  values : List (String × Value) := []
  recorder : Recorder := {}

/-- Why a computation in a session fails. -/
inductive Failure
  | fault (fault : Fault)
  /-- A text is no listing. -/
  | rejected (reason : Listing.Rejection)
  /-- A name does not stand for a value of the kind that is asked for. -/
  | unbound (name : String)

namespace Session

/-- The value of a name: the latest one it was given. -/
def value? (s : Session) (name : String) : Option Value := s.values.lookup name

/-- The session with a name for a value, which hides what it stood for before. -/
def bind (s : Session) (name : String) (value : Value) : Session :=
  { s with values := (name, value) :: s.values }

/-- The session without a name. -/
def unbind (s : Session) (name : String) : Session :=
  { s with values := s.values.filter (·.1 != name) }

end Session

/-- Computations in a session. -/
abbrev SessionM := ExceptT Failure (StateM Session)

namespace SessionM

variable {α : Type}

/-- A result, or the fault that stops the session's computation. -/
def ofFault (result : Except Fault α) : SessionM α :=
  match result with
  | .ok a => return a
  | .error fault => throw (.fault fault)

/-- Uses the recorder. -/
def recording (use : Recorder → α × Recorder) : SessionM α := do
  let s ← get
  let (a, recorder) := use s.recorder
  set { s with recorder }
  return a

/-- Uses the recorder for what may fail. -/
def recordingOrFault (use : Recorder → Except Fault (α × Recorder)) : SessionM α := do
  let s ← get
  let (a, recorder) ← ofFault (use s.recorder)
  set { s with recorder }
  return a

/-- What the recorder has done is kept also if an action fails: `left` is the recorder then. -/
def leaving (left : Recorder → Recorder) (action : SessionM α) : SessionM α := do
  try action
  catch failure =>
    modify fun s => { s with recorder := left s.recorder }
    throw failure

/-- Gives a name to a value. -/
def assign (name : String) (value : Value) : SessionM Unit := modify (·.bind name value)

/-- The value of a name. -/
def named (name : String) : SessionM Value := do
  match (← get).value? name with
  | some value => return value
  | none => throw (.unbound name)

/-- The chain that a name stands for. -/
def chainNamed (name : String) : SessionM Chain := do
  match ← named name with
  | .chain c => return c
  | _ => throw (.unbound name)

/-- The range that a name stands for. -/
def rangeNamed (name : String) : SessionM Range := do
  match ← named name with
  | .range r => return r
  | _ => throw (.unbound name)

/-- The taint that a name stands for. -/
def taintNamed (name : String) : SessionM Taint := do
  match (← named name).taint? with
  | some t => return t
  | none => throw (.unbound name)

/-- The text that a name stands for. -/
def textNamed (name : String) : SessionM Text := do
  match ← named name with
  | .text s => return s
  | _ => throw (.unbound name)

/-- The state that an edit leaves is kept also if it fails. -/
def keeping {σ : Type} (outcome : Outcome σ) (keep : σ → SessionM Unit) : SessionM Unit := do
  keep outcome.state
  match outcome.fault with
  | none => return ()
  | some fault => throw (.fault fault)

/-- Edits the taint that a name stands for, in place. -/
def editTaint (name : String) (edit : Edit Taint) : SessionM Unit := do
  match ← named name with
  | .taint t => keeping (edit t) fun t => assign name (.taint t)
  | .text s => keeping (edit s.taint) fun t => assign name (.text (s.withTaint t))
  | _ => throw (.unbound name)

/-- Edits the text that a name stands for, in place. -/
def editText (name : String) (edit : Edit Text) : SessionM Unit := do
  let s ← textNamed name
  keeping (edit s) fun s => assign name (.text s)

/-- Edits the text that a name stands for, and the recorder. -/
def editRecorded (name : String) (edit : Edit (Text × Recorder)) : SessionM Unit := do
  let s ← textNamed name
  let recorder := (← get).recorder
  keeping (edit (s, recorder)) fun (s, recorder) => do
    modify ({ · with recorder })
    assign name (.text s)

/-- Does the same several times. -/
def times : Nat → SessionM Unit → SessionM Unit
  | 0, _ => return ()
  | count + 1, action => do
    action
    times count action

end SessionM

end TextProvenance
