import TextProvenance.Proofs.Edit
import TextProvenance.Session.Run

/-!
# Properties that sessions keep

`SessionM.ends` is how a computation ends: its result or failure, and the session it leaves.  A
computation reads a session (`SessionM.Reads`) if it leaves the values as they are, it is still
(`SessionM.Still`) if it leaves the recorder as it is, too, and it keeps a property of values
(`SessionM.Keeps`) if the session it leaves has only values with the property, provided the session
it starts in has.  The rules below say so for sequences and for the small
computations that commands are made of, one rule for each.
-/

namespace TextProvenance

/-- Every value of the session has the property, also the ones that others hide. -/
def Session.Holds (s : Session) (P : Value → Prop) : Prop := ∀ named ∈ s.values, P named.2

theorem Session.Holds.bind {s : Session} {P : Value → Prop} {name : String} {value : Value}
    (holds : s.Holds P) (has : P value) : (s.bind name value).Holds P := by
  intro named mem
  rcases List.mem_cons.mp mem with rfl | mem
  · exact has
  · exact holds named mem

theorem Session.Holds.unbind {s : Session} {P : Value → Prop} (holds : s.Holds P)
    (name : String) : (s.unbind name).Holds P :=
  fun named mem => holds named (List.mem_filter.mp mem).1

/-- The value with other taint: this taint itself, or the text with it. -/
def Value.withTaint (value : Value) (t : Taint) : Value :=
  match value with
  | .text s => .text (s.withTaint t)
  | _ => .taint t

theorem Value.taint?_withTaint (value : Value) (t : Taint) :
    (value.withTaint t).taint? = some t := by
  cases value <;> rfl

theorem Value.chains_of_taint? {value : Value} {t : Taint} (tainted : value.taint? = some t) :
    value.chains = t.chains := by
  cases value with
  | taint _ | text _ =>
    cases tainted
    rfl
  | chain _ | range _ => cases tainted

theorem Session.value?_bind_self (s : Session) (name : String) (value : Value) :
    (s.bind name value).value? name = some value :=
  List.lookup_cons_self

theorem Session.mem_of_value? {s : Session} {name : String} {value : Value}
    (found : s.value? name = some value) : (name, value) ∈ s.values := by
  unfold Session.value? at found
  generalize s.values = values at found
  induction values with
  | nil => cases found
  | cons named rest ih =>
    rw [List.lookup_cons] at found
    split at found
    · rename_i same
      obtain rfl := Option.some.inj found
      rw [eq_of_beq same]
      exact List.mem_cons_self
    · exact List.mem_cons_of_mem _ (ih found)

namespace SessionM

variable {α β : Type}

/-! ## How computations end -/

/-- The result or failure of a computation, and the session after it. -/
def ends (m : SessionM α) (s : Session) : Except Failure α × Session := (m.run.run s).run

theorem ends_bind (m : SessionM α) (f : α → SessionM β) (s : Session) :
    (m >>= f).ends s =
      match m.ends s with
      | (.ok a, s') => (f a).ends s'
      | (.error failure, s') => (.error failure, s') := by
  unfold ends ExceptT.run StateT.run Id.run
  simp only [bind, ExceptT.bind, ExceptT.mk, StateT.bind, ExceptT.bindCont]
  rcases m s with ⟨result, s'⟩
  cases result <;> rfl

theorem ends_get (s : Session) : ends (get : SessionM Session) s = (.ok s, s) := rfl

theorem ends_ofFault (result : Except Fault α) (s : Session) :
    (ofFault result).ends s = (result.mapError Failure.fault, s) := by
  cases result <;> rfl

theorem ends_recording (use : Recorder → α × Recorder) (s : Session) :
    (recording use).ends s = (.ok (use s.recorder).1, { s with recorder := (use s.recorder).2 }) :=
  rfl

theorem ends_recordingOrFault (use : Recorder → Except Fault (α × Recorder)) (s : Session) :
    (recordingOrFault use).ends s =
      match use s.recorder with
      | .ok (a, recorder) => (.ok a, { s with recorder })
      | .error fault => (.error (.fault fault), s) := by
  unfold recordingOrFault
  rw [ends_bind, ends_get]
  simp only [ends_bind, ends_ofFault]
  cases use s.recorder with
  | error fault => rfl
  | ok made => rfl

theorem ends_leaving (left : Recorder → Recorder) (m : SessionM α) (s : Session) :
    (leaving left m).ends s =
      match m.ends s with
      | (.ok a, s') => (.ok a, s')
      | (.error failure, s') =>
        (.error failure, { s' with recorder := left s'.recorder }) := by
  unfold ends ExceptT.run StateT.run Id.run leaving
  simp only [tryCatch, tryCatchThe, MonadExceptOf.tryCatch, ExceptT.tryCatch, ExceptT.mk, bind,
    StateT.bind]
  rcases m s with ⟨result, s'⟩
  cases result <;> rfl

theorem ends_named (name : String) (s : Session) :
    (named name).ends s =
      match s.value? name with
      | some value => (.ok value, s)
      | none => (.error (.unbound name), s) := by
  unfold named
  rw [ends_bind, ends_get]
  cases found : s.value? name <;> simp only [found] <;> rfl

theorem value?_of_ends_named {name : String} {value : Value} {s s' : Session}
    (ended : (named name).ends s = (.ok value, s')) :
    s.value? name = some value ∧ s' = s := by
  rw [ends_named] at ended
  cases found : s.value? name with
  | none =>
    rw [found] at ended
    cases ended
  | some held =>
    rw [found] at ended
    cases ended
    exact ⟨rfl, rfl⟩

theorem ends_textNamed (name : String) (s : Session) :
    (textNamed name).ends s =
      match s.value? name with
      | some (.text text) => (.ok text, s)
      | _ => (.error (.unbound name), s) := by
  unfold textNamed
  rw [ends_bind, ends_named]
  cases s.value? name with
  | none => rfl
  | some value => cases value <;> rfl

theorem ends_taintNamed (name : String) (s : Session) :
    (taintNamed name).ends s =
      match (s.value? name).bind Value.taint? with
      | some t => (.ok t, s)
      | none => (.error (.unbound name), s) := by
  unfold taintNamed
  rw [ends_bind, ends_named]
  cases s.value? name with
  | none => rfl
  | some value => cases value <;> rfl

/-- How an edit of a named value ends: the name stands for what the edit leaves. -/
theorem ends_keeping_assign {σ : Type} (outcome : Outcome σ) (name : String) (make : σ → Value)
    (s : Session) :
    (keeping outcome fun state => assign name (make state)).ends s =
      (match outcome.fault with
        | none => .ok ()
        | some fault => .error (.fault fault), s.bind name (make outcome.state)) := by
  rcases outcome with ⟨state, _ | fault⟩ <;> rfl

theorem ends_editText (name : String) (edit : Edit Text) (s : Session) :
    (editText name edit).ends s =
      match s.value? name with
      | some (.text text) =>
        (match (edit text).fault with
          | none => .ok ()
          | some fault => .error (.fault fault), s.bind name (.text (edit text).state))
      | _ => (.error (.unbound name), s) := by
  unfold editText
  rw [ends_bind, ends_textNamed]
  cases s.value? name with
  | none => rfl
  | some value =>
    cases value with
    | text text => exact ends_keeping_assign ..
    | chain _ | range _ | taint _ => rfl

theorem ends_editTaint (name : String) (edit : Edit Taint) (s : Session) :
    (editTaint name edit).ends s =
      match s.value? name with
      | some (.taint t) =>
        (match (edit t).fault with
          | none => .ok ()
          | some fault => .error (.fault fault), s.bind name (.taint (edit t).state))
      | some (.text text) =>
        (match (edit text.taint).fault with
          | none => .ok ()
          | some fault => .error (.fault fault),
          s.bind name (.text (text.withTaint (edit text.taint).state)))
      | _ => (.error (.unbound name), s) := by
  unfold editTaint
  rw [ends_bind, ends_named]
  cases s.value? name with
  | none => rfl
  | some value =>
    cases value with
    | taint _ | text _ => exact ends_keeping_assign ..
    | chain _ | range _ => rfl

theorem ends_editRecorded (name : String) (edit : Edit (Text × Recorder)) (s : Session) :
    (editRecorded name edit).ends s =
      match s.value? name with
      | some (.text text) =>
        (match (edit (text, s.recorder)).fault with
          | none => .ok ()
          | some fault => .error (.fault fault),
          { s with recorder := (edit (text, s.recorder)).state.2 }.bind name
            (.text (edit (text, s.recorder)).state.1))
      | _ => (.error (.unbound name), s) := by
  unfold editRecorded
  rw [ends_bind, ends_textNamed]
  cases s.value? name with
  | none => rfl
  | some value =>
    cases value with
    | text text =>
      dsimp only
      rw [ends_bind, ends_get]
      dsimp only
      rcases edit (text, s.recorder) with ⟨state, _ | fault⟩ <;> rfl
    | chain _ | range _ | taint _ => rfl

/-! ## Computations that read -/

variable {m : SessionM α}

/-- The computation leaves the values of a session as they are. -/
structure Reads (m : SessionM α) : Prop where
  values : ∀ s : Session, (m.ends s).2.values = s.values

theorem reads_pure (a : α) : Reads (pure a) := ⟨fun _ => rfl⟩

theorem reads_throw (failure : Failure) : Reads (throw failure : SessionM α) := ⟨fun _ => rfl⟩

theorem values_ends_bind {f : α → SessionM β} (second : ∀ a, Reads (f a)) (s : Session) :
    ((m >>= f).ends s).2.values = (m.ends s).2.values := by
  rw [ends_bind]
  rcases m.ends s with ⟨_ | a, s'⟩
  · rfl
  · exact (second a).values s'

theorem reads_bind {f : α → SessionM β} (first : Reads m) (second : ∀ a, Reads (f a)) :
    Reads (m >>= f) :=
  ⟨fun s => (values_ends_bind second s).trans (first.values s)⟩

theorem reads_ofFault (result : Except Fault α) : Reads (ofFault result) := by
  cases result with
  | error fault => exact reads_throw _
  | ok a => exact reads_pure a

theorem reads_recording (use : Recorder → α × Recorder) : Reads (recording use) :=
  ⟨fun _ => rfl⟩

theorem reads_named (name : String) : Reads (named name) := by
  refine ⟨fun s => ?_⟩
  rw [ends_named]
  cases s.value? name <;> rfl

theorem reads_chainNamed (name : String) : Reads (chainNamed name) := by
  refine reads_bind (reads_named name) fun value => ?_
  cases value with
  | chain c => exact reads_pure c
  | range _ | taint _ | text _ => exact reads_throw _

theorem reads_rangeNamed (name : String) : Reads (rangeNamed name) := by
  refine reads_bind (reads_named name) fun value => ?_
  cases value with
  | range r => exact reads_pure r
  | chain _ | taint _ | text _ => exact reads_throw _

theorem reads_taintNamed (name : String) : Reads (taintNamed name) := by
  refine reads_bind (reads_named name) fun value => ?_
  cases value.taint? with
  | none => exact reads_throw _
  | some t => exact reads_pure t

/-- The computation leaves the session as it is, the recorder included. -/
def Still (m : SessionM α) : Prop := ∀ s, (m.ends s).2 = s

theorem Still.eq {a : α} {s s' : Session} (still : Still m) (ended : m.ends s = (.ok a, s')) :
    s' = s := by
  have same := still s
  rw [ended] at same
  exact same

theorem still_pure (a : α) : Still (pure a) := fun _ => rfl

theorem still_throw (failure : Failure) : Still (throw failure : SessionM α) := fun _ => rfl

theorem still_bind {f : α → SessionM β} (first : Still m) (second : ∀ a, Still (f a)) :
    Still (m >>= f) := by
  intro s
  have same := first s
  rw [ends_bind]
  rcases ended : m.ends s with ⟨_ | a, s'⟩
  · rw [ended] at same
    exact same
  · rw [ended] at same
    exact (second a s').trans same

theorem still_named (name : String) : Still (named name) := by
  intro s
  rw [ends_named]
  cases s.value? name <;> rfl

theorem still_chainNamed (name : String) : Still (chainNamed name) := by
  refine still_bind (still_named name) fun value => ?_
  cases value with
  | chain c => exact still_pure c
  | range _ | taint _ | text _ => exact still_throw _

theorem still_rangeNamed (name : String) : Still (rangeNamed name) := by
  refine still_bind (still_named name) fun value => ?_
  cases value with
  | range r => exact still_pure r
  | chain _ | taint _ | text _ => exact still_throw _

theorem still_taintNamed (name : String) : Still (taintNamed name) := by
  refine still_bind (still_named name) fun value => ?_
  cases value.taint? with
  | some t => exact still_pure t
  | none => exact still_throw _

theorem still_textNamed (name : String) : Still (textNamed name) := by
  refine still_bind (still_named name) fun value => ?_
  cases value with
  | text s => exact still_pure s
  | chain _ | range _ | taint _ => exact still_throw _

theorem still_mapM {f : α → SessionM β} (each : ∀ a, Still (f a)) (items : List α) :
    Still (items.mapM f) := by
  induction items with
  | nil => exact still_pure []
  | cons a rest ih =>
    rw [List.mapM_cons]
    exact still_bind (each a) fun b => still_bind ih fun others => still_pure _

/-! ## Rules -/

/-- From a session whose values have the property, the computation leaves a session whose values
have it; and what it results in has the property `Q`. -/
structure Keeps (P : Value → Prop) (m : SessionM α) (Q : α → Prop) : Prop where
  ends : ∀ s : Session, s.Holds P → (m.ends s).2.Holds P ∧ ∀ a, (m.ends s).1 = .ok a → Q a

variable {P : Value → Prop} {Q : α → Prop} {R : β → Prop}

theorem Reads.keeps (reads : Reads m) : Keeps P m fun _ => True := by
  refine ⟨fun s holds => ⟨?_, fun _ _ => trivial⟩⟩
  unfold Session.Holds
  rw [reads.values]
  exact holds

theorem keeps_pure {a : α} (has : Q a) : Keeps P (pure a) Q :=
  ⟨fun _ holds => ⟨holds, fun _ ok => Except.ok.inj ok ▸ has⟩⟩

theorem keeps_throw (failure : Failure) : Keeps P (throw failure) Q :=
  ⟨fun _ holds => ⟨holds, fun _ ok => nomatch ok⟩⟩

theorem keeps_bind {f : α → SessionM β} (first : Keeps P m Q)
    (second : ∀ a, Q a → Keeps P (f a) R) : Keeps P (m >>= f) R := by
  refine ⟨fun s holds => ?_⟩
  rcases first.ends s holds with ⟨holdsFirst, has⟩
  rw [ends_bind]
  rcases ended : m.ends s with ⟨_ | a, s'⟩
  · rw [ended] at holdsFirst
    exact ⟨holdsFirst, fun _ ok => nomatch ok⟩
  · rw [ended] at holdsFirst has
    exact (second a (has a rfl)).ends s' holdsFirst

theorem keeps_ofFault {result : Except Fault α} (each : ∀ a, result = .ok a → Q a) :
    Keeps P (ofFault result) Q := by
  cases result with
  | error fault => exact keeps_throw _
  | ok a => exact keeps_pure (each a rfl)

theorem keeps_recording {use : Recorder → α × Recorder} (each : ∀ recorder, Q (use recorder).1) :
    Keeps P (recording use) Q :=
  ⟨fun s holds => ⟨holds, fun _ ok => Except.ok.inj ok ▸ each s.recorder⟩⟩

theorem keeps_recordingOrFault {use : Recorder → Except Fault (α × Recorder)}
    (each : ∀ recorder a recorder', use recorder = .ok (a, recorder') → Q a) :
    Keeps P (recordingOrFault use) Q := by
  refine ⟨fun s holds => ?_⟩
  rw [ends_recordingOrFault]
  cases used : use s.recorder with
  | error fault => exact ⟨holds, fun _ ok => nomatch ok⟩
  | ok made => exact ⟨holds, fun _ ok => Except.ok.inj ok ▸ each s.recorder made.1 made.2 used⟩

/-- The recorder has no part in what is kept. -/
theorem keeps_leaving {m : SessionM α} (left : Recorder → Recorder) (keeps : Keeps P m Q) :
    Keeps P (leaving left m) Q := by
  refine ⟨fun s holds => ?_⟩
  have ends := keeps.ends s holds
  rw [ends_leaving]
  rcases ended : m.ends s with ⟨_ | a, s'⟩
  · rw [ended] at ends
    exact ⟨ends.1, fun _ ok => nomatch ok⟩
  · rw [ended] at ends
    exact ends

theorem keeps_assign {name : String} {value : Value} (has : P value) :
    Keeps P (assign name value) fun _ => True :=
  ⟨fun _ holds => ⟨holds.bind has, fun _ _ => trivial⟩⟩

theorem keeps_named (name : String) : Keeps P (named name) P := by
  refine ⟨fun s holds => ?_⟩
  rw [ends_named]
  cases found : s.value? name with
  | none => exact ⟨holds, fun _ ok => nomatch ok⟩
  | some value =>
    exact ⟨holds, fun _ ok => Except.ok.inj ok ▸ holds _ (Session.mem_of_value? found)⟩

theorem keeps_chainNamed (name : String) : Keeps P (chainNamed name) fun c => P (.chain c) := by
  refine keeps_bind (keeps_named name) fun value has => ?_
  cases value with
  | chain c => exact keeps_pure has
  | range _ | taint _ | text _ => exact keeps_throw _

theorem keeps_rangeNamed (name : String) : Keeps P (rangeNamed name) fun r => P (.range r) := by
  refine keeps_bind (keeps_named name) fun value has => ?_
  cases value with
  | range r => exact keeps_pure has
  | chain _ | taint _ | text _ => exact keeps_throw _

theorem keeps_taintNamed (name : String) :
    Keeps P (taintNamed name) fun t => ∃ value, value.taint? = some t ∧ P value := by
  refine keeps_bind (keeps_named name) fun value has => ?_
  cases taint : value.taint? with
  | none => exact keeps_throw _
  | some t => exact keeps_pure ⟨value, taint, has⟩

theorem keeps_textNamed (name : String) : Keeps P (textNamed name) fun s => P (.text s) := by
  refine keeps_bind (keeps_named name) fun value has => ?_
  cases value with
  | text s => exact keeps_pure has
  | chain _ | range _ | taint _ => exact keeps_throw _

theorem keeps_keeping {σ : Type} {outcome : Outcome σ} {keep : σ → SessionM Unit}
    (kept : Keeps P (keep outcome.state) fun _ => True) :
    Keeps P (keeping outcome keep) fun _ => True := by
  refine keeps_bind kept fun _ _ => ?_
  cases outcome.fault with
  | none => exact keeps_pure trivial
  | some fault => exact keeps_throw _

theorem keeps_editText {name : String} {edit : Edit Text}
    (each : Edit.Keeps (fun s => P (.text s)) edit) :
    Keeps P (editText name edit) fun _ => True :=
  keeps_bind (keeps_textNamed name) fun s has => keeps_keeping (keeps_assign (each s has))

theorem keeps_editTaint {name : String} {edit : Edit Taint}
    (onTaint : Edit.Keeps (fun t => P (.taint t)) edit)
    (onText : ∀ s, P (.text s) → P (.text (s.withTaint (edit s.taint).state))) :
    Keeps P (editTaint name edit) fun _ => True := by
  refine keeps_bind (keeps_named name) fun value has => ?_
  cases value with
  | taint t => exact keeps_keeping (keeps_assign (onTaint t has))
  | text s => exact keeps_keeping (keeps_assign (onText s has))
  | chain _ | range _ => exact keeps_throw _

theorem keeps_get : Keeps P (get : SessionM Session) fun _ => True :=
  ⟨fun _ holds => ⟨holds, fun _ _ => trivial⟩⟩

theorem keeps_useRecorder (recorder : Recorder) :
    Keeps P (modify ({ · with recorder })) fun _ => True :=
  ⟨fun _ holds => ⟨holds, fun _ _ => trivial⟩⟩

theorem keeps_editRecorded {name : String} {edit : Edit (Text × Recorder)}
    (each : Edit.Keeps (fun state => P (.text state.1)) edit) :
    Keeps P (editRecorded name edit) fun _ => True := by
  refine keeps_bind (keeps_textNamed name) fun s has => ?_
  refine keeps_bind keeps_get fun session _ => ?_
  exact keeps_keeping (keeps_bind (keeps_useRecorder _) fun _ _ =>
    keeps_assign (each (s, session.recorder) has))

theorem keeps_times {action : SessionM Unit} (each : Keeps P action fun _ => True)
    (count : Nat) : Keeps P (times count action) fun _ => True := by
  induction count with
  | zero => exact keeps_pure trivial
  | succ count ih => exact keeps_bind each fun _ _ => ih

theorem keeps_mapM {items : List β} {f : β → SessionM α}
    (each : ∀ b ∈ items, Keeps P (f b) Q) :
    Keeps P (items.mapM f) fun images => ∀ a ∈ images, Q a := by
  induction items with
  | nil => exact keeps_pure (by simp)
  | cons b rest ih =>
    rw [List.mapM_cons]
    refine keeps_bind (each b (by simp)) fun a has => ?_
    refine keeps_bind (ih fun b mem => each b (by simp [mem])) fun others haveOthers => ?_
    exact keeps_pure (by simpa using ⟨has, haveOthers⟩)

theorem keeps_forM {items : List β} {f : β → SessionM Unit}
    (each : ∀ b ∈ items, Keeps P (f b) fun _ => True) :
    Keeps P (items.forM f) fun _ => True := by
  induction items with
  | nil => exact keeps_pure trivial
  | cons b rest ih =>
    exact keeps_bind (each b (by simp)) fun _ _ => ih fun b mem => each b (by simp [mem])

theorem keeps_weaken {Q' : α → Prop} (keeps : Keeps P m Q) (weaker : ∀ a, Q a → Q' a) :
    Keeps P m Q' :=
  ⟨fun s holds =>
    ⟨(keeps.ends s holds).1, fun a ok => weaker a ((keeps.ends s holds).2 a ok)⟩⟩

end SessionM

namespace Session

open SessionM

variable {P : Value → Prop} {s : Session} {name : String} {value : Value} {t : Taint}

/-- The change is made to the taint of the value, with the numbers from the next one on. -/
theorem ends_applyTaintChange (found : s.value? name = some value) (tainted : value.taint? = some t)
    (change : Taint.Change) :
    (applyTaintChange name change).ends s =
      (match (change.edit s.recorder.nextSerial t).fault with
        | none => .ok ()
        | some fault => .error (.fault fault),
        { s with recorder := s.recorder.advance (change.serials t) }.bind name
          (value.withTaint (change.edit s.recorder.nextSerial t).state)) := by
  have named : (s.value? name).bind Value.taint? = some t := by
    rw [found]
    exact tainted
  have kept : value? { s with recorder := s.recorder.advance (change.serials t) } name =
    some value := found
  unfold applyTaintChange
  rw [ends_bind, ends_taintNamed, named]
  dsimp only
  rw [ends_bind, ends_recording]
  dsimp only
  rw [ends_editTaint, kept]
  cases value with
  | taint _ | text _ =>
    cases tainted
    rfl
  | chain _ | range _ => cases tainted

theorem ends_applyTaintChange_of_none
    (missing : (s.value? name).bind Value.taint? = none) (change : Taint.Change) :
    (applyTaintChange name change).ends s = (.error (.unbound name), s) := by
  unfold applyTaintChange
  rw [ends_bind, ends_taintNamed, missing]

theorem keeps_nameParts {target : String} {parts : List Text} (each : ∀ s ∈ parts, P (.text s))
    (index : Nat) : Keeps P (nameParts target index parts) fun _ => True := by
  induction parts generalizing index with
  | nil => exact keeps_pure trivial
  | cons part rest ih =>
    exact keeps_bind (keeps_assign (each part (by simp))) fun _ _ =>
      ih (fun s mem => each s (by simp [mem])) (index + 1)

/-- A property that every command keeps holds after any commands. -/
theorem Holds.after {s : Session} {commands : List Command} (holds : s.Holds P)
    (each : ∀ command ∈ commands, Keeps P command.run fun _ => True) :
    (s.after commands).Holds P := by
  induction commands generalizing s with
  | nil => exact holds
  | cons command rest ih =>
    exact ih ((each command (by simp)).ends s holds).1 fun c mem => each c (by simp [mem])

end Session

end TextProvenance
