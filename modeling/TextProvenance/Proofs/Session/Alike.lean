import TextProvenance.Proofs.Agree
import TextProvenance.Proofs.Session.Keeps
import TextProvenance.Proofs.Text.Alike

/-!
# Sessions with texts of the same origin

Sessions are alike (`Session.Alike`) if the same names stand for values that are alike; their
recorders may be any.  Two computations agree (`SessionM.Agree`) if from sessions that are alike
they fail together, leave sessions that are alike, and result in what is related.  The rules below
have the shape of those of `SessionM.Keeps`.
-/

namespace TextProvenance

/-- Texts and taint are alike, and everything else is the same. -/
inductive Value.Alike : Value → Value → Prop
  | chain (c : Chain) : Alike (.chain c) (.chain c)
  | range (r : Range) : Alike (.range r) (.range r)
  | taint {t t' : Taint} (alike : t.Alike t') : Alike (.taint t) (.taint t')
  | text {s s' : Text} (alike : s.Alike s') : Alike (.text s) (.text s')

/-- The same name, for values that are alike. -/
def Session.NamedAlike (named named' : String × Value) : Prop :=
  named.1 = named'.1 ∧ named.2.Alike named'.2

namespace Session

/-- The same names stand for values that are alike, also where they are hidden. -/
def Alike (s s' : Session) : Prop := List.Forall₂ NamedAlike s.values s'.values

variable {s s' : Session} {value value' : Value}

theorem Alike.bind (alike : s.Alike s') (name : String) (alikeValues : value.Alike value') :
    (s.bind name value).Alike (s'.bind name value') :=
  .cons ⟨rfl, alikeValues⟩ alike

theorem Alike.value? (alike : s.Alike s') (name : String) :
    Option.Rel Value.Alike (s.value? name) (s'.value? name) := by
  unfold Session.value?
  unfold Alike at alike
  generalize s.values = values at alike ⊢
  generalize s'.values = values' at alike ⊢
  induction alike with
  | nil => exact .none
  | @cons named named' rest rest' first _ ih =>
    rcases first with ⟨sameName, alikeValues⟩
    rw [List.lookup_cons, List.lookup_cons, ← sameName]
    split
    · exact .some alikeValues
    · exact ih

theorem Alike.unbind (alike : s.Alike s') (name : String) :
    (s.unbind name).Alike (s'.unbind name) := by
  unfold Alike Session.unbind at *
  generalize s.values = values at alike ⊢
  generalize s'.values = values' at alike ⊢
  induction alike with
  | nil => exact .nil
  | @cons named named' rest rest' first _ ih =>
    simp only [List.filter_cons, first.1]
    split
    · exact .cons first ih
    · exact ih

end Session

namespace SessionM

variable {α α' β β' : Type} {Q : α → α' → Prop} {R : β → β' → Prop}

/-- From sessions that are alike the computations fail together, or result in what is related; and
the sessions that they leave are alike in any case. -/
structure Agree (m : SessionM α) (m' : SessionM α') (Q : α → α' → Prop) : Prop where
  ends : ∀ s s' : Session, s.Alike s' →
    (m.ends s).2.Alike (m'.ends s').2 ∧ Together Q (m.ends s).1 (m'.ends s').1

variable {m : SessionM α} {m' : SessionM α'}

theorem agree_pure {a : α} {a' : α'} (related : Q a a') : Agree (pure a) (pure a') Q :=
  ⟨fun _ _ alike => ⟨alike, .ok related⟩⟩

theorem agree_throw (failure failure' : Failure) :
    Agree (throw failure : SessionM α) (throw failure' : SessionM α') Q :=
  ⟨fun _ _ alike => ⟨alike, .error failure failure'⟩⟩

theorem agree_bind {f : α → SessionM β} {f' : α' → SessionM β'} (first : Agree m m' Q)
    (second : ∀ a a', Q a a' → Agree (f a) (f' a') R) : Agree (m >>= f) (m' >>= f') R := by
  refine ⟨fun s s' alike => ?_⟩
  rcases first.ends s s' alike with ⟨alikeMiddle, together⟩
  rw [ends_bind, ends_bind]
  rcases ended : m.ends s with ⟨result, t⟩
  rcases ended' : m'.ends s' with ⟨result', t'⟩
  rw [ended, ended'] at alikeMiddle together
  cases together with
  | ok related => exact (second _ _ related).ends t t' alikeMiddle
  | error failure failure' => exact ⟨alikeMiddle, .error failure failure'⟩

theorem agree_ofFault {result : Except Fault α} {result' : Except Fault α'}
    (together : Together Q result result') : Agree (ofFault result) (ofFault result') Q := by
  cases together with
  | ok related => exact agree_pure related
  | error fault fault' => exact agree_throw _ _

theorem agree_recording {use : Recorder → α × Recorder} {use' : Recorder → α' × Recorder}
    (each : ∀ recorder recorder', Q (use recorder).1 (use' recorder').1) :
    Agree (recording use) (recording use') Q :=
  ⟨fun s s' alike => ⟨alike, .ok (each s.recorder s'.recorder)⟩⟩

theorem agree_recordingOrFault {use : Recorder → Except Fault (α × Recorder)}
    {use' : Recorder → Except Fault (α' × Recorder)}
    (each : ∀ recorder recorder',
      Together (fun made made' => Q made.1 made'.1) (use recorder) (use' recorder')) :
    Agree (recordingOrFault use) (recordingOrFault use') Q := by
  refine ⟨fun s s' alike => ?_⟩
  have together := each s.recorder s'.recorder
  rw [ends_recordingOrFault, ends_recordingOrFault]
  generalize use s.recorder = made at together ⊢
  generalize use' s'.recorder = made' at together ⊢
  cases together with
  | ok related => exact ⟨alike, .ok related⟩
  | error fault fault' => exact ⟨alike, .error _ _⟩

/-- Sessions are alike whatever their recorders are. -/
theorem agree_leaving {left left' : Recorder → Recorder} (agree : Agree m m' Q) :
    Agree (leaving left m) (leaving left' m') Q := by
  refine ⟨fun s s' alike => ?_⟩
  rcases agree.ends s s' alike with ⟨alikeAfter, together⟩
  rw [ends_leaving, ends_leaving]
  rcases ended : m.ends s with ⟨result, t⟩
  rcases ended' : m'.ends s' with ⟨result', t'⟩
  rw [ended, ended'] at alikeAfter together
  cases together with
  | ok related => exact ⟨alikeAfter, .ok related⟩
  | error failure failure' => exact ⟨alikeAfter, .error failure failure'⟩

theorem agree_get : Agree (get : SessionM Session) (get : SessionM Session) fun _ _ => True :=
  ⟨fun _ _ alike => ⟨alike, .ok trivial⟩⟩

theorem agree_useRecorder (recorder recorder' : Recorder) :
    Agree (modify ({ · with recorder }) : SessionM Unit)
      (modify ({ · with recorder := recorder' }) : SessionM Unit) fun _ _ => True :=
  ⟨fun _ _ alike => ⟨alike, .ok trivial⟩⟩

theorem agree_assign (name : String) {value value' : Value} (alikeValues : value.Alike value') :
    Agree (assign name value) (assign name value') fun _ _ => True :=
  ⟨fun _ _ alike => ⟨alike.bind name alikeValues, .ok trivial⟩⟩

theorem agree_named (name : String) : Agree (named name) (named name) Value.Alike := by
  refine ⟨fun s s' alike => ?_⟩
  have found := alike.value? name
  rw [ends_named, ends_named]
  generalize s.value? name = value? at found ⊢
  generalize s'.value? name = value?' at found ⊢
  cases found with
  | some alikeValues => exact ⟨alike, .ok alikeValues⟩
  | none => exact ⟨alike, .error _ _⟩

theorem agree_textNamed (name : String) : Agree (textNamed name) (textNamed name) Text.Alike := by
  refine agree_bind (agree_named name) fun value value' alikeValues => ?_
  cases alikeValues with
  | text alike => exact agree_pure alike
  | chain _ | range _ | taint _ => exact agree_throw _ _

theorem agree_taintNamed (name : String) :
    Agree (taintNamed name) (taintNamed name) Taint.Alike := by
  refine agree_bind (agree_named name) fun value value' alikeValues => ?_
  cases alikeValues with
  | taint alike => exact agree_pure alike
  | text alike => exact agree_pure alike.taint
  | chain _ | range _ => exact agree_throw _ _

theorem agree_keeping {σ σ' : Type} {S : σ → σ' → Prop} {outcome : Outcome σ}
    {outcome' : Outcome σ'} {keep : σ → SessionM Unit} {keep' : σ' → SessionM Unit}
    (agree : Outcome.Agree S outcome outcome')
    (kept : ∀ state state', S state state' → Agree (keep state) (keep' state') fun _ _ => True) :
    Agree (keeping outcome keep) (keeping outcome' keep') fun _ _ => True := by
  rcases agree with ⟨states, faults⟩
  refine agree_bind (kept _ _ states) fun _ _ _ => ?_
  rcases outcome with ⟨_, _ | fault⟩
  · rcases outcome' with ⟨_, _ | fault'⟩
    · exact agree_pure trivial
    · cases faults
  · rcases outcome' with ⟨_, _ | fault'⟩
    · cases faults
    · exact agree_throw _ _

theorem agree_editText (name : String) {edit edit' : Edit Text}
    (agree : Edit.Agree Text.Alike edit edit') :
    Agree (editText name edit) (editText name edit') fun _ _ => True :=
  agree_bind (agree_textNamed name) fun s s' alike =>
    agree_keeping (agree s s' alike) fun _ _ alike => agree_assign name (.text alike)

theorem agree_editRecorded (name : String) {edit edit' : Edit (Text × Recorder)}
    (agree : Edit.Agree (fun state state' => state.1.Alike state'.1) edit edit') :
    Agree (editRecorded name edit) (editRecorded name edit') fun _ _ => True := by
  refine agree_bind (agree_textNamed name) fun s s' alike => ?_
  refine agree_bind agree_get fun session session' _ => ?_
  apply agree_keeping (agree (s, session.recorder) (s', session'.recorder) alike)
  rintro ⟨t, recorder⟩ ⟨t', recorder'⟩ alike
  exact agree_bind (agree_useRecorder recorder recorder') fun _ _ _ =>
    agree_assign name (.text alike)

theorem agree_mapM {items : List β} {f : β → SessionM α} {f' : β → SessionM α'}
    (each : ∀ b, Agree (f b) (f' b) Q) :
    Agree (items.mapM f) (items.mapM f') (List.Forall₂ Q) := by
  induction items with
  | nil => exact agree_pure .nil
  | cons b rest ih =>
    rw [List.mapM_cons, List.mapM_cons]
    refine agree_bind (each b) fun a a' related => ?_
    refine agree_bind ih fun others others' all => ?_
    exact agree_pure (.cons related all)

/-- Names are given to values one after the other. -/
theorem agree_assignAll {names : List String} {texts texts' : List Text}
    (all : List.Forall₂ Text.Alike texts texts') :
    Agree ((names.zip texts).forM fun (name, s) => assign name (.text s))
      ((names.zip texts').forM fun (name, s) => assign name (.text s)) fun _ _ => True := by
  induction all generalizing names with
  | nil =>
    rw [List.zip_nil_right]
    exact agree_pure trivial
  | cons alike _ ih =>
    cases names with
    | nil => exact agree_pure trivial
    | cons name rest =>
      exact agree_bind (agree_assign name (.text alike)) fun _ _ _ => ih

end SessionM

end TextProvenance
