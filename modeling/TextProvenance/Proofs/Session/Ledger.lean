import TextProvenance.Proofs.Session.Keeps
import TextProvenance.Proofs.Text.Under

/-!
# Sessions with a ledger

A ledger covers a session (`Ledger.Covers`) if it lists the chains of all its values, and goes on
where the recorder does.  `SessionM.Records` says of a computation that the ledger can be written on
so that it covers the session that the computation leaves, and lists the chains of its result; and
that the computation sets no names but some.  The rules below have the shape of those of
`SessionM.Keeps`; the chains that a computation may use are those of the session, and those of the
results in front of it.
-/

namespace TextProvenance

/-- The chains of all values, also of those that others hide. -/
def Session.chains (s : Session) : List Chain := s.values.flatMap (·.2.chains)

/-- The ledger lists the chains of the session, and goes on where its recorder does. -/
structure Ledger.Covers (L : Ledger) (s : Session) : Prop where
  nextSerial : L.nextSerial = s.recorder.nextSerial
  lists : ∀ c ∈ s.chains, L.Lists c

namespace Session

variable {s : Session} {name other : String} {value : Value} {c : Chain}

theorem mem_chains_of_value? (found : s.value? name = some value) (mem : c ∈ value.chains) :
    c ∈ s.chains :=
  List.mem_flatMap.mpr ⟨(name, value), mem_of_value? found, mem⟩

theorem chains_unbind_subset (s : Session) (name : String) : (s.unbind name).chains ⊆ s.chains := by
  intro c mem
  obtain ⟨named, memValues, memChains⟩ := List.mem_flatMap.mp mem
  exact List.mem_flatMap.mpr ⟨named, (List.mem_filter.mp memValues).1, memChains⟩

theorem value?_bind_of_ne (s : Session) (value : Value) (differs : other ≠ name) :
    (s.bind name value).value? other = s.value? other := by
  have apart : (other == name) = false := beq_false_of_ne differs
  rw [value?, bind, List.lookup_cons, apart]
  rfl

theorem value?_unbind_of_ne (s : Session) (differs : other ≠ name) :
    (s.unbind name).value? other = s.value? other := by
  unfold value? unbind
  generalize s.values = values
  induction values with
  | nil => rfl
  | cons named rest ih =>
    by_cases same : named.1 = name
    · have apart : (other == named.1) = false := beq_false_of_ne (same ▸ differs)
      rw [List.filter_cons_of_neg (by simpa using same), List.lookup_cons, apart, ih]
    · rw [List.filter_cons_of_pos (by simpa using same), List.lookup_cons, List.lookup_cons, ih]

end Session

namespace SessionM

variable {α β : Type} {m : SessionM α} {sets : String → Prop} {pre : List Chain}
  {mid : α → List Chain} {post : β → List Chain} {name : String} {L : Ledger} {s : Session}

/-- The chains of a result; a failure has none. -/
def chainsOf (post : α → List Chain) : Except Failure α → List Chain
  | .ok a => post a
  | .error _ => []

theorem chainsOf_nil (result : Except Failure α) : chainsOf (fun _ => []) result = [] := by
  cases result <;> rfl

/-- With a ledger that covers the session and lists the chains `pre`, the computation leads to a
session and a result for which the ledger can be written on; and the names that it does not set
stand for what they stood for. -/
structure Records (sets : String → Prop) (pre : List Chain) (m : SessionM α)
    (post : α → List Chain) : Prop where
  continues : ∀ (s : Session) (L : Ledger), L.Covers s → (∀ c ∈ pre, L.Lists c) →
    L.Continues (m.ends s).2.recorder.nextSerial
      ((m.ends s).2.chains ++ chainsOf post (m.ends s).1)
  frame : ∀ (s : Session) name, ¬ sets name → (m.ends s).2.value? name = s.value? name

/-! ## Rules -/

/-- A ledger that covers a session need not be written on. -/
theorem continues_of_covers (covers : L.Covers s) :
    L.Continues s.recorder.nextSerial (s.chains ++ []) := by
  rw [List.append_nil, ← covers.nextSerial]
  exact Ledger.continues_self covers.lists

/-- After a name is given to a value, the chains of the value are listed in addition. -/
theorem continues_bind {value : Value} {next : Nat} (covers : L.Covers s)
    (continues : L.Continues next value.chains) :
    L.Continues next ((s.bind name value).chains ++ []) := by
  rw [List.append_nil]
  exact continues.with_listed covers.lists

/-- A computation that leaves the session as it is. -/
theorem records_of_still {post : α → List Chain} (still : Still m)
    (each : ∀ s a, m.ends s = (.ok a, s) → post a ⊆ pre ++ s.chains) :
    Records sets pre m post := by
  refine ⟨fun s L covers listed => ?_, fun s name _ => by rw [still s]⟩
  rw [still s, ← covers.nextSerial]
  refine Ledger.continues_self fun c mem => ?_
  rcases List.mem_append.mp mem with mem | mem
  · exact covers.lists c mem
  · cases ended : (m.ends s).1 with
    | error failure =>
      rw [ended] at mem
      cases mem
    | ok a =>
      rw [ended] at mem
      rcases List.mem_append.mp (each s a (Prod.ext ended (still s)) mem) with mem | mem
      · exact listed c mem
      · exact covers.lists c mem

theorem records_pure {a : β} (sub : post a ⊆ pre) : Records sets pre (pure a) post := by
  refine records_of_still (fun _ => rfl) fun s a' ok => ?_
  cases ok
  exact List.subset_append_of_subset_left _ sub

theorem records_throw (failure : Failure) : Records sets pre (throw failure) post :=
  records_of_still (fun _ => rfl) fun _ _ ok => nomatch ok

theorem records_bind {f : α → SessionM β} (first : Records sets pre m mid)
    (second : ∀ a, Records sets (mid a ++ pre) (f a) post) : Records sets pre (m >>= f) post := by
  constructor
  · intro s L covers listed
    have continues := first.continues s L covers listed
    rw [ends_bind]
    rcases ended : m.ends s with ⟨_ | a, s'⟩
    · rw [ended] at continues
      exact continues
    · rw [ended] at continues
      refine continues.bind fun L' same keeps listed' => ?_
      refine (second a).continues s' L' ⟨same, fun c mem => listed' c ?_⟩ fun c mem => ?_
      · exact List.mem_append_left _ mem
      · rcases List.mem_append.mp mem with mem | mem
        · exact listed' c (List.mem_append_right _ mem)
        · exact keeps c (listed c mem)
  · intro s name unset
    have frame := first.frame s name unset
    rw [ends_bind]
    rcases ended : m.ends s with ⟨_ | a, s'⟩
    · rw [ended] at frame
      exact frame
    · rw [ended] at frame
      exact ((second a).frame s' name unset).trans frame

theorem records_ofFault {result : Except Fault β}
    (each : ∀ a, result = .ok a → post a ⊆ pre) : Records sets pre (ofFault result) post := by
  cases result with
  | error fault => exact records_throw _
  | ok a => exact records_pure (each a rfl)

theorem records_recordingOrFault {use : Recorder → Except Fault (β × Recorder)}
    (each : ∀ (L : Ledger) recorder a recorder', L.nextSerial = recorder.nextSerial →
      (∀ c ∈ pre, L.Lists c) → use recorder = .ok (a, recorder') →
      L.Continues recorder'.nextSerial (post a)) :
    Records sets pre (recordingOrFault use) post := by
  constructor
  · intro s L covers listed
    rw [ends_recordingOrFault]
    cases used : use s.recorder with
    | error fault => exact continues_of_covers covers
    | ok made =>
      have continues := each L s.recorder made.1 made.2 covers.nextSerial listed used
      refine (continues.with_listed covers.lists).mono fun c mem => ?_
      exact List.mem_append.mpr (List.mem_append.mp mem).symm
  · intro s name _
    rw [ends_recordingOrFault]
    cases use s.recorder <;> rfl

/-- Numbers that are used up by what fails are left out. -/
theorem records_leaving {n : SessionM β} {left : Recorder → Recorder}
    (later : ∀ recorder, recorder.nextSerial ≤ (left recorder).nextSerial)
    (records : Records sets pre n post) : Records sets pre (leaving left n) post := by
  constructor
  · intro s L covers listed
    have continues := records.continues s L covers listed
    rw [ends_leaving]
    rcases ended : n.ends s with ⟨_ | a, s'⟩
    · rw [ended] at continues
      exact continues.skip (later s'.recorder)
    · rw [ended] at continues
      exact continues
  · intro s name unset
    have frame := records.frame s name unset
    rw [ends_leaving]
    rcases ended : n.ends s with ⟨_ | a, s'⟩
    · rw [ended] at frame
      exact frame
    · rw [ended] at frame
      exact frame

theorem records_recording {use : Recorder → β × Recorder}
    (each : ∀ (L : Ledger) recorder, L.nextSerial = recorder.nextSerial →
      (∀ c ∈ pre, L.Lists c) → L.Continues (use recorder).2.nextSerial (post (use recorder).1)) :
    Records sets pre (recording use) post := by
  refine ⟨fun s L covers listed => ?_, fun s name _ => rfl⟩
  have continues := each L s.recorder covers.nextSerial listed
  refine (continues.with_listed covers.lists).mono fun c mem => ?_
  exact List.mem_append.mpr (List.mem_append.mp mem).symm

theorem records_assign {value : Value} (set : sets name) (sub : value.chains ⊆ pre) :
    Records sets pre (assign name value) fun _ => [] := by
  refine ⟨fun s L covers listed => ?_, fun s other unset => ?_⟩
  · have continues := Ledger.continues_self fun c mem => listed c (sub mem)
    rw [covers.nextSerial] at continues
    exact continues_bind covers continues
  · exact Session.value?_bind_of_ne s value fun same => unset (same ▸ set)

theorem records_unbind (set : sets name) :
    Records sets pre (modify (·.unbind name)) fun _ => [] := by
  refine ⟨fun s L covers listed => ?_, fun s other unset => ?_⟩
  · refine (continues_of_covers covers).mono ?_
    exact List.append_subset.mpr
      ⟨List.subset_append_of_subset_left _ (s.chains_unbind_subset name), List.nil_subset _⟩
  · exact Session.value?_unbind_of_ne s fun same => unset (same ▸ set)

theorem records_named (name : String) : Records sets pre (named name) Value.chains :=
  records_of_still (still_named name) fun _ _ ended _ mem =>
    List.mem_append_right _ (Session.mem_chains_of_value? (value?_of_ends_named ended).1 mem)

theorem records_chainNamed (name : String) :
    Records sets pre (chainNamed name) fun c => [c] := by
  refine records_bind (records_named name) fun value => ?_
  cases value with
  | chain c => exact records_pure (List.subset_append_left ..)
  | range _ | taint _ | text _ => exact records_throw _

theorem records_rangeNamed (name : String) :
    Records sets pre (rangeNamed name) fun r => [r.chain] := by
  refine records_bind (records_named name) fun value => ?_
  cases value with
  | range r => exact records_pure (List.subset_append_left ..)
  | chain _ | taint _ | text _ => exact records_throw _

theorem records_taintNamed (name : String) : Records sets pre (taintNamed name) Taint.chains := by
  refine records_bind (records_named name) fun value => ?_
  cases value with
  | taint t => exact records_pure (List.subset_append_left ..)
  | text s => exact records_pure (List.subset_append_left ..)
  | chain _ | range _ => exact records_throw _

theorem records_textNamed (name : String) :
    Records sets pre (textNamed name) fun s => s.taint.chains := by
  refine records_bind (records_named name) fun value => ?_
  cases value with
  | text s => exact records_pure (List.subset_append_left ..)
  | chain _ | range _ | taint _ => exact records_throw _

/-- An edit of a text whose result is under the chains of the text and of its operands. -/
theorem records_editText {edit : Edit Text} (set : sets name)
    (each : ∀ P : Chain → Prop, (∀ c ∈ pre, P c) → Edit.Keeps (Text.Under P) edit) :
    Records sets pre (editText name edit) fun _ => [] := by
  refine records_bind (records_textNamed name) fun s => records_bind (records_assign set ?_) ?_
  · have under := each (· ∈ s.taint.chains ++ pre) (fun c mem => List.mem_append_right _ mem) s
      (Taint.under_iff.mpr fun c mem => List.mem_append_left _ mem)
    exact Taint.under_iff.mp under
  · intro _
    cases (edit s).fault with
    | none => exact records_pure (List.nil_subset _)
    | some fault => exact records_throw _

theorem records_editRecorded {edit : Edit (Text × Recorder)} (set : sets name)
    (each : ∀ (L : Ledger) text recorder, L.nextSerial = recorder.nextSerial →
      text.Under L.Lists → (∀ c ∈ pre, L.Lists c) →
      Text.Continued L (edit (text, recorder)).state) :
    Records sets pre (editRecorded name edit) fun _ => [] := by
  constructor
  · intro s L covers listed
    rw [ends_editRecorded, chainsOf_nil]
    cases found : s.value? name with
    | none => exact continues_of_covers covers
    | some value =>
      cases value with
      | text text =>
        have under := Taint.under_iff.mpr fun c mem =>
          covers.lists c (Session.mem_chains_of_value? found mem)
        exact continues_bind (s := s) covers
          (each L text s.recorder covers.nextSerial under listed)
      | chain _ | range _ | taint _ => exact continues_of_covers covers
  · intro s other unset
    rw [ends_editRecorded]
    cases s.value? name with
    | none => rfl
    | some value =>
      cases value with
      | text text =>
        exact Session.value?_bind_of_ne { s with recorder := _ } _ fun same =>
          unset (same ▸ set)
      | chain _ | range _ | taint _ => rfl

/-! ## Repetition -/

theorem records_times {action : SessionM Unit} (each : Records sets pre action fun _ => [])
    (count : Nat) : Records sets pre (times count action) fun _ => [] := by
  induction count with
  | zero => exact records_pure (List.nil_subset _)
  | succ count ih => exact records_bind each fun _ => ih

theorem records_mapM {items : List α} {f : α → SessionM β}
    (each : ∀ a ∈ items, ∀ pre, Records sets pre (f a) post) :
    Records sets pre (items.mapM f) (·.flatMap post) := by
  induction items generalizing pre with
  | nil => exact records_pure (List.nil_subset _)
  | cons a rest ih =>
    rw [List.mapM_cons]
    refine records_bind (each a (by simp) pre) fun b => ?_
    refine records_bind (ih fun a mem => each a (by simp [mem])) fun others => ?_
    refine records_pure fun c mem => ?_
    rcases List.mem_append.mp mem with mem | mem
    · exact List.mem_append_right _ (List.mem_append_left _ mem)
    · exact List.mem_append_left _ mem

theorem records_forM {items : List α} {f : α → SessionM Unit}
    (each : ∀ a ∈ items, Records sets pre (f a) fun _ => []) :
    Records sets pre (items.forM f) fun _ => [] := by
  induction items with
  | nil => exact records_pure (List.nil_subset _)
  | cons a rest ih =>
    exact records_bind (each a (by simp)) fun _ => ih fun a mem => each a (by simp [mem])

end SessionM

end TextProvenance
