import Mathlib.Data.Set.Function
import TextProvenance.Proofs.Session.Ledger
import TextProvenance.Proofs.Taint.Canonical

/-!
# Extended taint

Extending the chains of taint leaves its ranges where they are, and ranges share their new chains as
they shared the old ones (`Taint.Extends`).  A copy that is built anew from the extended ranges has
all of them, since there is nothing to join.

One pass with a memo extends chains as they come; the memo tells chains apart by their heads.  In
front of every range it knows the chains of the ranges that are done, and no others
(`Taint.Memo.Knows`).

`Taint.extension_keeps_sharing` has both ways of extending, in place and in a copy.
-/

namespace TextProvenance

/-- Where a range starts and where it stops. -/
def Range.bounds (r : Range) : Nat × Nat := (r.start, r.stop)

/-- The chain with another number for its head. -/
def Chain.renumbered (rename : Nat → Nat) (c : Chain) : Chain :=
  ⟨⟨rename c.serial, c.operation⟩, c.older⟩

namespace Taint

variable {t : Taint} {L : Ledger} {operation : Operation} {serial number : Nat} {memo : Memo}
  {chains done : List Chain} {ranges : List Range} {c : Chain}

/-- The numbers of the heads of the ranges, in order. -/
def heads (t : Taint) : List Nat := t.chains.map Chain.serial

/-! ## Layout and sharing -/

/-- `t'` is `t` with an operation on top of every chain: the ranges are where they were, the parent
of each head is the old head, and two ranges share their chain exactly if they did before. -/
structure Extends (operation : Operation) (t t' : Taint) : Prop where
  wellFormed : t'.WellFormed
  bounds : t'.ranges.map Range.bounds = t.ranges.map Range.bounds
  operation : ∀ c ∈ t'.chains, c.operation = operation
  parents : t'.chains.map Chain.parent? = t.chains.map some
  sharing : ∀ i j : Nat, t'.chains[i]? = t'.chains[j]? ↔ t.chains[i]? = t.chains[j]?

/-- The operation is on top of the chains under heads that the ledger does not list, and one head is
on top of one old head. -/
structure NewlyExtends (L : Ledger) (operation : Operation) (t t' : Taint) : Prop extends
    Extends operation t t' where
  heads : ∀ i j : Nat, t'.heads[i]? = t'.heads[j]? ↔ t.heads[i]? = t.heads[j]?
  new : ∀ c ∈ t'.chains, ∀ d, L.Lists d → c.serial ≠ d.serial

theorem chains_extend (t : Taint) (operation : Operation) (serial : Nat) :
    (t.extend operation serial).chains =
      t.chains.map fun c => c.extend operation (serial + t.chains.idxOf c) := by
  rw [Taint.chains, ranges_extend, List.map_map, Taint.chains, List.map_map]
  exact List.map_congr_left fun r mem => follow_of_mem operation serial mem

/-- Items of a list that two functions tell apart in the same way are at the same places the same
for both. -/
theorem getElem?_map_eq_iff {α β γ : Type} {f : α → β} {g : α → γ} {items : List α}
    (same : ∀ a ∈ items, ∀ b ∈ items, f a = f b ↔ g a = g b) (i j : Nat) :
    (items.map f)[i]? = (items.map f)[j]? ↔ (items.map g)[i]? = (items.map g)[j]? := by
  simp only [List.getElem?_map]
  cases first : items[i]? with
  | none => cases items[j]? <;> simp
  | some a =>
    cases second : items[j]? with
    | none => simp
    | some b =>
      simpa using same a (List.mem_of_getElem? first) b (List.mem_of_getElem? second)

theorem extends_extend (wf : t.WellFormed) (operation : Operation) (serial : Nat) :
    Extends operation t (t.extend operation serial) := by
  have chains := chains_extend t operation serial
  refine ⟨extend_wellFormed wf, ?_, fun c mem => ?_, ?_, fun i j => ?_⟩
  · rw [ranges_extend, List.map_map]
    rfl
  · rw [chains] at mem
    obtain ⟨d, -, rfl⟩ := List.mem_map.mp mem
    rfl
  · rw [chains, List.map_map]
    rfl
  · have injective : ∀ c ∈ t.chains, ∀ d ∈ t.chains,
        c.extend operation (serial + t.chains.idxOf c) =
          d.extend operation (serial + t.chains.idxOf d) ↔ id c = id d :=
      fun c _ d _ => ⟨Chain.extend_inj, fun same => by rw [show c = d from same]⟩
    rw [chains, getElem?_map_eq_iff injective, List.map_id]

theorem heads_extend (t : Taint) (operation : Operation) (serial : Nat) :
    (t.extend operation serial).heads = t.chains.map fun c => serial + t.chains.idxOf c := by
  rw [heads, chains_extend, List.map_map]
  rfl

/-- New heads are numbered by the places of the old chains, so they tell these apart. -/
theorem heads_extend_eq_iff (t : Taint) (operation : Operation) (serial i j : Nat) :
    (t.extend operation serial).heads[i]? = (t.extend operation serial).heads[j]? ↔
      t.chains[i]? = t.chains[j]? := by
  have numbered : ∀ c ∈ t.chains, ∀ d ∈ t.chains,
      serial + t.chains.idxOf c = serial + t.chains.idxOf d ↔ id c = id d :=
    fun c memC d _ => ⟨fun same => (List.idxOf_inj memC).mp (Nat.add_left_cancel same),
      fun same => by rw [show c = d from same]⟩
  rw [heads_extend, getElem?_map_eq_iff numbered, List.map_id]

theorem newlyExtends_extend (wf : t.WellFormed) (under : t.Under L.Lists) (operation : Operation)
    (new : L.nextSerial ≤ serial) : NewlyExtends L operation t (t.extend operation serial) := by
  have listed := under_iff.mp under
  refine ⟨extends_extend wf operation serial, fun i j => ?_, fun c mem d listedD => ?_⟩
  · have apart : ∀ c ∈ t.chains, ∀ d ∈ t.chains, c.serial = d.serial ↔ id c = id d :=
      fun c memC d memD => ⟨L.unique c d (listed c memC) (listed d memD), congrArg Chain.serial⟩
    rw [heads_extend_eq_iff, heads, getElem?_map_eq_iff apart, List.map_id]
  · rw [chains_extend] at mem
    obtain ⟨e, -, rfl⟩ := List.mem_map.mp mem
    have before := L.numbered d listedD
    have numbered : (e.extend operation (serial + t.chains.idxOf e)).serial =
        serial + t.chains.idxOf e := rfl
    omega

/-! ## In a copy -/

theorem WellFormed.ofRanges_eq_ok (wf : t.WellFormed) : ofRanges t.ranges = .ok t := by
  have labels : t.HasLabels (labelIn t.ranges) := ⟨wf, wf.chainAt_eq⟩
  exact labels.eq_ok (ofRanges_spec wf.inOrder)

/-- A copy has all the ranges that there are in place. -/
theorem extended_eq_ok (wf : t.WellFormed) (operation : Operation) (serial : Nat) :
    t.extended operation serial = .ok (t.extend operation serial) :=
  (extend_wellFormed wf).ofRanges_eq_ok

/-- Extensions under other numbers have other numbers for their heads, and else are the same. -/
theorem ranges_extend_renumbered (t : Taint) (operation : Operation) (serial serial' : Nat) :
    (t.extend operation serial').ranges = (t.extend operation serial).ranges.map fun x =>
      x.withChain (x.chain.renumbered fun n => n - serial + serial') := by
  rw [ranges_extend, ranges_extend, List.map_map]
  refine List.map_congr_left fun r mem => ?_
  rw [Function.comp_apply, follow_of_mem operation serial mem, follow_of_mem operation serial' mem]
  have number : serial + t.chains.idxOf r.chain - serial + serial' =
      serial' + t.chains.idxOf r.chain := by omega
  simp only [Range.withChain, Chain.renumbered, Chain.extend, Chain.serial, Chain.operation, number]

theorem injOn_heads_extend (t : Taint) (operation : Operation) (serial serial' : Nat) :
    Set.InjOn (fun n => n - serial + serial') {n | n ∈ (t.extend operation serial).heads} := by
  have late : ∀ n ∈ (t.extend operation serial).heads, serial ≤ n := by
    intro n mem
    rw [heads_extend] at mem
    obtain ⟨c, -, rfl⟩ := List.mem_map.mp mem
    exact Nat.le_add_right ..
  intro m memM n memN same
  have := late m memM
  have := late n memN
  simp only at same
  omega

/-! ## With a memo -/

/-- Of some chains, the memo has the extensions of those that are done, each under the number of the
place where the chain comes first. -/
def Memo.Knows (memo : Memo) (operation : Operation) (serial : Nat) (chains done : List Chain) :
    Prop :=
  ∀ c ∈ chains, memo.extensions.lookup c.serial =
    if c ∈ done then some (c.extend operation (serial + chains.idxOf c)) else none

/-- The chain that comes next is extended under the number of its first place, whether the memo
knows it or not, and then the memo knows it. -/
theorem Memo.Knows.extend {rest : List Chain} (knows : memo.Knows operation serial chains done)
    (parts : chains = done ++ c :: rest)
    (apart : ∀ c ∈ chains, ∀ d ∈ chains, c.serial = d.serial → c = d) :
    (memo.extend operation (serial + done.length) c).1 =
        c.extend operation (serial + chains.idxOf c) ∧
      (memo.extend operation (serial + done.length) c).2.Knows operation serial chains
        (done ++ [c]) := by
  have memC : c ∈ chains := by simp [parts]
  unfold Memo.extend
  rw [knows c memC]
  by_cases again : c ∈ done
  · rw [if_pos again]
    refine ⟨rfl, fun d memD => ?_⟩
    have same : d ∈ done ++ [c] ↔ d ∈ done := by
      rw [List.mem_append, List.mem_singleton]
      exact ⟨fun either => either.elim id fun isC => isC ▸ again, .inl⟩
    simp only [knows d memD, same]
  · have place : chains.idxOf c = done.length := by
      rw [parts, List.idxOf_append_of_notMem again, List.idxOf_cons_self, Nat.add_zero]
    rw [if_neg again, place]
    refine ⟨rfl, fun d memD => ?_⟩
    by_cases isC : d = c
    · subst isC
      simp [place]
    · have differs : (d.serial == c.serial) = false :=
        beq_false_of_ne fun same => isC (apart d memD c memC same)
      simp only [List.lookup_cons, differs, knows d memD, List.mem_append, List.mem_singleton,
        isC, or_false]

/-- The pass makes of every range what extending all of them makes of it.  The induction is on the
ranges to come; what the memo knows carries it. -/
theorem memoized_eq (knows : memo.Knows operation serial chains done)
    (parts : chains = done ++ ranges.map Range.chain)
    (apart : ∀ c ∈ chains, ∀ d ∈ chains, c.serial = d.serial → c = d) :
    memoized operation memo (serial + done.length) ranges =
      ranges.map fun r =>
        r.withChain (r.chain.extend operation (serial + chains.idxOf r.chain)) := by
  induction ranges generalizing memo done with
  | nil => rfl
  | cons r rest ih =>
    obtain ⟨extension, known⟩ := knows.extend parts apart
    have later := ih known (by rw [parts, List.map_cons, List.append_assoc]; rfl)
    rw [List.length_append, List.length_singleton, ← Nat.add_assoc] at later
    rw [List.map_cons, ← later, ← extension]
    rfl

/-- The heads of listed chains tell them apart, so the pass with a memo makes of the ranges what
extending makes of them. -/
theorem memoized_ranges (under : t.Under L.Lists) (operation : Operation) (serial : Nat) :
    memoized operation {} serial t.ranges = (t.extend operation serial).ranges := by
  have listed := under_iff.mp under
  have knows : Memo.Knows {} operation serial t.chains [] := fun c _ => by simp
  have parts : t.chains = [] ++ t.ranges.map Range.chain := rfl
  have pass := memoized_eq knows parts fun c memC d memD =>
    L.unique c d (listed c memC) (listed d memD)
  rw [List.length_nil, Nat.add_zero] at pass
  rw [pass, ranges_extend]
  exact List.map_congr_left fun r mem => by rw [follow_of_mem operation serial mem]

theorem extendWithMemo_eq (under : t.Under L.Lists) (operation : Operation) (serial : Nat) :
    t.extendWithMemo operation serial = t.extend operation serial := by
  have pass := memoized_ranges under operation serial
  match t with
  | ⟨none⟩ => rfl
  | ⟨some _⟩ => exact congrArg (fun ranges => (⟨some ranges⟩ : Taint)) pass

theorem extendedWithMemo_eq (under : t.Under L.Lists) (operation : Operation) (serial : Nat) :
    t.extendedWithMemo operation serial = t.extended operation serial := by
  -- The bounds that are checked are those of a range.
  have bounds : (t.extend operation serial).ranges.mapM (fun r => r.withBounds r.start r.stop) =
      .ok ((t.extend operation serial).ranges.map id) :=
    mapM_eq_ok fun r _ => Range.ofBounds_eq_ok r.start_le_stop r.stop_le_last
  rw [extendedWithMemo, memoized_ranges under, bounds, List.map_id, extended]
  rfl

/-! ## In a session -/

section Session

open Session SessionM

variable {s s' : Session} {source target : String} {copy : Taint}

theorem step_make {maker : Maker} {value : Value} (made : maker.eval.ends s = (.ok value, s')) :
    s.step (.make target maker) = s'.bind target value := by
  have ended : (Command.make target maker).run.ends s = (.ok [value], s'.bind target value) := by
    rw [Command.run, ends_bind, made]
    rfl
  exact congrArg Prod.snd ended

theorem ends_extendedTaint (found : s.value? source = some (.taint t))
    (made : t.extended operation s.recorder.nextSerial = .ok copy) :
    (Maker.eval (.extendedTaint source (.given operation))).ends s =
      (.ok (.taint copy), { s with recorder := s.recorder.advance t.rangeCount }) := by
  have named : (s.value? source).bind Value.taint? = some t := by rw [found]; rfl
  have given : (pure operation : SessionM Operation).ends s = (.ok operation, s) := rfl
  simp only [Maker.eval, OperationTerm.eval, ends_bind, ends_taintNamed, named, given,
    ends_recordingOrFault, made]
  rfl

/-- The copy is given a name, and the name of what it was made of stands for the same taint. -/
theorem value?_step_extendedTaint (found : s.value? source = some (.taint t))
    (apart : source ≠ target)
    (made : t.extended operation s.recorder.nextSerial = .ok copy) :
    (s.step (.make target (.extendedTaint source (.given operation)))).value? source =
        some (.taint t) ∧
      (s.step (.make target (.extendedTaint source (.given operation)))).value? target =
        some (.taint copy) := by
  rw [step_make (ends_extendedTaint found made)]
  exact ⟨(value?_bind_of_ne _ _ apart).trans found, value?_bind_self _ _ _⟩

end Session

/-! ## Both ways -/

/-- **Extending keeps layout and sharing, in place and in a copy.**  The ranges stay where they
are, each with the operation on top of its chain; ranges share their new chains exactly as they
shared the old ones, and no new head is a node that was there.  The copy leaves what it is made of
as it is, and has the same ranges as what is extended in place, up to the numbers of the new heads.
It makes no difference that both extend chains in a pass, with a memo in which a chain is known by
its head. -/
theorem extension_keeps_sharing {serial' : Nat} (wf : t.WellFormed) (under : t.Under L.Lists)
    (operation : Operation) (new : L.nextSerial ≤ serial) (new' : L.nextSerial ≤ serial') :
    t.extendWithMemo operation serial = t.extend operation serial ∧
    NewlyExtends L operation t (t.extend operation serial) ∧
    ∃ copy, t.extended operation serial' = .ok copy ∧
      t.extendedWithMemo operation serial' = .ok copy ∧ NewlyExtends L operation t copy ∧
      (∃ rename : Nat → Nat, Set.InjOn rename {n | n ∈ (t.extend operation serial).heads} ∧
        copy.ranges = (t.extend operation serial).ranges.map fun x =>
          x.withChain (x.chain.renumbered rename)) ∧
      ∀ (s : Session) (source target : String), s.value? source = some (.taint t) →
        source ≠ target → s.recorder.nextSerial = serial' →
        (s.step (.make target (.extendedTaint source (.given operation)))).value? source =
            some (.taint t) ∧
          (s.step (.make target (.extendedTaint source (.given operation)))).value? target =
            some (.taint copy) := by
  have made := extended_eq_ok wf operation serial'
  refine ⟨extendWithMemo_eq under operation serial, newlyExtends_extend wf under operation new, _,
    made, (extendedWithMemo_eq under operation serial').trans made,
    newlyExtends_extend wf under operation new',
    ⟨_, injOn_heads_extend t operation serial serial',
      ranges_extend_renumbered t operation serial serial'⟩,
    fun s source target found apart next => ?_⟩
  subst next
  exact value?_step_extendedTaint found apart made

/-- Two ranges under one chain, around one under another chain: the outer ones share their
extension, in place under the number 3 and in the copy under the number 7, and the name of the taint
that the copy is made of still stands for it. -/
theorem extension_keeps_sharing_around :
    let read : Chain := .ofSource { name := "read" } 0
    let input : Chain := .ofSource { name := "input" } 1
    let trim : Operation := { name := "trim" }
    let t := ofList (Range.span 0 2 read ++ Range.span 2 5 (input.extend { name := "join" } 2) ++
      Range.span 5 6 read)
    let s : Session := { values := [("a", .taint t)], recorder := { nextSerial := 7 } }
    t.WellFormed ∧ (∃ L : Ledger, t.Under L.Lists ∧ L.nextSerial ≤ 3 ∧ L.nextSerial ≤ 7 ∧
      NewlyExtends L trim t (t.extend trim 3)) ∧
      t.extendWithMemo trim 3 = t.extend trim 3 ∧ (t.extend trim 3).heads = [3, 4, 3] ∧
      ∃ copy, t.extended trim 7 = .ok copy ∧ copy.heads = [7, 8, 7] ∧
        s.value? "a" = some (.taint t) ∧
        (s.step (.make "b" (.extendedTaint "a" (.given trim)))).value? "a" = some (.taint t) ∧
        (s.step (.make "b" (.extendedTaint "a" (.given trim)))).value? "b" =
          some (.taint copy) := by
  intro read input trim t s
  let sources : Ledger := (Ledger.empty 0).write [read, input] rfl fun c mem p parent => by
    rcases List.mem_pair.mp mem with rfl | rfl <;> cases parent
  let L : Ledger := sources.write [input.extend { name := "join" } 2] rfl fun c mem p parent => by
    obtain rfl := List.mem_singleton.mp mem
    cases parent
    exact .inr (List.mem_cons_of_mem _ List.mem_cons_self)
  have wf : t.WellFormed := by decide
  have under : t.Under L.Lists := by
    have chains : t.chains = [read, input.extend { name := "join" } 2, read] := by decide
    refine under_iff.mpr fun c mem => ?_
    rw [chains] at mem
    simp only [List.mem_cons, List.not_mem_nil, or_false] at mem
    rcases mem with rfl | rfl | rfl
    · exact .inl (.inr List.mem_cons_self)
    · exact .inr List.mem_cons_self
    · exact .inl (.inr List.mem_cons_self)
  have numbers : L.nextSerial ≤ 3 ∧ L.nextSerial ≤ 7 := by decide
  obtain ⟨memo, inPlace, copy, made, -, -, -, named⟩ :=
    extension_keeps_sharing wf under trim numbers.1 numbers.2
  have copied : t.extended trim 7 = .ok (t.extend trim 7) := by decide
  obtain rfl : t.extend trim 7 = copy := Except.ok.inj (copied.symm.trans made)
  obtain ⟨kept, given⟩ := named s "a" "b" rfl (by decide) rfl
  exact ⟨wf, ⟨L, under, numbers.1, numbers.2, inPlace⟩, memo, by decide, _, made, by decide, rfl,
    kept, given⟩

end Taint

end TextProvenance
