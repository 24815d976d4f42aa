import TextProvenance.Proofs.Ledger
import TextProvenance.Proofs.Taint.WellFormed

/-!
# Under which chains taint is

`Taint.Under P` says that the chains of taint have the property `P`.  Operations cut ranges, move
them and leave them out, so their results are under chains of their operands, apart from those that
record: these are under new chains, for which a ledger can be written on (`Taint.continues_extend`,
`Taint.continues_overlay`).  `Taint.Change.continues` says so of all changes in place.
-/

namespace TextProvenance

/-! ## Ranges -/

namespace Range

variable {r x : Range} {start stop lo hi : Nat} {amount : Int} {c : Chain}
  {outside : Nat → Fault}

theorem chain_of_mem_part (mem : x ∈ r.part lo hi) : x.chain = r.chain :=
  (mem_span mem).2.2.2

theorem chain_of_ofBounds (ok : ofBounds start stop c = .ok r) : r.chain = c := by
  unfold ofBounds at ok
  split at ok
  · split at ok
    · cases ok
      rfl
    · cases ok
  · cases ok

theorem chain_of_moved (ok : r.moved amount outside = .ok x) : x.chain = r.chain := by
  rcases bind_eq_ok_iff.mp ok with ⟨start, _, ok⟩
  rcases bind_eq_ok_iff.mp ok with ⟨stop, _, ok⟩
  exact chain_of_ofBounds ok

end Range

/-- Every item of a list that could be mapped has the property, if every image has. -/
theorem forall_of_mapM {α β ε : Type} {f : α → Except ε β} {Q : β → Prop} {items : List α}
    {images : List β} (ok : items.mapM f = .ok images)
    (each : ∀ a ∈ items, ∀ b, f a = .ok b → Q b) : ∀ b ∈ images, Q b := by
  induction items generalizing images with
  | nil =>
    cases ok
    exact nofun
  | cons a rest ih =>
    rw [List.mapM_cons] at ok
    rcases bind_eq_ok_iff.mp ok with ⟨b, first, ok⟩
    rcases bind_eq_ok_iff.mp ok with ⟨others, second, ok⟩
    cases ok
    exact List.forall_mem_cons.mpr ⟨each a (by simp) b first,
      ih second fun a mem => each a (by simp [mem])⟩

namespace Taint

variable {P : Chain → Prop} {t t' other : Taint} {r : Range} {ranges moved : List Range}
  {b b' : Builder} {start stop index lo hi : Nat} {amount : Int} {c : Chain}
  {operation : Operation} {L : Ledger}

/-- Every range is under a chain with the property. -/
def Under (P : Chain → Prop) (t : Taint) : Prop := ∀ r ∈ t.ranges, P r.chain

theorem under_iff : t.Under P ↔ ∀ c ∈ t.chains, P c := List.forall_mem_map.symm

theorem under_of_append {others : List Chain} (each : ∀ c ∈ t.chains ++ others, P c) :
    t.Under P :=
  under_iff.mpr fun c mem => each c (List.mem_append_left _ mem)

theorem under_untainted : untainted.Under P := nofun

/-! ## Building -/

theorem under_push (ok : b.push r = .ok b') (has : P r.chain)
    (under : ∀ x ∈ b.latestFirst, P x.chain) : ∀ x ∈ b'.latestFirst, P x.chain := by
  cases Builder.pushed_of_push ok with
  | empty => exact under
  | first => simpa using has
  | joined _ taken _ _ =>
    rw [taken] at under
    rcases List.forall_mem_cons.mp under with ⟨last, earlier⟩
    exact List.forall_mem_cons.mpr ⟨last, earlier⟩
  | next _ taken _ =>
    rw [taken] at under
    exact List.forall_mem_cons.mpr ⟨has, under⟩

theorem under_pushAll (ok : b.pushAll ranges = .ok b') (each : ∀ x ∈ ranges, P x.chain)
    (under : ∀ x ∈ b.latestFirst, P x.chain) : ∀ x ∈ b'.latestFirst, P x.chain := by
  induction ranges generalizing b with
  | nil =>
    cases ok
    exact under
  | cons r rest ih =>
    rw [Builder.pushAll_cons] at ok
    rcases bind_eq_ok_iff.mp ok with ⟨middle, first, ok⟩
    rcases List.forall_mem_cons.mp each with ⟨has, others⟩
    exact ih ok others (under_push first has under)

theorem under_finish (under : ∀ x ∈ b.latestFirst, P x.chain) : b.finish.Under P := by
  intro r mem
  rw [Builder.ranges_finish, List.mem_reverse] at mem
  exact under r mem

/-- Taint that is built from ranges is under their chains. -/
theorem under_ofRanges (each : ∀ x ∈ ranges, P x.chain) (ok : ofRanges ranges = .ok t) :
    t.Under P := by
  rcases map_eq_ok_iff.mp ok with ⟨b, run, rfl⟩
  exact under_finish (under_pushAll run each (by simp [Builder.empty]))

theorem under_ofRange (has : P r.chain) (ok : ofRange r = .ok t) : t.Under P :=
  under_ofRanges (by simpa using has) ok

theorem append_under (under : t.Under P) (has : P r.chain) (ok : t.append r = .ok t') :
    t'.Under P := by
  unfold append at ok
  split at ok
  · cases ok
    exact under
  · rcases map_eq_ok_iff.mp ok with ⟨b, push, rfl⟩
    exact under_finish (under_push push has fun x mem => under x (List.mem_reverse.mp mem))

/-! ## Operations -/

/-- Pieces of ranges are under the chains of the ranges. -/
theorem under_flatMap {pieces : Range → List Range} (under : t.Under P)
    (each : ∀ r, ∀ x ∈ pieces r, x.chain = r.chain) :
    ∀ x ∈ t.ranges.flatMap pieces, P x.chain := by
  intro x mem
  obtain ⟨r, memRanges, memPieces⟩ := List.mem_flatMap.mp mem
  rw [each r x memPieces]
  exact under r memRanges

theorem subtaint_under (under : t.Under P) (ok : t.subtaint start stop = .ok t') :
    t'.Under P := by
  rcases bind_eq_ok_iff.mp ok with ⟨_, _, ok⟩
  exact under_ofRanges (under_flatMap under fun _ _ mem => (Range.mem_span mem).2.2.2) ok

theorem clearBetween_under (under : t.Under P) (ok : t.clearBetween start stop = .ok t') :
    t'.Under P := by
  rcases bind_eq_ok_iff.mp ok with ⟨_, _, ok⟩
  refine under_ofRanges (under_flatMap under fun _ _ mem => ?_) ok
  rcases List.mem_append.mp mem with mem | mem
  · exact Range.chain_of_mem_part mem
  · exact Range.chain_of_mem_part mem

theorem addRange_under (under : t.Under P) (has : P r.chain) (ok : t.addRange r = .ok t') :
    t'.Under P := by
  unfold addRange at ok
  split at ok
  · cases ok
    exact under
  · refine under_ofRanges (fun x mem => ?_) ok
    rcases List.mem_append.mp mem with mem | mem
    · exact under_flatMap under (fun _ _ mem => Range.chain_of_mem_part mem) x mem
    · rcases List.mem_cons.mp mem with rfl | mem
      · exact has
      · exact under_flatMap under (fun _ _ mem => Range.chain_of_mem_part mem) x mem

theorem under_shifted (under : other.Under P)
    (ok : other.ranges.mapM (·.shifted amount) = .ok moved) : ∀ x ∈ moved, P x.chain :=
  forall_of_mapM ok fun r mem _ shifted => Range.chain_of_moved shifted ▸ under r mem

theorem shift_under (under : t.Under P) (ok : t.shift index amount = .ok t') : t'.Under P := by
  rcases bind_eq_ok_iff.mp ok with ⟨target, _, ok⟩
  split at ok
  · cases ok
  · split at ok
    · cases ok
      exact under
    · rcases bind_eq_ok_iff.mp ok with ⟨pieces, cut, ok⟩
      refine under_ofRanges (fun x mem => ?_) ok
      obtain ⟨piece, memPieces, memPiece⟩ := List.mem_flatten.mp mem
      refine forall_of_mapM (Q := fun piece => ∀ x ∈ piece, P x.chain) cut
        (fun r memRanges piece shifted => ?_) piece memPieces x memPiece
      rcases bind_eq_ok_iff.mp shifted with ⟨moved, all, same⟩
      cases same
      intro x mem
      rcases List.mem_append.mp mem with mem | mem
      · exact Range.chain_of_mem_part mem ▸ under r memRanges
      · refine forall_of_mapM (Q := fun x => P x.chain) all (fun y inAfter x moved => ?_) x mem
        rw [Range.chain_of_moved moved, Range.chain_of_mem_part inAfter]
        exact under r memRanges

theorem rangesBefore_under {front : List Range} (under : t.Under P)
    (ok : t.rangesBefore index = .ok front) : ∀ x ∈ front, P x.chain := by
  simp only [rangesBefore] at ok
  split at ok
  · cases ok
  · cases ok
    exact fun x mem => under x (List.takeWhile_subset _ mem)

theorem rangesFrom_under {back : List Range} (under : t.Under P)
    (ok : t.rangesFrom lo hi = .ok back) : ∀ x ∈ back, P x.chain := by
  simp only [rangesFrom] at ok
  split at ok
  · cases ok
  · cases ok
    exact fun x mem => under x ((List.dropWhile_suffix _).subset mem)

theorem insert_under (under : t.Under P) (underOther : other.Under P)
    (ok : t.insert index other = .ok t') : t'.Under P := by
  rcases bind_eq_ok_iff.mp ok with ⟨front, before, ok⟩
  rcases bind_eq_ok_iff.mp ok with ⟨moved, shifted, ok⟩
  rcases bind_eq_ok_iff.mp ok with ⟨b, first, ok⟩
  rcases bind_eq_ok_iff.mp ok with ⟨back, behind, ok⟩
  rcases bind_eq_ok_iff.mp ok with ⟨b', second, ok⟩
  cases ok
  have taken := under_pushAll first (P := P)
    (List.forall_mem_append.mpr ⟨rangesBefore_under under before, under_shifted underOther shifted⟩)
    (by simp [Builder.empty])
  exact under_finish (under_pushAll second (rangesFrom_under under behind) taken)

theorem scaled_under (n m done : Nat) (each : ∀ r ∈ ranges, P r.chain) :
    ∀ x ∈ scaled n m done ranges, P x.chain := by
  induction ranges generalizing done with
  | nil => exact nofun
  | cons r rest ih =>
    rcases List.forall_mem_cons.mp each with ⟨has, others⟩
    rw [scaled]
    split
    · exact ih done others
    · rename_i unit more span
      have chain : unit.chain = r.chain := (Range.mem_span (span ▸ List.mem_cons_self)).2.2.2
      exact List.forall_mem_cons.mpr ⟨chain ▸ has, ih unit.stop others⟩

theorem convertBase_under {direction : BaseDirection} {unitWidth encodedWidth : Nat}
    (under : t.Under P) (ok : t.convertBase direction unitWidth encodedWidth = .ok t') :
    t'.Under P := by
  unfold convertBase at ok
  split at ok
  · cases ok
  · cases direction with
    | encode => exact under_ofRanges (scaled_under _ _ _ under) ok
    | decode => exact under_ofRanges (scaled_under _ _ _ under) ok

/-- The first chain of a window is the chain of a range. -/
theorem firstChainIn_under (under : t.Under P) (found : t.firstChainIn lo hi = some c) : P c := by
  obtain ⟨r, first, rfl⟩ := Option.map_eq_some_iff.mp found
  have head := (Option.filter_eq_some_iff.mp first).1
  exact under r ((List.dropWhile_suffix _).subset (List.mem_of_mem_head? head))

/-! ## Changes in place -/

theorem keeps_under_append (has : P r.chain) : Edit.Keeps (Under P) (Edit.step (·.append r)) :=
  Edit.keeps_step fun _ _ under ok => append_under under has ok

theorem keeps_under_addTaint (underOther : other.Under P) :
    Edit.Keeps (Under P) (addTaint other) :=
  Edit.keeps_forEach fun r mem => Edit.keeps_step fun _ _ under ok =>
    addRange_under under (underOther r mem) ok

theorem keeps_under_concat (underOther : other.Under P) (offset : Nat) :
    Edit.Keeps (Under P) (concat other offset) := by
  intro t under
  unfold concat
  split
  · exact under
  · exact Edit.keeps_given (fun moved shifted => Edit.keeps_forEach fun r mem =>
      keeps_under_append (under_shifted underOther shifted r mem)) t under

theorem concatOf_under (under : t.Under P) (underOther : other.Under P) {offset : Nat}
    (ok : concatOf t offset other = .ok t') : t'.Under P := by
  have kept := keeps_under_concat underOther offset t under
  unfold concatOf Edit.result at ok
  split at ok
  · rename_i state done
    rw [done] at kept
    cases ok
    exact kept
  · cases ok

theorem keeps_under_set (index : Nat) (has : P c) : Edit.Keeps (Under P) (set index c) := by
  intro t under
  unfold set
  split
  · exact under
  · split
    · exact Edit.keeps_given (fun r ok => keeps_under_append (Range.chain_of_ofBounds ok ▸ has)) t
        under
    · refine Edit.keeps_andThen ?_ ?_ t under
      · exact Edit.keeps_step fun _ _ under ok => clearBetween_under under ok
      · refine Edit.keeps_given fun single made => Edit.keeps_step fun _ _ under ok => ?_
        rcases bind_eq_ok_iff.mp made with ⟨r, bounds, made⟩
        exact insert_under under (under_ofRange (Range.chain_of_ofBounds bounds ▸ has) made) ok

/-! ## Recording -/

/-- The extensions of chains are numbered one after the other. -/
theorem serials_extensions (chains : List Chain) (operation : Operation) (serial : Nat) :
    (chains.mapIdx fun place c => c.extend operation (serial + place)).map Chain.serial =
      List.range' serial chains.length := by
  apply List.ext_getElem
  · simp
  · intro place _ _
    simp [Chain.extend, Chain.serial]

/-- Listed chains have their extensions among those. -/
theorem follow_mem_extensions {chains : List Chain} (operation : Operation) (serial : Nat)
    (mem : c ∈ chains) :
    follow (extensions chains operation serial) c ∈
      chains.mapIdx fun place c => c.extend operation (serial + place) := by
  rw [follow_extensions operation serial mem, List.mem_mapIdx]
  have inside := List.idxOf_lt_length_iff.mpr mem
  exact ⟨chains.idxOf c, inside, by rw [List.getElem_idxOf]⟩

theorem parent?_of_mem_extensions {chains : List Chain} {serial : Nat} {d p : Chain}
    (mem : d ∈ chains.mapIdx fun place c => c.extend operation (serial + place))
    (parent : d.parent? = some p) : p ∈ chains := by
  obtain ⟨place, inside, rfl⟩ := List.mem_mapIdx.mp mem
  cases parent
  exact List.getElem_mem inside

/-- A ledger with the chains of taint can be written on with their extensions. -/
theorem continues_extend (under : t.Under L.Lists) (operation : Operation) :
    L.Continues (L.nextSerial + t.rangeCount) (t.extend operation L.nextSerial).chains := by
  have numbered := serials_extensions t.chains operation L.nextSerial
  have count : t.rangeCount =
      (t.chains.mapIdx fun place c => c.extend operation (L.nextSerial + place)).length := by
    simp [rangeCount, chains]
  rw [count]
  refine Ledger.continues_of_numbered _ (by simpa using numbered) (fun d mem p parent => ?_) ?_
  · exact under_iff.mp under p (parent?_of_mem_extensions mem parent)
  · intro c mem
    rw [chains, ranges_extend, List.map_map] at mem
    obtain ⟨r, memRanges, rfl⟩ := List.mem_map.mp mem
    exact .inr (follow_mem_extensions operation L.nextSerial (mem_chains memRanges))

theorem continues_extended (under : t.Under L.Lists)
    (ok : t.extended operation L.nextSerial = .ok t') :
    L.Continues (L.nextSerial + t.rangeCount) t'.chains := by
  refine (continues_extend under operation).mono fun c mem => ?_
  exact under_iff.mp (under_ofRanges (fun r mem => mem_chains mem) ok) c mem

theorem overlaid_under {gap : Chain} {extension : Chain → Chain} (cursor : Nat)
    (each : ∀ r ∈ ranges, P r.chain) (hasGap : P gap)
    (extended : ∀ r ∈ ranges, P (extension r.chain)) :
    ∀ x ∈ overlaid start stop gap extension cursor ranges, P x.chain := by
  induction ranges generalizing cursor with
  | nil => exact fun x mem => (Range.mem_span mem).2.2.2 ▸ hasGap
  | cons r rest ih =>
    rcases List.forall_mem_cons.mp each with ⟨has, others⟩
    rcases List.forall_mem_cons.mp extended with ⟨hasExtension, otherExtensions⟩
    rw [overlaid]
    simp only [List.forall_mem_append, List.forall_mem_map]
    refine ⟨⟨⟨⟨?_, ?_⟩, ?_⟩, ?_⟩, ih _ others otherExtensions⟩
    · exact fun x mem => Range.chain_of_mem_part mem ▸ has
    · exact fun x mem => (Range.mem_span mem).2.2.2 ▸ hasGap
    · intro x mem
      rw [Range.withChain, Range.chain_of_mem_part mem]
      exact hasExtension
    · exact fun x mem => Range.chain_of_mem_part mem ▸ has

/-- A ledger with the chains of taint can be written on with those of an overlay: the chain of the
gaps, and the extensions. -/
theorem continues_overlay (under : t.Under L.Lists)
    (ok : t.overlay start stop operation L.nextSerial = .ok t') :
    L.Continues (L.nextSerial + (t.rangeCount + 1)) t'.chains := by
  rcases bind_eq_ok_iff.mp ok with ⟨_, _, ok⟩
  split at ok
  · cases ok
    exact (Ledger.continues_self (under_iff.mp under)).skip (Nat.le_add_right ..)
  · have numbered := serials_extensions t.chains operation (L.nextSerial + 1)
    generalize made : (t.chains.mapIdx fun place c =>
      c.extend operation (L.nextSerial + 1 + place)) = extended at numbered
    have count : t.rangeCount = extended.length := by
      simp [← made, rangeCount, chains]
    have listed : t'.Under (L.ListsWith (.ofSource operation L.nextSerial :: extended)) := by
      refine under_ofRanges (overlaid_under start (fun r mem => .inl (under r mem))
        (.inr List.mem_cons_self) fun r mem => .inr (List.mem_cons_of_mem _ ?_)) ok
      rw [← made]
      exact follow_mem_extensions operation _ (mem_chains mem)
    rw [count]
    refine Ledger.continues_of_numbered (.ofSource operation L.nextSerial :: extended) ?_
      (fun d mem p parent => ?_) (under_iff.mp listed)
    · have same : t.chains.length = extended.length := by simp [← made]
      rw [List.map_cons, numbered, same, List.length_cons, List.range'_succ]
      rfl
    · rcases List.mem_cons.mp mem with rfl | mem
      · cases parent
      · rw [← made] at mem
        exact under_iff.mp under p (parent?_of_mem_extensions mem parent)

/-! ## All changes -/

namespace Change

/-- The chains that a change takes from elsewhere. -/
def operandChains : Change → List Chain
  | append r | addRange r => [r.chain]
  | addTaint other | concat other _ | insert _ other => other.chains
  | set _ c => [c]
  | _ => []

/-- A ledger with the chains of taint, and of what it is changed with, can be written on with those
of the taint that a change leaves, also if it fails. -/
theorem continues (under : t.Under L.Lists) (change : Change)
    (operands : ∀ c ∈ change.operandChains, L.Lists c) :
    L.Continues (L.nextSerial + change.serials t) (change.edit L.nextSerial t).state.chains := by
  have kept {edit : Edit Taint} (keeps : Edit.Keeps (Under L.Lists) edit) :
      L.Continues L.nextSerial (edit t).state.chains :=
    Ledger.continues_self (under_iff.mp (keeps t under))
  cases change with
  | append r => exact kept (keeps_under_append (operands r.chain (List.mem_singleton_self _)))
  | addRange r =>
    exact kept (Edit.keeps_step fun _ _ under ok =>
      addRange_under under (operands r.chain (List.mem_singleton_self _)) ok)
  | addTaint other => exact kept (keeps_under_addTaint (under_iff.mpr operands))
  | clearBetween start stop => exact kept (Edit.keeps_step fun _ _ => clearBetween_under)
  | clearAt index => exact kept (Edit.keeps_step fun _ _ => clearBetween_under)
  | clear => exact kept (Edit.keeps_step fun _ _ _ ok => Except.ok.inj ok ▸ under_untainted)
  | concat other offset => exact kept (keeps_under_concat (under_iff.mpr operands) offset)
  | shift index amount => exact kept (Edit.keeps_step fun _ _ => shift_under)
  | insert index other =>
    exact kept (Edit.keeps_step fun _ _ under ok => insert_under under (under_iff.mpr operands) ok)
  | set index c => exact kept (keeps_under_set index (operands c (List.mem_singleton_self _)))
  | overlay start stop operation =>
    refine Edit.holds_step (I := fun t' : Taint => L.Continues _ t'.chains) ?_
      fun t' => continues_overlay under
    exact (Ledger.continues_self (under_iff.mp under)).skip (Nat.le_add_right ..)
  | extend operation => exact continues_extend under operation
  | convertBase direction unitWidth encodedWidth =>
    exact kept (Edit.keeps_step fun _ _ => convertBase_under)

end Change

end Taint

end TextProvenance
