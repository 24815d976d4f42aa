import TextProvenance.Proofs.Edit
import TextProvenance.Proofs.Taint.Builder
import TextProvenance.Taint.Change

/-!
# Operations keep taint well formed

Nearly every operation builds its result anew, and what a builder makes is well formed.  The two
others are `Taint.append`, which goes on with the ranges that are there, and `Taint.extend`, which
gives the ranges other chains in place: there, different chains have to stay different
(`Taint.extend_wellFormed`).

`Taint.Change.keeps_wellFormed` has all changes in place, whether they succeed or stop half-way.
-/

namespace TextProvenance

/-! ## Extended chains -/

theorem Chain.extend_inj {a b : Chain} {operation : Operation} {m n : Nat}
    (same : a.extend operation m = b.extend operation n) : a = b := by
  have nodes : a.head :: a.older = b.head :: b.older := congrArg Chain.older same
  rcases List.cons.inj nodes with ⟨head, older⟩
  cases a
  cases b
  cases head
  cases older
  rfl

theorem Chain.source_extend (c : Chain) (operation : Operation) (serial : Nat) :
    (c.extend operation serial).source = c.source := by
  simp [Chain.source, Chain.extend, Chain.nodes]

namespace Taint

variable {t t' other : Taint} {r : Range} {operation : Operation} {serial : Nat}

theorem mem_chains (mem : r ∈ t.ranges) : r.chain ∈ t.chains :=
  List.mem_map_of_mem mem

/-- The chain that `Taint.extend` gives to a range. -/
theorem follow_of_mem (operation : Operation) (serial : Nat) (mem : r ∈ t.ranges) :
    follow (extensions t.chains operation serial) r.chain =
      r.chain.extend operation (serial + t.chains.idxOf r.chain) :=
  follow_extensions operation serial (mem_chains mem)

theorem ranges_extend (t : Taint) (operation : Operation) (serial : Nat) :
    (t.extend operation serial).ranges =
      t.ranges.map fun r =>
        r.withChain (follow (extensions t.chains operation serial) r.chain) := by
  match t with
  | ⟨none⟩ => rfl
  | ⟨some _⟩ => rfl

/-- Extending keeps taint well formed: ranges that touch had different chains, and chains that
differ differ in their extensions, since an extension has all of its chain below its head. -/
theorem extend_wellFormed (wf : t.WellFormed) : (t.extend operation serial).WellFormed := by
  match t, wf with
  | ⟨none⟩, _ => trivial
  | ⟨some list⟩, wf =>
    rcases wf with ⟨present, filled, separated⟩
    refine ⟨by simpa using present, ?_, ?_⟩
    · intro x mem
      rcases List.mem_map.mp mem with ⟨r, memRanges, rfl⟩
      exact filled r memRanges
    · rw [separated_iff_isChain, List.isChain_map]
      apply (separated_iff_isChain.mp separated).imp_of_mem_imp
      intro a b memA memB precedes
      refine ⟨precedes.1, fun touching same => precedes.2 touching ?_⟩
      have chainA := follow_of_mem (t := ⟨some list⟩) operation serial memA
      have chainB := follow_of_mem (t := ⟨some list⟩) operation serial memB
      simp only [Range.withChain] at same
      rw [chainA, chainB] at same
      exact Chain.extend_inj same

/-! ## Changes in place -/

theorem subtaint_wellFormed {start stop : Nat} (ok : t.subtaint start stop = .ok t') :
    t'.WellFormed := by
  rcases bind_eq_ok_iff.mp ok with ⟨_, _, ok⟩
  exact wellFormed_of_ofRanges ok

theorem extended_wellFormed (ok : t.extended operation serial = .ok t') : t'.WellFormed :=
  wellFormed_of_ofRanges ok

theorem clearBetween_wellFormed {start stop : Nat} (ok : t.clearBetween start stop = .ok t') :
    t'.WellFormed := by
  rcases bind_eq_ok_iff.mp ok with ⟨_, _, ok⟩
  exact wellFormed_of_ofRanges ok

theorem addRange_wellFormed (wf : t.WellFormed) (ok : t.addRange r = .ok t') :
    t'.WellFormed := by
  unfold addRange at ok
  split at ok
  · cases ok
    exact wf
  · exact wellFormed_of_ofRanges ok

theorem shift_wellFormed {index : Nat} {amount : Int} (wf : t.WellFormed)
    (ok : t.shift index amount = .ok t') : t'.WellFormed := by
  rcases bind_eq_ok_iff.mp ok with ⟨target, _, ok⟩
  split at ok
  · cases ok
  · split at ok
    · cases ok
      exact wf
    · rcases bind_eq_ok_iff.mp ok with ⟨pieces, _, ok⟩
      exact wellFormed_of_ofRanges ok

theorem insert_wellFormed {index : Nat} (ok : t.insert index other = .ok t') :
    t'.WellFormed := by
  rcases bind_eq_ok_iff.mp ok with ⟨front, _, ok⟩
  rcases bind_eq_ok_iff.mp ok with ⟨moved, _, ok⟩
  rcases bind_eq_ok_iff.mp ok with ⟨b, first, ok⟩
  rcases bind_eq_ok_iff.mp ok with ⟨back, _, ok⟩
  rcases bind_eq_ok_iff.mp ok with ⟨b', second, ok⟩
  cases ok
  have canonical := Builder.pushAll_canonical Builder.canonical_empty first
  exact (Builder.pushAll_canonical canonical second).wellFormed_finish

theorem overlay_wellFormed {start stop : Nat} (wf : t.WellFormed)
    (ok : t.overlay start stop operation serial = .ok t') : t'.WellFormed := by
  rcases bind_eq_ok_iff.mp ok with ⟨_, _, ok⟩
  split at ok
  · cases ok
    exact wf
  · exact wellFormed_of_ofRanges ok

theorem convertBase_wellFormed {direction : BaseDirection} {unitWidth encodedWidth : Nat}
    (ok : t.convertBase direction unitWidth encodedWidth = .ok t') : t'.WellFormed := by
  unfold convertBase at ok
  split at ok
  · cases ok
  · cases direction with
    | encode => exact wellFormed_of_ofRanges ok
    | decode => exact wellFormed_of_ofRanges ok

theorem keeps_append (r : Range) : Edit.Keeps WellFormed (Edit.step (·.append r)) :=
  Edit.keeps_step fun _ _ wf ok => append_wellFormed wf ok

theorem keeps_addTaint (other : Taint) : Edit.Keeps WellFormed (addTaint other) :=
  Edit.keeps_forEach fun _ _ => Edit.keeps_step fun _ _ wf ok => addRange_wellFormed wf ok

theorem keeps_concat (other : Taint) (offset : Nat) :
    Edit.Keeps WellFormed (concat other offset) := by
  intro t wf
  unfold concat
  split
  · exact wf
  · exact Edit.keeps_given (fun moved _ => Edit.keeps_forEach fun r _ => keeps_append r) t wf

theorem keeps_set (index : Nat) (chain : Chain) : Edit.Keeps WellFormed (set index chain) := by
  intro t wf
  unfold set
  split
  · exact wf
  · split
    · exact Edit.keeps_given (fun r _ => keeps_append r) t wf
    · refine Edit.keeps_andThen ?_ ?_ t wf
      · exact Edit.keeps_step fun _ _ _ ok => clearBetween_wellFormed ok
      · exact Edit.keeps_given fun single _ =>
          Edit.keeps_step fun _ _ _ ok => insert_wellFormed ok

/-- No change in place makes well-formed taint ill-formed, not even one that fails. -/
theorem Change.keeps_wellFormed (change : Change) (serial : Nat) :
    Edit.Keeps WellFormed (change.edit serial) := by
  cases change with
  | append range => exact keeps_append range
  | addRange range => exact Edit.keeps_step fun _ _ wf ok => addRange_wellFormed wf ok
  | addTaint other => exact keeps_addTaint other
  | clearBetween start stop => exact Edit.keeps_step fun _ _ _ ok => clearBetween_wellFormed ok
  | clearAt index => exact Edit.keeps_step fun _ _ _ ok => clearBetween_wellFormed ok
  | clear => exact Edit.keeps_step fun _ _ _ ok => Except.ok.inj ok ▸ wellFormed_untainted
  | concat other offset => exact keeps_concat other offset
  | shift index amount => exact Edit.keeps_step fun _ _ wf ok => shift_wellFormed wf ok
  | insert index other => exact Edit.keeps_step fun _ _ _ ok => insert_wellFormed ok
  | set index chain => exact keeps_set index chain
  | overlay start stop operation =>
    exact Edit.keeps_step fun _ _ wf ok => overlay_wellFormed wf ok
  | extend operation =>
    exact Edit.keeps_step fun _ _ wf ok => Except.ok.inj ok ▸ extend_wellFormed wf
  | convertBase direction unitWidth encodedWidth =>
    exact Edit.keeps_step fun _ _ _ ok => convertBase_wellFormed ok

end Taint

end TextProvenance
