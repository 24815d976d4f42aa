import TextProvenance.Proofs.Position
import TextProvenance.Proofs.Taint.Window
import TextProvenance.Taint.Lookup

/-!
# Bisection finds what a scan finds

Bisection leaves out items that it has not looked at, so it needs a list in which the items that pass
its test stand in front of those that fail (`Partitioned`).  The ranges of well-formed taint are such
a list for every position, since they stop one behind the other (`Taint.WellFormed.stop_lt_stop`).

`LookedUp` and `FirstLabel` say what a scan of all ranges, and of all positions of a window, finds.
By `Taint.bisection_finds`, the look-ups that bisect find that.
-/

namespace TextProvenance

/-! ## Bisection -/

section Bisection

variable {α : Type} {passes : α → Bool} {items : List α} {lo hi i : Nat}

/-- The items that pass a test stand in front of those that fail. -/
def Partitioned (passes : α → Bool) (items : List α) : Prop :=
  items.Pairwise fun a b => passes b = true → passes a = true

/-- In a partitioned list, the items in front of the first one that fails are those that pass. -/
theorem Partitioned.lt_findIdx_iff (partitioned : Partitioned passes items)
    (inside : i < items.length) :
    i < items.findIdx (fun a => !passes a) ↔ passes items[i] = true := by
  constructor
  · intro early
    simpa using List.not_of_lt_findIdx early
  · intro pass
    by_contra late
    have first := Nat.le_of_not_lt late
    have within := Nat.lt_of_le_of_lt first inside
    have fails := List.findIdx_getElem (p := fun a => !passes a) (w := within)
    rcases Nat.lt_or_eq_of_le first with behind | same
    · have passFirst := List.pairwise_iff_getElem.mp partitioned _ i within inside behind pass
      simp [passFirst] at fails
    · simp [same, pass] at fails

/-- The first item that fails stays between the bounds of the bisection. -/
theorem Partitioned.bisect_eq (partitioned : Partitioned passes items) (bounded : hi ≤ items.length)
    (first : lo ≤ items.findIdx fun a => !passes a)
    (last : (items.findIdx fun a => !passes a) ≤ hi) :
    bisect passes items lo hi bounded = items.findIdx fun a => !passes a := by
  fun_induction bisect passes items lo hi bounded with
  | case1 lo hi bounded searching middle pass ih =>
    exact ih ((partitioned.lt_findIdx_iff _).mpr pass) last
  | case2 lo hi bounded searching middle fails ih =>
    exact ih first (Nat.le_of_not_lt (mt (partitioned.lt_findIdx_iff _).mp fails))
  | case3 lo hi bounded ended => omega

theorem Partitioned.partitionPoint_eq (partitioned : Partitioned passes items) :
    partitionPoint passes items = items.findIdx fun a => !passes a :=
  partitioned.bisect_eq (Nat.le_refl _) (Nat.zero_le _) List.findIdx_le_length

end Bisection

/-! ## What a scan finds -/

variable {r : Range} {ranges : List Range} {label : Nat → Option Chain} {found : Option Chain}
  {lo hi p : Nat}

/-- What a scan of ranges for a position finds: the chain of the only range with the position. -/
structure LookedUp (ranges : List Range) (p : Nat) (found : Option Chain) : Prop where
  scan : found = (ranges.find? fun r => r.Covers p).map Range.chain
  only : ∀ r ∈ ranges, r.Covers p → ranges.filter (fun x => x.Covers p) = [r]
  covered : ∀ r ∈ ranges, r.Covers p → found = some r.chain
  uncovered : found = none ↔ ∀ r ∈ ranges, ¬ r.Covers p

/-- What a scan of the positions `[lo, hi)` for a label finds: the label of the least position that
has one. -/
structure FirstLabel (label : Nat → Option Chain) (lo hi : Nat) (found : Option Chain) : Prop where
  least : ∀ p, lo ≤ p → p < hi → label p ≠ none → (∀ q, lo ≤ q → q < p → label q = none) →
    found = label p
  unlabelled : found = none ↔ ∀ p, lo ≤ p → p < hi → label p = none

theorem filter_covers_of_mem (disjoint : ranges.Pairwise Range.Disjoint) (mem : r ∈ ranges)
    (covers : r.Covers p) : ranges.filter (fun x => x.Covers p) = [r] := by
  induction ranges with
  | nil => cases mem
  | cons first rest ih =>
    obtain ⟨apart, disjointRest⟩ := List.pairwise_cons.mp disjoint
    rcases List.mem_cons.mp mem with rfl | memRest
    · have others : rest.filter (fun x => x.Covers p) = [] :=
        List.filter_eq_nil_iff.mpr fun x memX => by simpa using apart x memX p covers
      rw [List.filter_cons_of_pos (by simpa using covers), others]
    · have missed : ¬ first.Covers p := fun early => apart r memRest p early covers
      rw [List.filter_cons_of_neg (by simpa using missed), ih disjointRest memRest]

theorem lookedUp_labelIn (order : InOrder ranges) (p : Nat) :
    LookedUp ranges p (labelIn ranges p) where
  scan := labelIn_eq_find? ranges p
  only _ mem covers := filter_covers_of_mem (disjoint_of_inOrder order) mem covers
  covered _ mem covers := labelIn_of_mem order mem covers
  uncovered := labelIn_eq_none_iff

theorem firstLabel_findSome? (label : Nat → Option Chain) (lo hi : Nat) :
    FirstLabel label lo hi ((List.range' lo (hi - lo)).findSome? label) := by
  constructor
  · intro p late early labelled before
    obtain ⟨c, found⟩ := Option.ne_none_iff_exists'.mp labelled
    rw [found]
    exact Taint.findSome?_range'_eq_some late early found fun q inFront behind =>
      before q behind inFront
  · rw [List.findSome?_eq_none_iff]
    constructor
    · intro clean p late early
      exact clean p (List.mem_range'_1.mpr ⟨late, by omega⟩)
    · intro clean p mem
      have inside := List.mem_range'_1.mp mem
      exact clean p inside.1 (by omega)

/-! ## Taint -/

namespace Taint

variable {t : Taint}

/-- Ranges of well-formed taint stop one behind the other, since none of them is empty. -/
theorem WellFormed.stop_lt_stop (wf : t.WellFormed) :
    t.ranges.Pairwise fun a b => a.stop < b.stop := by
  apply List.Pairwise.imp_of_mem _ wf.inOrder
  intro a b _ memB apart
  exact Nat.lt_of_le_of_lt apart (wf.start_lt_stop memB)

theorem WellFormed.partitioned (wf : t.WellFormed) (p : Nat) :
    Partitioned (fun r => decide (r.stop ≤ p)) t.ranges := by
  apply wf.stop_lt_stop.imp
  intro a b less stops
  have early : b.stop ≤ p := of_decide_eq_true stops
  exact decide_eq_true (by omega)

theorem WellFormed.endingAfterByBisection_eq (wf : t.WellFormed) (p : Nat) :
    t.endingAfterByBisection p = t.firstEndingAfter p := by
  rw [endingAfterByBisection, (wf.partitioned p).partitionPoint_eq, firstEndingAfter,
    List.dropWhile_eq_drop_findIdx_not, List.head?_drop]

theorem WellFormed.chainAtByBisection_eq (wf : t.WellFormed) (p : Nat) :
    t.chainAtByBisection p = t.chainAt p := by
  rw [chainAtByBisection, wf.endingAfterByBisection_eq, chainAt]

theorem WellFormed.firstChainByBisection_eq (wf : t.WellFormed) (first : lo ≤ Position.last)
    (last : hi ≤ Position.last) : t.firstChainByBisection lo hi = .ok (t.firstChainIn lo hi) := by
  rw [firstChainByBisection, Position.ofOffset_eq_ok first, Position.ofOffset_eq_ok last]
  simp only [bind, Except.bind, wf.endingAfterByBisection_eq]
  rfl

/-- A window that reaches behind the positions is refused before anything is looked up. -/
theorem firstChainByBisection_eq_error (late : Position.last < hi) :
    ∃ fault, t.firstChainByBisection lo hi = .error fault := by
  unfold firstChainByBisection
  rcases Nat.lt_or_ge Position.last lo with lateStart | early
  · rw [Position.ofOffset_eq_error lateStart]
    exact ⟨_, rfl⟩
  · rw [Position.ofOffset_eq_ok early, Position.ofOffset_eq_error late]
    exact ⟨_, rfl⟩

/-- **Bisection finds what a scan finds.**  The look-ups by bisection are the look-ups in use.  Of a
position they find the chain of the only range with it, and of a window the chain of its least
tainted position; nothing only where there is nothing. -/
theorem bisection_finds (wf : t.WellFormed) :
    (∀ p, t.chainAtByBisection p = t.chainAt p ∧
      LookedUp t.ranges p (t.chainAtByBisection p)) ∧
    (∀ lo hi, lo < hi → hi ≤ Position.last →
      t.firstChainByBisection lo hi = .ok (t.firstChainIn lo hi) ∧
      FirstLabel t.chainAtByBisection lo hi (t.firstChainIn lo hi)) ∧
    ∀ lo hi, Position.last < hi → ∃ fault, t.firstChainByBisection lo hi = .error fault := by
  have positions : ∀ p, LookedUp t.ranges p (t.chainAtByBisection p) := by
    intro p
    rw [wf.chainAtByBisection_eq, wf.chainAt_eq]
    exact lookedUp_labelIn wf.inOrder p
  have windows : ∀ lo hi, lo < hi →
      FirstLabel t.chainAtByBisection lo hi (t.firstChainIn lo hi) := by
    intro lo hi ordered
    rw [funext wf.chainAtByBisection_eq, firstChainIn_eq wf ordered]
    exact firstLabel_findSome? t.chainAt lo hi
  constructor
  · exact fun p => ⟨wf.chainAtByBisection_eq p, positions p⟩
  constructor
  · intro lo hi ordered bounded
    have first : lo ≤ Position.last := by omega
    exact ⟨wf.firstChainByBisection_eq first bounded, windows lo hi ordered⟩
  · exact fun lo hi => firstChainByBisection_eq_error

/-- Look-ups at a gap, where two ranges touch and behind the last range, and in windows that start in
a gap or lie within one. -/
theorem bisection_finds_touching :
    let read : Chain := .ofSource { name := "read" } 0
    let join : Chain := .ofSource { name := "join" } 1
    let t := ofList (Range.span 2 4 read ++ Range.span 6 9 join ++ Range.span 9 10 read)
    t.WellFormed ∧ t.chainAtByBisection 5 = none ∧ t.chainAtByBisection 8 = some join ∧
      t.chainAtByBisection 9 = some read ∧ t.chainAtByBisection 10 = none ∧
      LookedUp t.ranges 9 (some read) ∧ 4 < 10 ∧ 10 ≤ Position.last ∧
      t.firstChainByBisection 4 10 = .ok (some join) ∧
      FirstLabel t.chainAtByBisection 4 10 (some join) ∧
      4 < 6 ∧ 6 ≤ Position.last ∧ t.firstChainByBisection 4 6 = .ok none := by
  intro read join t
  have wf : t.WellFormed := by decide
  have bounds : 10 ≤ Position.last ∧ 6 ≤ Position.last := by decide
  obtain ⟨positions, windows, -⟩ := bisection_finds wf
  obtain ⟨reaching, first⟩ := windows 4 10 (by decide) bounds.1
  obtain ⟨short, -⟩ := windows 4 6 (by decide) bounds.2
  obtain ⟨at9, scan9⟩ := positions 9
  rw [at9] at scan9
  exact ⟨wf, (positions 5).1, (positions 8).1, at9, (positions 10).1, scan9, by decide, bounds.1,
    reaching, first, by decide, bounds.2, short⟩

end Taint

end TextProvenance
