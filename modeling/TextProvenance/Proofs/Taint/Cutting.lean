import TextProvenance.Proofs.Taint.Canonical
import TextProvenance.Proofs.Taint.Splice
import TextProvenance.Proofs.Taint.Window

/-!
# Cutting and joining taint

A window of taint has the chains of its positions, and a window of a window is a window
(`Taint.subtaint_window`).  What has been joined can be cut apart again, and what has been cut apart
can be joined again (`Taint.concatOf_cut`).

All of it is said of functions on positions first (`windowLabel`, `joinedLabel`): well-formed taint
is canonical, so it does not matter that cutting splits ranges and that joining merges them.
`Taint.subtaintInWords_eq` says that no difference of positions leaves its machine word when a
window is cut.
-/

namespace TextProvenance

variable {r : Range} {ranges : List Range} {start stop : Nat}

/-! ## In machine words -/

/-- A range that overlaps a window stops behind the start of it, so both differences are positions.
Its part is empty if the window is. -/
theorem Range.inWindowInWords_of_overlaps (ordered : start ≤ stop)
    (overlaps : r.Overlaps start stop) :
    ∃ x, r.inWindowInWords start stop = .ok x ∧
      [x].filter (fun x => ¬ x.IsEmpty) = r.inWindow start stop := by
  have bounded := r.stop_le_last
  have filled := r.start_le_stop
  rcases overlaps with ⟨starts, stops⟩
  have ordered' : max r.start start - start ≤ min r.stop stop - start := by omega
  have bounded' : min r.stop stop - start ≤ Position.last := by omega
  refine ⟨⟨_, _, r.chain, ordered', bounded'⟩, ?_, ?_⟩
  · rw [Range.inWindowInWords, Position.difference_eq_ok (by omega),
      Position.difference_eq_ok (by omega)]
    exact Range.ofBounds_eq_ok ordered' bounded'
  · rw [Range.inWindow]
    rcases Nat.lt_or_eq_of_le ordered' with inside | isEmpty
    · rw [Range.span_of_lt inside bounded']
      exact List.filter_cons_of_pos (decide_eq_true (Nat.ne_of_lt inside))
    · rw [Range.span_of_le (Nat.le_of_eq isEmpty.symm)]
      exact List.filter_cons_of_neg fun filled => of_decide_eq_true filled isEmpty

theorem Range.inWindow_of_not_overlaps (apart : ¬ r.Overlaps start stop) :
    r.inWindow start stop = [] := by
  unfold Range.Overlaps at apart
  exact Range.span_of_le (by omega)

theorem mapM_inWindowInWords (ordered : start ≤ stop) (ranges : List Range) :
    ∃ parts, (ranges.filter fun r => decide (r.Overlaps start stop)).mapM
        (·.inWindowInWords start stop) = .ok parts ∧
      parts.filter (fun x => ¬ x.IsEmpty) = ranges.flatMap (·.inWindow start stop) := by
  induction ranges with
  | nil => exact ⟨[], rfl, rfl⟩
  | cons r rest ih =>
    obtain ⟨parts, others, filled⟩ := ih
    by_cases overlaps : r.Overlaps start stop
    · obtain ⟨x, first, part⟩ := Range.inWindowInWords_of_overlaps ordered overlaps
      refine ⟨x :: parts, ?_, ?_⟩
      · rw [List.filter_cons_of_pos (by simpa using overlaps), List.mapM_cons, first, others]
        rfl
      · rw [List.flatMap_cons, ← part, ← filled, ← List.filter_append, List.singleton_append]
    · refine ⟨parts, ?_, ?_⟩
      · rw [List.filter_cons_of_neg (by simpa using overlaps), others]
      · rw [List.flatMap_cons, Range.inWindow_of_not_overlaps overlaps, filled, List.nil_append]

namespace Taint

variable {t left right : Taint} {label other : Nat → Option Chain} {x y z m n p : Nat}

/-- Cutting a window in machine words is cutting it. -/
theorem subtaintInWords_eq (t : Taint) (start stop : Nat) :
    t.subtaintInWords start stop = t.subtaint start stop := by
  unfold subtaintInWords subtaint checkWindow
  by_cases ordered : start ≤ stop
  · obtain ⟨parts, ok, filled⟩ := mapM_inWindowInWords ordered t.ranges
    rw [if_pos ordered]
    simp only [ok, bind, Except.bind]
    rw [← filled, ofRanges_filter_filled]
  · rw [if_neg ordered]
    rfl

/-! ## Windows and joints of functions on positions -/

theorem windowLabel_window {lo hi : Nat} (inside : hi ≤ stop - start) (p : Nat) :
    windowLabel lo hi (windowLabel start stop label) p =
      windowLabel (start + lo) (start + hi) label p := by
  unfold windowLabel
  by_cases within : p < hi - lo
  · rw [if_pos within, if_pos (by omega), if_pos (by omega), Nat.add_assoc]
  · rw [if_neg within, if_neg (by omega)]

/-- Two windows that meet, joined, are one. -/
theorem joinedLabel_window (first : x ≤ y) (second : y ≤ z) (p : Nat) :
    joinedLabel (y - x) (windowLabel x y label) (windowLabel y z label) p =
      windowLabel x z label p := by
  unfold joinedLabel windowLabel
  by_cases early : p < y - x
  · rw [if_pos early, if_pos early, if_pos (by omega)]
  · rw [if_neg early]
    by_cases within : p < z - x
    · rw [if_pos (by omega), if_pos within, show y + (p - (y - x)) = x + p by omega]
    · rw [if_neg (by omega), if_neg within]

/-- The window of a whole text. -/
theorem windowLabel_whole (clean : ∀ p, n ≤ p → label p = none) (p : Nat) :
    windowLabel 0 n label p = label p := by
  unfold windowLabel
  rw [Nat.sub_zero, Nat.zero_add]
  by_cases early : p < n
  · rw [if_pos early]
  · rw [if_neg early, clean p (Nat.le_of_not_lt early)]

theorem windowLabel_joined_left (p : Nat) :
    windowLabel 0 m (joinedLabel m label other) p = windowLabel 0 m label p := by
  unfold windowLabel joinedLabel
  rw [Nat.sub_zero, Nat.zero_add]
  by_cases early : p < m
  · rw [if_pos early, if_pos early, if_pos early]
  · rw [if_neg early, if_neg early]

theorem windowLabel_joined_right (p : Nat) :
    windowLabel m (m + n) (joinedLabel m label other) p = windowLabel 0 n other p := by
  unfold windowLabel joinedLabel
  rw [if_neg (show ¬ m + p < m by omega)]
  simp only [Nat.add_sub_cancel_left, Nat.sub_zero, Nat.zero_add]

/-! ## Windows of taint -/

/-- What a window holds is known by its labels. -/
theorem subtaint_eq_ok {w : Taint} (wf : t.WellFormed) (ordered : start ≤ stop)
    (labels : w.HasLabels (windowLabel start stop t.chainAt)) : t.subtaint start stop = .ok w :=
  labels.eq_ok (subtaint_spec wf ordered)

/-- **A window of taint has the chains of its positions, and windows compose.**  Cutting works in
machine words too, and a window of a window is the window that starts and stops as much later. -/
theorem subtaint_window (wf : t.WellFormed) (ordered : start ≤ stop) :
    ∃ w, t.subtaint start stop = .ok w ∧ t.subtaintInWords start stop = .ok w ∧ w.WellFormed ∧
      (∀ p, w.chainAt p = if p < stop - start then t.chainAt (start + p) else none) ∧
      ∀ lo hi, lo ≤ hi → hi ≤ stop - start →
        ∃ v, w.subtaint lo hi = .ok v ∧ t.subtaint (start + lo) (start + hi) = .ok v := by
  obtain ⟨w, ok, labels⟩ := subtaint_spec wf ordered
  refine ⟨w, ok, (subtaintInWords_eq t start stop).trans ok, labels.wellFormed, labels.chainAt,
    fun lo hi ordered' inside => ?_⟩
  obtain ⟨v, ok', labels'⟩ := subtaint_spec labels.wellFormed ordered'
  have labels'' : v.HasLabels (windowLabel (start + lo) (start + hi) t.chainAt) :=
    labels'.congr fun p => by rw [funext labels.chainAt, windowLabel_window inside]
  exact ⟨v, ok', subtaint_eq_ok wf (Nat.add_le_add_left ordered' start) labels''⟩

/-- A window that cuts two ranges, a window in it, and an empty window that is inside of a range. -/
theorem subtaint_window_nested :
    let read : Chain := .ofSource { name := "read" } 0
    let join : Chain := .ofSource { name := "join" } 1
    let t := ofList (Range.span 0 3 read ++ Range.span 3 5 join ++ Range.span 7 9 read)
    t.WellFormed ∧ 2 ≤ 8 ∧ ∃ w, t.subtaintInWords 2 8 = .ok w ∧
      w.chainAt 0 = some read ∧ w.chainAt 3 = none ∧ w.chainAt 5 = some read ∧ w.chainAt 6 = none ∧
      (∃ v, w.subtaint 1 5 = .ok v ∧ t.subtaint 3 7 = .ok v) ∧
      ∃ v, w.subtaint 6 6 = .ok v ∧ t.subtaint 8 8 = .ok v := by
  intro read join t
  have wf : t.WellFormed := by decide
  have ordered : 2 ≤ 8 := by decide
  obtain ⟨w, -, inWords, -, chains, windows⟩ := subtaint_window wf ordered
  exact ⟨wf, ordered, w, inWords, chains 0, chains 3, chains 5, chains 6,
    windows 1 5 (by decide) (by decide), windows 6 6 (by decide) (by decide)⟩

/-! ## Cutting and joining -/

/-- Joined taint can be cut apart where it was joined. -/
theorem cut_of_concatOf (wf : left.WellFormed) (wfRight : right.WellFormed) (late : left.stop ≤ m)
    (late' : right.stop ≤ n) (fits : m + n ≤ Position.last) :
    ∃ both, concatOf left m right = .ok both ∧ both.subtaint 0 m = .ok left ∧
      both.subtaint m (m + n) = .ok right := by
  obtain ⟨both, joined, labels⟩ := concatOf_spec wf wfRight late (by omega)
  refine ⟨both, joined, ?_, ?_⟩
  · refine subtaint_eq_ok labels.wellFormed (Nat.zero_le m) ⟨wf, fun p => ?_⟩
    rw [funext labels.chainAt, windowLabel_joined_left, windowLabel_whole (wf.stop_le_iff.mp late)]
  · refine subtaint_eq_ok labels.wellFormed (Nat.le_add_right m n) ⟨wfRight, fun p => ?_⟩
    rw [funext labels.chainAt, windowLabel_joined_right,
      windowLabel_whole (wfRight.stop_le_iff.mp late')]

/-- Two windows that meet can be joined to the window around both. -/
theorem concatOf_of_cut (wf : t.WellFormed) (first : x ≤ y) (second : y ≤ z)
    (bounded : z ≤ Position.last) :
    ∃ front back both, t.subtaint x y = .ok front ∧ t.subtaint y z = .ok back ∧
      concatOf front (y - x) back = .ok both ∧ t.subtaint x z = .ok both := by
  obtain ⟨front, cut, labels⟩ := subtaint_spec wf first
  obtain ⟨back, cut', labels'⟩ := subtaint_spec wf second
  have late := labels.stop_le_of_window
  have late' := labels'.stop_le_of_window
  obtain ⟨both, joined, labels''⟩ :=
    concatOf_spec labels.wellFormed labels'.wellFormed late (by omega)
  refine ⟨front, back, both, cut, cut', joined,
    subtaint_eq_ok wf (Nat.le_trans first second) (labels''.congr fun p => ?_)⟩
  rw [funext labels.chainAt, funext labels'.chainAt, joinedLabel_window first second]

/-- **Cutting and joining undo each other.**  Two pieces of taint that are joined can be cut out of
the whole again; two windows that meet can be joined to the window around both; and the window of a
whole text is its taint. -/
theorem concatOf_cut :
    (∀ (left right : Taint) (m n : Nat), left.WellFormed → right.WellFormed → left.stop ≤ m →
      right.stop ≤ n → m + n ≤ Position.last →
      ∃ both, concatOf left m right = .ok both ∧ both.subtaint 0 m = .ok left ∧
        both.subtaint m (m + n) = .ok right) ∧
    ∀ t : Taint, t.WellFormed →
      (∀ x y z, x ≤ y → y ≤ z → z ≤ Position.last →
        ∃ front back both, t.subtaint x y = .ok front ∧ t.subtaint y z = .ok back ∧
          concatOf front (y - x) back = .ok both ∧ t.subtaint x z = .ok both) ∧
      ∀ n, t.stop ≤ n → t.subtaint 0 n = .ok t := by
  refine ⟨fun left right m n wf wfRight => cut_of_concatOf wf wfRight, fun t wf =>
    ⟨fun x y z => concatOf_of_cut wf, fun n late => ?_⟩⟩
  refine subtaint_eq_ok wf (Nat.zero_le n) ⟨wf, fun p => ?_⟩
  rw [windowLabel_whole (wf.stop_le_iff.mp late)]

/-- Two ranges under one chain that meet where texts are joined become one range, which is cut apart
again there, and also where two windows of the whole meet. -/
theorem concatOf_cut_seam :
    let read : Chain := .ofSource { name := "read" } 0
    let join : Chain := .ofSource { name := "join" } 1
    let left := ofList (Range.span 0 2 join ++ Range.span 3 5 read)
    let right := ofList (Range.span 0 4 read)
    let both := ofList (Range.span 0 2 join ++ Range.span 3 9 read)
    left.WellFormed ∧ right.WellFormed ∧ left.stop ≤ 5 ∧ right.stop ≤ 4 ∧
      5 + 4 ≤ Position.last ∧ concatOf left 5 right = .ok both ∧
      both.subtaint 0 5 = .ok left ∧ both.subtaint 5 9 = .ok right ∧
      both.WellFormed ∧ (1 ≤ 7 ∧ 7 ≤ 8 ∧ 8 ≤ Position.last) ∧ both.stop ≤ 12 ∧
      (∃ front back whole, both.subtaint 1 7 = .ok front ∧ both.subtaint 7 8 = .ok back ∧
        concatOf front 6 back = .ok whole ∧ both.subtaint 1 8 = .ok whole) ∧
      both.subtaint 0 12 = .ok both := by
  intro read join left right both
  have wfs : left.WellFormed ∧ right.WellFormed ∧ both.WellFormed := by decide
  have stops : left.stop ≤ 5 ∧ right.stop ≤ 4 ∧ both.stop ≤ 12 := by decide
  have fits : 5 + 4 ≤ Position.last := by decide
  have bounds : 1 ≤ 7 ∧ 7 ≤ 8 ∧ 8 ≤ Position.last := by decide
  obtain ⟨both', joined, cut, cut'⟩ :=
    concatOf_cut.1 left right 5 4 wfs.1 wfs.2.1 stops.1 stops.2.1 fits
  obtain rfl : both' = both := Except.ok.inj (joined.symm.trans (by decide))
  obtain ⟨windows, whole⟩ := concatOf_cut.2 both wfs.2.2
  exact ⟨wfs.1, wfs.2.1, stops.1, stops.2.1, fits, joined, cut, cut', wfs.2.2, bounds, stops.2.2,
    windows 1 7 8 bounds.1 bounds.2.1 bounds.2.2, whole 12 stops.2.2⟩

end Taint

end TextProvenance
