import TextProvenance.Proofs.Edit
import TextProvenance.Proofs.Position
import TextProvenance.Proofs.Taint.Builder
import TextProvenance.Taint.Splice

/-!
# Moving and joining taint, position by position

For `Taint.concat`, `Taint.shift` and `Taint.insert`: under which conditions they succeed, which
chain every position has then, and that they fail if the conditions are not met.  The conditions
speak of positions and of where taint stops, never of single ranges, since how taint is cut into
ranges is of no consequence for them.
-/

namespace TextProvenance

/-! ## Moved ranges -/

/-- `x` is `r` with both bounds moved by `amount`. -/
structure Range.MovedBy (amount : Int) (r x : Range) : Prop where
  start : (x.start : Int) = r.start + amount
  stop : (x.stop : Int) = r.stop + amount
  chain : x.chain = r.chain

variable {r x : Range} {ranges moved : List Range} {index target offset p : Nat} {amount : Int}
  {outside : Nat → Fault}

theorem Range.moved_spec (outside : Nat → Fault) (starts : 0 ≤ r.start + amount)
    (stops : r.stop + amount ≤ Position.last) :
    ∃ x, r.moved amount outside = .ok x ∧ r.MovedBy amount x := by
  have ordered := r.start_le_stop
  have bounds : (r.start + amount).toNat ≤ (r.stop + amount).toNat ∧
      (r.stop + amount).toNat ≤ Position.last := by omega
  refine ⟨⟨_, _, r.chain, bounds.1, bounds.2⟩, ?_, ?_⟩
  · rw [Range.moved, Position.move_eq_ok starts (by omega), Position.move_eq_ok (by omega) stops]
    exact Range.ofBounds_eq_ok bounds.1 bounds.2
  · exact ⟨Int.toNat_of_nonneg starts, Int.toNat_of_nonneg (by omega), rfl⟩

theorem Range.moved_eq_error (outside : Nat → Fault)
    (leaves : r.start + amount < 0 ∨ Position.last < r.stop + amount) :
    ∃ fault, r.moved amount outside = .error fault := by
  rw [Range.moved]
  rcases leaves with low | high
  · obtain ⟨fault, start⟩ := Position.move_eq_error (outside r.start) (.inl low)
    exact ⟨fault, by rw [start]; rfl⟩
  · obtain ⟨fault, stop⟩ := Position.move_eq_error (outside r.stop) (.inr high)
    rw [stop]
    cases Position.move r.start amount (outside r.start) with
    | error first => exact ⟨first, rfl⟩
    | ok _ => exact ⟨fault, rfl⟩

theorem Range.MovedBy.label (movedBy : r.MovedBy offset x) (p : Nat) :
    x.label p = if offset ≤ p then r.label (p - offset) else none := by
  rcases movedBy with ⟨start, stop, chain⟩
  by_cases late : offset ≤ p
  · rw [if_pos late]
    unfold Range.label Range.Covers
    rw [chain]
    congr 1
    simp only [eq_iff_iff]
    omega
  · rw [if_neg late, Range.label_of_not_covers fun covers => by have := covers.1; omega]

/-- Ranges that stay within the positions are all moved. -/
theorem exists_shifted (offset : Nat) (fits : ∀ r ∈ ranges, r.stop + offset ≤ Position.last) :
    ∃ moved, ranges.mapM (·.shifted offset) = .ok moved ∧
      List.Forall₂ (Range.MovedBy offset) ranges moved := by
  induction ranges with
  | nil => exact ⟨[], rfl, .nil⟩
  | cons r rest ih =>
    have bounded := fits r (by simp)
    obtain ⟨x, first, movedBy⟩ := Range.moved_spec (r := r) (.rangeMovedOut offset)
      (show 0 ≤ r.start + (offset : Int) by omega) (by omega)
    rcases ih fun r mem => fits r (by simp [mem]) with ⟨xs, others, all⟩
    refine ⟨x :: xs, ?_, .cons movedBy all⟩
    rw [List.mapM_cons, Range.shifted, first, others]
    rfl

/-- Ranges that were all moved have stayed within the positions. -/
theorem movedBy_of_shifted (ok : ranges.mapM (·.shifted offset) = .ok moved) :
    List.Forall₂ (Range.MovedBy offset) ranges moved := by
  by_cases fits : ∀ r ∈ ranges, r.stop + offset ≤ Position.last
  · exact holds_of_eq_ok ok (exists_shifted offset fits)
  · push Not at fits
    obtain ⟨r, mem, beyond⟩ := fits
    have fails := mapM_eq_error (f := (·.shifted offset)) mem
      (Range.moved_eq_error _ (.inr (by omega)))
    exact absurd fails (not_error_of_eq_ok ok)

theorem label_forall₂_movedBy (all : List.Forall₂ (Range.MovedBy offset) ranges moved) :
    labelIn moved p = if offset ≤ p then labelIn ranges (p - offset) else none := by
  induction all with
  | nil => simp
  | cons first _ ih =>
    rw [labelIn_cons, labelIn_cons, first.label, ih]
    by_cases late : offset ≤ p <;> simp [late]

theorem inOrder_forall₂_movedBy (all : List.Forall₂ (Range.MovedBy offset) ranges moved)
    (order : InOrder ranges) : InOrder moved := by
  induction all with
  | nil => exact inOrder_nil
  | @cons r x rest xs first others ih =>
    rcases inOrder_cons.mp order with ⟨later, orderRest⟩
    refine inOrder_cons.mpr ⟨fun y mem => ?_, ih orderRest⟩
    obtain ⟨s, memRest, movedBy⟩ := exists_of_forall₂ others mem
    have := later s memRest
    have := first.stop
    have := movedBy.start
    omega

theorem stop_forall₂_movedBy (all : List.Forall₂ (Range.MovedBy offset) ranges moved)
    (mem : x ∈ moved) : ∃ r ∈ ranges, x.start = r.start + offset ∧ x.stop = r.stop + offset := by
  obtain ⟨r, memRanges, movedBy⟩ := exists_of_forall₂ all mem
  have start := movedBy.start
  have stop := movedBy.stop
  exact ⟨r, memRanges, by omega, by omega⟩

/-! ## Shifting -/

/-- The part of a range from `index` on, carried to `target`. -/
def Range.carried (r : Range) (index target : Nat) : List Range :=
  Range.span (max r.start index + target - index) (r.stop + target - index) r.chain

theorem Range.label_carried
    (fits : r.stop ≤ index ∨ r.stop + target - index ≤ Position.last) :
    labelIn (r.carried index target) p =
      if target ≤ p then r.label (p - target + index) else none := by
  unfold Range.carried
  by_cases early : r.stop ≤ index
  · have apart : ¬ r.Covers (p - target + index) := fun covers => by
      have := covers.2
      omega
    rw [Range.span_of_le (by omega), Range.label_of_not_covers apart, ite_self, labelIn_nil]
  · rw [Range.label_span (by omega)]
    unfold Range.label Range.Covers
    by_cases late : target ≤ p
    · rw [if_pos late]
      congr 1
      simp only [eq_iff_iff]
      omega
    · rw [if_neg late, if_neg (by omega)]

theorem Range.mapM_moved (outside : Nat → Fault) (reached : (index : Int) + amount = target)
    (fits : r.stop ≤ index ∨ r.stop + amount ≤ Position.last) :
    (r.after index).mapM (·.moved amount outside) = .ok (r.carried index target) := by
  have bounded := r.stop_le_last
  unfold Range.after Range.part Range.carried
  rw [Nat.min_eq_left bounded]
  by_cases inside : max r.start index < r.stop
  · obtain ⟨x, moved, start, stop, chain⟩ := Range.moved_spec outside
      (r := ⟨_, _, r.chain, Nat.le_of_lt inside, bounded⟩)
      (show 0 ≤ ((max r.start index : Nat) : Int) + amount by omega)
      (show r.stop + amount ≤ Position.last by omega)
    rw [Range.span_of_lt inside bounded, Range.span_of_lt (by omega) (by omega), List.mapM_cons,
      moved]
    refine congrArg (fun y => Except.ok [y]) ?_
    cases x
    simp only [Range.mk.injEq] at start stop chain ⊢
    exact ⟨by omega, by omega, chain⟩
  · rw [Range.span_of_le (by omega), Range.span_of_le (by omega)]
    rfl

theorem Range.shiftedFrom_eq_ok (reached : (index : Int) + amount = target)
    (fits : r.stop ≤ index ∨ r.stop + amount ≤ Position.last) :
    r.shiftedFrom index amount =
      .ok (r.before (min index target) ++ r.carried index target) := by
  have target' : (index + amount).toNat = target := by omega
  simp only [Range.shiftedFrom, Range.mapM_moved _ reached fits, target']
  rfl

theorem Range.shiftedFrom_eq_error (filled : r.start < r.stop) (late : index < r.stop)
    (leaves : Position.last < r.stop + amount) :
    ∃ fault, r.shiftedFrom index amount = .error fault := by
  have bounded := r.stop_le_last
  obtain ⟨fault, moved⟩ := Range.moved_eq_error
    (if index ≤ r.start then .rangeMovedOut amount else (.positionMovedOut · amount))
    (r := ⟨max r.start index, r.stop, r.chain, by omega, bounded⟩) (.inr leaves)
  refine ⟨fault, ?_⟩
  simp only [Range.shiftedFrom, Range.after, Range.part, Nat.min_eq_left bounded]
  rw [Range.span_of_lt (by omega) bounded, List.mapM_cons, moved]
  rfl

/-- The order of the pieces that `Range.shiftedFrom` makes of ranges in order. -/
theorem inOrder_shiftedFrom (index target : Nat) (order : InOrder ranges) :
    InOrder (ranges.flatMap fun r => r.before (min index target) ++ r.carried index target) := by
  refine inOrder_flatMap
    (fun r => if r.start < min index target then r.start else max r.start index + target - index)
    (fun r => if r.stop ≤ min index target then r.stop else max r.stop index + target - index)
    ?_ ?_ (order.imp fun {a b} _ => by split <;> split <;> omega)
  · intro r _
    refine inOrder_append.mpr ⟨inOrder_part .., inOrder_span .., fun a memA b memB => ?_⟩
    rcases Range.mem_span memA with ⟨-, -, stop, -⟩
    rcases Range.mem_span memB with ⟨start, -⟩
    omega
  · intro r _ x mem
    rcases List.mem_append.mp mem with kept | carried
    · rcases Range.mem_span kept with ⟨start, filled, stop, -⟩
      constructor <;> split <;> omega
    · rcases Range.mem_span carried with ⟨start, filled, stop, -⟩
      constructor <;> split <;> omega

namespace Taint

variable {t other : Taint}

/-- The chain of position `p` after positions from `index` on have moved to `target`.  What lies
between the two has gone if it has moved left, and is new if it has moved right. -/
def shiftedLabel (index target : Nat) (label : Nat → Option Chain) (p : Nat) : Option Chain :=
  if p < min index target then label p else if p < target then none else label (p - target + index)

theorem shiftedLabel_self (index : Nat) (label : Nat → Option Chain) (p : Nat) :
    shiftedLabel index index label p = label p := by
  unfold shiftedLabel
  split
  · rfl
  · rw [if_neg (by omega), Nat.sub_add_cancel (by omega)]

theorem shiftedLabel_of_clean {label : Nat → Option Chain} (clean : ∀ p, label p = none) :
    shiftedLabel index target label p = none := by
  simp [shiftedLabel, clean]

/-- The pieces of shifted ranges together label the positions as the ranges did before. -/
theorem labelIn_shiftedFrom
    (fits : ∀ r ∈ ranges, r.stop ≤ index ∨ r.stop + target - index ≤ Position.last) :
    labelIn (ranges.flatMap fun r => r.before (min index target) ++ r.carried index target) p =
      shiftedLabel index target (labelIn ranges) p := by
  have pieces : ∀ r ∈ ranges,
      labelIn (r.before (min index target) ++ r.carried index target) p =
        shiftedLabel index target r.label p := by
    intro r mem
    rw [labelIn_append, Range.label_before, Range.label_carried (fits r mem), shiftedLabel]
    by_cases early : p < min index target
    · simp [early, show ¬ target ≤ p by omega]
    · by_cases late : target ≤ p <;> simp [early, late]
  unfold shiftedLabel at pieces ⊢
  split
  · exact labelIn_flatMap fun r mem => by rw [pieces r mem, if_pos ‹_›]
  · split
    · exact labelIn_flatMap_eq_none fun r mem => by rw [pieces r mem, if_neg ‹_›, if_pos ‹_›]
    · exact labelIn_flatMap fun r mem => by rw [pieces r mem, if_neg ‹_›, if_neg ‹_›]

/-- Taint is shifted unless it would leave the positions. -/
theorem shift_spec (wf : t.WellFormed) (reached : (index : Int) + amount = target)
    (word : Position.FitsWord (index + amount))
    (fits : t.stop ≤ index ∨ t.stop + amount ≤ Position.last) :
    ∃ t', t.shift index amount = .ok t' ∧
      t'.HasLabels (shiftedLabel index target t.chainAt) := by
  have sum : Position.sum index amount = .ok (index + amount) := if_pos word
  unfold shift
  simp only [sum, bind, Except.bind]
  rw [if_neg (by omega)]
  by_cases nothing : ¬ t.isTainted ∨ amount = 0
  · rw [if_pos nothing]
    refine ⟨t, rfl, wf, fun p => ?_⟩
    rcases nothing with untainted | still
    · have clean := wf.chainAt_of_not_isTainted untainted
      rw [clean, shiftedLabel_of_clean clean]
    · obtain rfl : index = target := by omega
      rw [shiftedLabel_self]
  · rw [if_neg nothing]
    have fitsEach : ∀ r ∈ t.ranges, r.stop ≤ index ∨ r.stop + amount ≤ Position.last := by
      intro r mem
      have := wf.stop_le_stop mem
      omega
    rw [mapM_eq_ok fun r mem => Range.shiftedFrom_eq_ok reached (fitsEach r mem)]
    simp only [← List.flatMap_def]
    obtain ⟨t', ok, labels⟩ := ofRanges_spec (inOrder_shiftedFrom index target wf.inOrder)
    refine ⟨t', ok, labels.wellFormed, fun p => ?_⟩
    rw [labels.chainAt, labelIn_shiftedFrom fun r mem => by have := fitsEach r mem; omega]
    exact congrArg (shiftedLabel index target · p) (funext wf.chainAt_eq).symm

theorem shift_eq_error (wf : t.WellFormed)
    (leaves : ¬ Position.FitsWord (index + amount) ∨ index + amount < 0 ∨
      index < t.stop ∧ Position.last < t.stop + amount) :
    ∃ fault, t.shift index amount = .error fault := by
  unfold shift
  by_cases word : Position.FitsWord (index + amount)
  · have sum : Position.sum index amount = .ok (index + amount) := if_pos word
    simp only [sum, bind, Except.bind]
    by_cases before : index + amount < 0
    · exact ⟨_, if_pos before⟩
    · obtain ⟨late, beyond⟩ : index < t.stop ∧ Position.last < t.stop + amount := by tauto
      have bounded := t.stop_le_last
      rcases (stop_eq_zero_or_exists t).resolve_left (by omega) with ⟨r, mem, stop⟩
      have tainted : t.isTainted = true := by
        have filled := wf.start_lt_stop mem
        exact wf.isTainted_iff.mpr ⟨r.start, wf.chainAt_of_mem mem ⟨Nat.le_refl _, filled⟩⟩
      obtain ⟨fault, pieces⟩ := mapM_eq_error (f := (·.shiftedFrom index amount)) mem
        (Range.shiftedFrom_eq_error (wf.start_lt_stop mem) (stop ▸ late) (stop ▸ beyond))
      refine ⟨fault, ?_⟩
      rw [if_neg before, if_neg (by simp only [tainted, not_true, false_or]; omega), pieces]
  · have sum : Position.sum index amount = .error .overflow := if_neg word
    exact ⟨.overflow, by rw [sum]; rfl⟩

theorem labels_of_shift (wf : t.WellFormed) {t' : Taint} (ok : t.shift index amount = .ok t') :
    ∃ target : Nat, (index : Int) + amount = target ∧
      t'.HasLabels (shiftedLabel index target t.chainAt) := by
  by_cases leaves : ¬ Position.FitsWord (index + amount) ∨ index + amount < 0 ∨
      index < t.stop ∧ Position.last < t.stop + amount
  · exact absurd (shift_eq_error wf leaves) (not_error_of_eq_ok ok)
  · have reached : (index : Int) + amount = (index + amount).toNat :=
      (Int.toNat_of_nonneg (by omega)).symm
    exact ⟨_, reached, .of_eq_ok ok (shift_spec wf reached (by tauto) (by omega))⟩

/-- Where positions have been moved to the right, there is a gap. -/
theorem chainAt_of_shift (wf : t.WellFormed) {t' : Taint} (right : 0 < amount)
    (ok : t.shift index amount = .ok t') : t'.chainAt index = none := by
  rcases labels_of_shift wf ok with ⟨target, reached, labels⟩
  rw [labels.chainAt, shiftedLabel, if_neg (by omega), if_pos (by omega)]

/-! ## Joining -/

/-- Ranges in order behind the taint are all appended. -/
theorem forEach_append_spec (wf : t.WellFormed) (order : InOrder ranges)
    (late : ∀ r ∈ ranges, t.stop ≤ r.start) :
    ∃ t', Edit.forEach ranges (fun r => Edit.step (·.append r)) t = { state := t' } ∧
      t'.HasLabels fun p => (t.chainAt p).or (labelIn ranges p) := by
  induction ranges generalizing t with
  | nil => exact ⟨t, rfl, wf, fun p => by simp⟩
  | cons r rest ih =>
    rcases inOrder_cons.mp order with ⟨later, orderRest⟩
    obtain ⟨middle, first, labels, stop⟩ := append_spec wf (.inr (late r (by simp)))
    have lateRest : ∀ x ∈ rest, middle.stop ≤ x.start := by
      intro x mem
      rw [stop]
      split
      · exact late x (by simp [mem])
      · exact later x mem
    rcases ih labels.wellFormed orderRest lateRest with ⟨t', others, labels'⟩
    refine ⟨t', ?_, labels'.wellFormed, fun p => ?_⟩
    · rw [Edit.forEach_cons, Edit.andThen_of_done (Edit.step_of_ok first), others]
    · rw [labels'.chainAt, labels.chainAt, labelIn_cons, Option.or_assoc]

/-- The chain of position `p` of a text, `offset` long, with another behind it. -/
def joinedLabel (offset : Nat) (left right : Nat → Option Chain) (p : Nat) : Option Chain :=
  if p < offset then left p else right (p - offset)

/-- Once all ranges of other taint have been moved behind the taint, none of them is refused. -/
theorem forEach_append_moved (wf : t.WellFormed) (wfOther : other.WellFormed)
    (late : t.stop ≤ offset) (all : List.Forall₂ (Range.MovedBy offset) other.ranges moved) :
    ∃ t', Edit.forEach moved (fun r => Edit.step (·.append r)) t = { state := t' } ∧
      t'.HasLabels (joinedLabel offset t.chainAt other.chainAt) := by
  have behind : ∀ x ∈ moved, t.stop ≤ x.start := by
    intro x mem
    rcases stop_forall₂_movedBy all mem with ⟨r, -, start, -⟩
    omega
  obtain ⟨t', run, labels⟩ :=
    forEach_append_spec wf (inOrder_forall₂_movedBy all wfOther.inOrder) behind
  refine ⟨t', run, labels.wellFormed, fun p => ?_⟩
  rw [labels.chainAt, label_forall₂_movedBy all, joinedLabel]
  by_cases early : p < offset
  · rw [if_neg (by omega), if_pos early, Option.or_none]
  · have clean := wf.stop_le_iff.mp late p (by omega)
    rw [if_pos (by omega), if_neg early, clean, Option.none_or, wfOther.chainAt_eq]

theorem concat_spec (wf : t.WellFormed) (wfOther : other.WellFormed) (late : t.stop ≤ offset)
    (fits : other.stop + offset ≤ Position.last) :
    ∃ t', concat other offset t = { state := t' } ∧
      t'.HasLabels (joinedLabel offset t.chainAt other.chainAt) := by
  have fitsEach : ∀ r ∈ other.ranges, r.stop + offset ≤ Position.last := fun r mem => by
    have := wfOther.stop_le_stop mem
    omega
  obtain ⟨moved, ok, all⟩ := exists_shifted offset fitsEach
  obtain ⟨t', run, labels⟩ := forEach_append_moved wf wfOther late all
  refine ⟨t', ?_, labels⟩
  unfold concat
  rw [if_neg (by omega), ok]
  exact run

theorem concatOf_spec (wf : t.WellFormed) (wfOther : other.WellFormed) (late : t.stop ≤ offset)
    (fits : other.stop + offset ≤ Position.last) :
    ∃ t', concatOf t offset other = .ok t' ∧
      t'.HasLabels (joinedLabel offset t.chainAt other.chainAt) := by
  obtain ⟨t', done, labels⟩ := concat_spec wf wfOther late fits
  exact ⟨t', Edit.result_of_done done, labels⟩

theorem exists_shifted_eq_error (bounded : offset ≤ Position.last)
    (leaves : Position.last < t.stop + offset) :
    ∃ fault, t.ranges.mapM (·.shifted offset) = .error fault := by
  rcases (stop_eq_zero_or_exists t).resolve_left (by omega) with ⟨r, mem, stop⟩
  exact mapM_eq_error (f := (·.shifted offset)) mem
    (Range.moved_eq_error _ (.inr (by omega)))

theorem concat_eq_error (bounded : offset ≤ Position.last)
    (leaves : offset < t.stop ∨ Position.last < other.stop + offset) :
    ∃ fault, concat other offset t = { state := t, fault := some fault } := by
  unfold concat
  by_cases early : offset < t.stop
  · exact ⟨_, if_pos early⟩
  · obtain ⟨fault, moved⟩ := exists_shifted_eq_error bounded
      (leaves.resolve_left early)
    exact ⟨fault, by rw [if_neg early, moved]; rfl⟩

theorem labels_of_concat (wf : t.WellFormed) (wfOther : other.WellFormed)
    (bounded : offset ≤ Position.last) {t' : Taint}
    (done : concat other offset t = { state := t' }) :
    t'.HasLabels (joinedLabel offset t.chainAt other.chainAt) := by
  by_cases leaves : offset < t.stop ∨ Position.last < other.stop + offset
  · obtain ⟨fault, fails⟩ := concat_eq_error bounded leaves
    rw [done] at fails
    cases fails
  · have late : t.stop ≤ offset := by omega
    obtain ⟨t'', done', labels⟩ := concat_spec wf wfOther late (by omega)
    rw [done] at done'
    cases done'
    exact labels

/-! ## Inserting -/

/-- No range lies across the position. -/
def Uncrossed (t : Taint) (index : Nat) : Prop :=
  ∀ r ∈ t.ranges, r.start < index → r.stop ≤ index

theorem WellFormed.uncrossed_of_gap (wf : t.WellFormed) (gap : t.chainAt index = none) :
    t.Uncrossed index := by
  intro r mem early
  by_contra crosses
  exact wf.chainAt_of_mem mem ⟨by omega, by omega⟩ gap

/-- The ranges in front of a position that none lies across stop there at the latest. -/
theorem stop_le_of_mem_takeWhile (uncrossed : t.Uncrossed index)
    (mem : r ∈ t.ranges.takeWhile (·.start < index)) : r.stop ≤ index := by
  have early : r.start < index := by simpa using List.all_eq_true.mp List.all_takeWhile r mem
  exact uncrossed r (List.takeWhile_subset _ mem) early

theorem le_start_of_mem_dropWhile (order : InOrder ranges)
    (mem : r ∈ ranges.dropWhile (·.start < index)) : index ≤ r.start := by
  induction ranges with
  | nil => cases mem
  | cons x rest ih =>
    rcases inOrder_cons.mp order with ⟨later, orderRest⟩
    by_cases early : x.start < index
    · rw [List.dropWhile_cons_of_pos (by simpa using early)] at mem
      exact ih orderRest mem
    · rw [List.dropWhile_cons_of_neg (by simpa using early)] at mem
      rcases List.mem_cons.mp mem with rfl | mem
      · omega
      · have := later r mem
        have := x.start_le_stop
        omega

/-- A range is in front of a position or behind it. -/
theorem mem_takeWhile_or_mem_dropWhile (mem : r ∈ ranges) (index : Nat) :
    r ∈ ranges.takeWhile (·.start < index) ∨ r ∈ ranges.dropWhile (·.start < index) :=
  List.mem_append.mp (by rwa [List.takeWhile_append_dropWhile])

theorem label_takeWhile (wf : t.WellFormed) (uncrossed : t.Uncrossed index) (p : Nat) :
    labelIn (t.ranges.takeWhile (·.start < index)) p =
      if p < index then t.chainAt p else none := by
  by_cases early : p < index
  · have back : labelIn (t.ranges.dropWhile (·.start < index)) p = none := by
      refine labelIn_eq_none_iff.mpr fun r mem covers => ?_
      have := le_start_of_mem_dropWhile wf.inOrder mem
      have := covers.1
      omega
    have both := labelIn_append (t.ranges.takeWhile (·.start < index))
      (t.ranges.dropWhile (·.start < index)) (p := p)
    rw [List.takeWhile_append_dropWhile, back, Option.or_none] at both
    rw [if_pos early, wf.chainAt_eq, both]
  · rw [if_neg early]
    refine labelIn_eq_none_iff.mpr fun r mem covers => ?_
    have := stop_le_of_mem_takeWhile uncrossed mem
    have := covers.2
    omega

theorem label_dropWhile (wf : t.WellFormed) (uncrossed : t.Uncrossed index) (late : index ≤ p) :
    labelIn (t.ranges.dropWhile (·.start < index)) p = t.chainAt p := by
  have both := labelIn_append (t.ranges.takeWhile (·.start < index))
    (t.ranges.dropWhile (·.start < index)) (p := p)
  rw [List.takeWhile_append_dropWhile, label_takeWhile wf uncrossed, if_neg (by omega),
    Option.none_or] at both
  rw [wf.chainAt_eq, both]

theorem rangesBefore_eq_ok (uncrossed : t.Uncrossed index) :
    t.rangesBefore index = .ok (t.ranges.takeWhile (·.start < index)) := by
  have inFront : (t.ranges.takeWhile (·.start < index)).find? (index < ·.stop) = none := by
    refine List.find?_eq_none.mpr fun r mem => ?_
    simpa using stop_le_of_mem_takeWhile uncrossed mem
  simp only [rangesBefore, inFront]

theorem rangesBefore_eq_error (wf : t.WellFormed) (mem : r ∈ t.ranges) (starts : r.start < index)
    (crosses : index < r.stop) : ∃ fault, t.rangesBefore index = .error fault := by
  have inFront : r ∈ t.ranges.takeWhile (·.start < index) := by
    rcases mem_takeWhile_or_mem_dropWhile mem index with inFront | behind
    · exact inFront
    · have := le_start_of_mem_dropWhile wf.inOrder behind
      omega
  have crossed : (t.ranges.takeWhile (·.start < index)).find? (index < ·.stop) ≠ none := by
    intro nothing
    have stops := List.find?_eq_none.mp nothing r inFront
    simp only [decide_eq_true_eq] at stops
    exact stops crosses
  rcases Option.ne_none_iff_exists'.mp crossed with ⟨x, found⟩
  exact ⟨.crossesInsertion x.start x.stop index, by simp only [rangesBefore, found]⟩

theorem rangesFrom_eq_ok {blockEnd : Nat}
    (behind : ∀ r ∈ t.ranges.dropWhile (·.start < index), blockEnd ≤ r.start) :
    t.rangesFrom index blockEnd = .ok (t.ranges.dropWhile (·.start < index)) := by
  have inBlock : (t.ranges.dropWhile (·.start < index)).find? (·.start < blockEnd) = none := by
    refine List.find?_eq_none.mpr fun r mem => ?_
    simpa using behind r mem
  simp only [rangesFrom, inBlock]

theorem rangesFrom_eq_error {blockEnd : Nat} (mem : r ∈ t.ranges.dropWhile (·.start < index))
    (inside : r.start < blockEnd) : ∃ fault, t.rangesFrom index blockEnd = .error fault := by
  have inBlock : (t.ranges.dropWhile (·.start < index)).find? (·.start < blockEnd) ≠ none := by
    intro nothing
    have late := List.find?_eq_none.mp nothing r mem
    simp only [decide_eq_true_eq] at late
    omega
  rcases Option.ne_none_iff_exists'.mp inBlock with ⟨x, found⟩
  exact ⟨.overlapsInserted x.start x.stop blockEnd, by simp only [rangesFrom, found]⟩

/-- A block that ends in other taint, moved to `index`, stops where that does. -/
theorem max_stop_of_joined {b : Builder} {label : Nat → Option Chain} (canonical : b.Canonical)
    (wfOther : other.WellFormed)
    (joined : ∀ p, b.label p = joinedLabel index label other.chainAt p) :
    max b.stop index = index + other.stop := by
  have wfBuilt := canonical.wellFormed_finish
  have stops : b.stop ≤ index + other.stop := by
    rw [← Builder.stop_finish, wfBuilt.stop_le_iff]
    intro p late
    rw [canonical.chainAt_finish, joined, joinedLabel, if_neg (by omega)]
    exact wfOther.stop_le_iff.mp (Nat.le_refl _) _ (by omega)
  rcases Nat.eq_zero_or_pos other.stop with zero | positive
  · omega
  · have final := wfOther.chainAt_stop positive
    have reaches : index + other.stop - 1 < b.finish.stop := by
      apply wfBuilt.lt_stop
      rw [canonical.chainAt_finish, joined, joinedLabel, if_neg (by omega)]
      rwa [show index + other.stop - 1 - index = other.stop - 1 by omega]
    rw [Builder.stop_finish] at reaches
    omega

/-- The first half of `Taint.insert`: what is in front of a position that no range lies across, and
other taint moved there.  The block ends where the other taint stops. -/
theorem exists_pushAll_moved (wf : t.WellFormed) (wfOther : other.WellFormed)
    (uncrossed : t.Uncrossed index) (fits : other.stop + index ≤ Position.last) :
    ∃ moved b, other.ranges.mapM (·.shifted index) = .ok moved ∧
      Builder.empty.pushAll (t.ranges.takeWhile (·.start < index) ++ moved) = .ok b ∧
      b.Canonical ∧ (∀ p, b.label p = joinedLabel index t.chainAt other.chainAt p) ∧
      max b.stop index = index + other.stop := by
  have fitsEach : ∀ r ∈ other.ranges, r.stop + index ≤ Position.last := fun r mem => by
    have := wfOther.stop_le_stop mem
    omega
  obtain ⟨moved, ok, all⟩ := exists_shifted index fitsEach
  have order : InOrder (t.ranges.takeWhile (·.start < index) ++ moved) := by
    refine inOrder_append.mpr ⟨wf.inOrder.sublist (List.takeWhile_sublist _),
      inOrder_forall₂_movedBy all wfOther.inOrder, fun a memA b memB => ?_⟩
    have := stop_le_of_mem_takeWhile uncrossed memA
    rcases stop_forall₂_movedBy all memB with ⟨r, -, start, -⟩
    omega
  obtain ⟨b, run⟩ := Builder.exists_pushAll (b := .empty) order fun _ _ => Nat.zero_le _
  have canonical := Builder.pushAll_canonical Builder.canonical_empty run
  have label : ∀ p, b.label p = joinedLabel index t.chainAt other.chainAt p := by
    intro p
    have empty : Builder.empty.label p = none := rfl
    rw [Builder.label_pushAll run, empty, Option.none_or, labelIn_append,
      label_forall₂_movedBy all, label_takeWhile wf uncrossed, joinedLabel, wfOther.chainAt_eq]
    by_cases early : p < index
    · rw [if_pos early, if_neg (by omega), if_pos early, Option.or_none]
    · rw [if_neg early, if_pos (by omega), if_neg early, Option.none_or]
  exact ⟨moved, b, ok, run, canonical, label, max_stop_of_joined canonical wfOther label⟩

/-- The chain of position `p` after taint has been inserted, which stops after `length`. -/
def insertedLabel (index length : Nat) (label inserted : Nat → Option Chain) (p : Nat) :
    Option Chain :=
  if p < index then label p else if p < index + length then inserted (p - index) else label p

/-- Taint is inserted at a position that no range lies across if no range starts among the positions
that it will cover. -/
theorem exists_insert (wf : t.WellFormed) (wfOther : other.WellFormed)
    (uncrossed : t.Uncrossed index) (fits : other.stop + index ≤ Position.last)
    (room : ∀ r ∈ t.ranges, index ≤ r.start → index + other.stop ≤ r.start) :
    ∃ t', t.insert index other = .ok t' ∧
      t'.HasLabels (insertedLabel index other.stop t.chainAt other.chainAt) := by
  obtain ⟨moved, b, ok, run, canonical, label, blockEnd⟩ :=
    exists_pushAll_moved wf wfOther uncrossed fits
  have behind : ∀ r ∈ t.ranges.dropWhile (·.start < index), index + other.stop ≤ r.start :=
    fun r mem => room r (List.dropWhile_subset _ mem) (le_start_of_mem_dropWhile wf.inOrder mem)
  have clean : ∀ p, p < index + other.stop →
      labelIn (t.ranges.dropWhile (·.start < index)) p = none := by
    intro p early
    refine labelIn_eq_none_iff.mpr fun r mem covers => ?_
    have := behind r mem
    have := covers.1
    omega
  have back := rangesFrom_eq_ok (blockEnd ▸ behind)
  obtain ⟨b', run'⟩ := Builder.exists_pushAll
    (wf.inOrder.sublist (List.dropWhile_sublist (·.start < index)))
    (fun r mem => show b.stop ≤ r.start by have := behind r mem; omega)
  have canonical' := Builder.pushAll_canonical canonical run'
  refine ⟨b'.finish, ?_, canonical'.wellFormed_finish, fun p => ?_⟩
  · unfold insert
    simp only [rangesBefore_eq_ok uncrossed, ok, run, back, run', bind, Except.bind]
    rfl
  · rw [canonical'.chainAt_finish, Builder.label_pushAll run', label, joinedLabel, insertedLabel]
    by_cases early : p < index
    · rw [if_pos early, if_pos early, clean p (by omega), Option.or_none]
    · rw [if_neg early, if_neg early]
      by_cases inside : p < index + other.stop
      · rw [if_pos inside, clean p inside, Option.or_none]
      · have stops := wfOther.stop_le_iff.mp (Nat.le_refl _) (p - index) (by omega)
        rw [if_neg inside, stops, Option.none_or, label_dropWhile wf uncrossed (by omega)]

/-- Taint is inserted at an untainted position if the positions it will cover are untainted. -/
theorem insert_spec (wf : t.WellFormed) (wfOther : other.WellFormed)
    (gap : t.chainAt index = none) (fits : other.stop + index ≤ Position.last)
    (room : ∀ p, index ≤ p → p < index + other.stop → t.chainAt p = none) :
    ∃ t', t.insert index other = .ok t' ∧
      t'.HasLabels (insertedLabel index other.stop t.chainAt other.chainAt) := by
  refine exists_insert wf wfOther (wf.uncrossed_of_gap gap) fits fun r mem late => ?_
  by_contra inBlock
  exact wf.chainAt_of_mem mem ⟨Nat.le_refl _, wf.start_lt_stop mem⟩
    (room r.start late (by omega))

theorem insert_eq_error_of_crossed (wf : t.WellFormed) (mem : r ∈ t.ranges)
    (starts : r.start < index) (crosses : index < r.stop) :
    ∃ fault, t.insert index other = .error fault := by
  obtain ⟨fault, fails⟩ := rangesBefore_eq_error wf mem starts crosses
  exact ⟨fault, by rw [insert, fails]; rfl⟩

theorem insert_eq_error_of_uncrossed (wf : t.WellFormed) (wfOther : other.WellFormed)
    (uncrossed : t.Uncrossed index) (bounded : index ≤ Position.last)
    (refused : Position.last < other.stop + index ∨
      ∃ r ∈ t.ranges, index ≤ r.start ∧ r.start < index + other.stop) :
    ∃ fault, t.insert index other = .error fault := by
  unfold insert
  rw [rangesBefore_eq_ok uncrossed]
  by_cases beyond : Position.last < other.stop + index
  · obtain ⟨fault, moved⟩ := exists_shifted_eq_error bounded beyond
    exact ⟨fault, by rw [moved]; rfl⟩
  · rcases refused.resolve_left beyond with ⟨r, mem, late, inside⟩
    obtain ⟨moved, b, ok, run, -, -, blockEnd⟩ :=
      exists_pushAll_moved wf wfOther uncrossed (Nat.le_of_not_lt beyond)
    have behind : r ∈ t.ranges.dropWhile (·.start < index) := by
      rcases mem_takeWhile_or_mem_dropWhile mem index with inFront | behind
      · have := stop_le_of_mem_takeWhile uncrossed inFront
        have := wf.start_lt_stop mem
        omega
      · exact behind
    obtain ⟨fault, fails⟩ := rangesFrom_eq_error behind (blockEnd ▸ inside)
    refine ⟨fault, ?_⟩
    simp only [ok, run, fails, bind, Except.bind]

theorem insert_eq_error (wf : t.WellFormed) (wfOther : other.WellFormed)
    (gap : t.chainAt index = none) (bounded : index ≤ Position.last)
    (refused : Position.last < other.stop + index ∨
      ∃ p, index ≤ p ∧ p < index + other.stop ∧ t.chainAt p ≠ none) :
    ∃ fault, t.insert index other = .error fault := by
  have uncrossed := wf.uncrossed_of_gap gap
  refine insert_eq_error_of_uncrossed wf wfOther uncrossed bounded
    (refused.imp_right fun ⟨p, late, inside, tainted⟩ => ?_)
  obtain ⟨r, mem, covers⟩ := wf.exists_of_chainAt tainted
  have starts := covers.1
  have stops := covers.2
  have apart := uncrossed r mem
  exact ⟨r, mem, by omega, by omega⟩

theorem labels_of_insert (wf : t.WellFormed) (wfOther : other.WellFormed)
    (gap : t.chainAt index = none) (bounded : index ≤ Position.last) {t' : Taint}
    (ok : t.insert index other = .ok t') :
    t'.HasLabels (insertedLabel index other.stop t.chainAt other.chainAt) := by
  by_cases refused : Position.last < other.stop + index ∨
      ∃ p, index ≤ p ∧ p < index + other.stop ∧ t.chainAt p ≠ none
  · exact absurd (insert_eq_error wf wfOther gap bounded refused) (not_error_of_eq_ok ok)
  · have room : ∀ p, index ≤ p → p < index + other.stop → t.chainAt p = none :=
      fun p late inside => by
        by_contra tainted
        exact refused (.inr ⟨p, late, inside, tainted⟩)
    exact .of_eq_ok ok (insert_spec wf wfOther gap (by omega) room)

end Taint

end TextProvenance
