import TextProvenance.Proofs.Taint.Words

/-!
# Refused changes

When a change of taint fails.  `Taint.Change.Refused` says it for every change, in terms of its
arguments and of the bounds of the ranges that are there, and `Taint.Change.fails_iff_refused` that
nothing else can fail: not while ranges are collected or moved, and not in a machine word.

`Taint.shift_fails_iff` has shifting alone.  It is the only change that is also refused where the
positions are not to blame: the sum of a position and an amount may leave the word, and it does so
too where there is nothing to move (`Taint.shift_untainted_overflow`).
-/

namespace TextProvenance.Taint

variable {t other : Taint} {r : Range} {index target offset start stop : Nat} {amount : Int}

/-! ## One range after the other -/

theorem append_error_iff (t : Taint) (r : Range) :
    (∃ fault, t.append r = .error fault) ↔ ¬ r.IsEmpty ∧ r.start < t.stop := by
  rw [← stop_ofTaint (t := t), ← Builder.push_eq_error_iff, append]
  split
  · rename_i isEmpty
    rw [Builder.push, if_pos isEmpty]
    exact iff_of_false (not_error_of_eq_ok rfl) (not_error_of_eq_ok rfl)
  · exact exists_congr fun fault => map_eq_error_iff

theorem concat_fails_iff (wf : t.WellFormed) (wfOther : other.WellFormed)
    (bounded : offset ≤ Position.last) :
    (concat other offset).Fails t ↔ offset < t.stop ∨ Position.last < offset + other.stop := by
  refine Edit.fails_iff (fun refused => ?_) fun accepted => ?_
  · have leaves : offset < t.stop ∨ Position.last < other.stop + offset := by omega
    obtain ⟨fault, stopped⟩ := concat_eq_error bounded leaves
    exact Edit.fails_of_stopped stopped
  · have late : t.stop ≤ offset := by omega
    obtain ⟨t', done, -⟩ := concat_spec wf wfOther late (by omega)
    exact ⟨t', done⟩

/-! ## Windows -/

theorem subtaint_error_iff (wf : t.WellFormed) :
    (∃ fault, t.subtaint start stop = .error fault) ↔ stop < start := by
  refine exists_error_iff subtaint_eq_error fun accepted => ?_
  obtain ⟨t', ok, -⟩ := subtaint_spec wf (Nat.le_of_not_lt accepted)
  exact ⟨t', ok⟩

theorem clearBetween_error_iff (wf : t.WellFormed) :
    (∃ fault, t.clearBetween start stop = .error fault) ↔ stop < start := by
  refine exists_error_iff clearBetween_eq_error fun accepted => ?_
  obtain ⟨t', ok, -⟩ := clearBetween_spec wf (Nat.le_of_not_lt accepted)
  exact ⟨t', ok⟩

theorem overlay_error_iff (wf : t.WellFormed) (bounded : stop ≤ Position.last)
    (operation : Operation) (serial : Nat) :
    (∃ fault, t.overlay start stop operation serial = .error fault) ↔ stop < start := by
  refine exists_error_iff (fun inverted => ?_) fun accepted => ?_
  · exact ⟨_, by rw [overlay, checkWindow_eq_error _ inverted]; rfl⟩
  · obtain ⟨t', ok, -⟩ := overlay_spec wf (Nat.le_of_not_lt accepted) bounded operation serial
    exact ⟨t', ok⟩

/-! ## Moved positions -/

/-- Shifting would take a position out of the positions: what is moved would start before the text,
or a range that moves would stop behind the last position. -/
def LeavesPositions (t : Taint) (index : Nat) (amount : Int) : Prop :=
  index + amount < 0 ∨
  (0 < amount ∧ (∃ r ∈ t.ranges, index < r.stop) ∧ Position.last < t.stop + amount)

instance (t : Taint) (index : Nat) (amount : Int) : Decidable (t.LeavesPositions index amount) :=
  inferInstanceAs (Decidable (_ ∨ _))

theorem shift_error_iff (wf : t.WellFormed) :
    (∃ fault, t.shift index amount = .error fault) ↔
      t.LeavesPositions index amount ∨ ¬ Position.FitsWord (index + amount) := by
  unfold LeavesPositions
  rw [← wf.lt_stop_iff_exists]
  refine exists_error_iff (fun refused => shift_eq_error wf ?_) fun accepted => ?_
  · rcases refused with (before | ⟨-, late, beyond⟩) | outside
    · exact .inr (.inl before)
    · exact .inr (.inr ⟨late, beyond⟩)
    · exact .inl outside
  · simp only [not_or, not_and, not_not] at accepted
    rcases accepted with ⟨⟨starts, fits⟩, word⟩
    have bounded := t.stop_le_last
    have reached : (index : Int) + amount = (index + amount).toNat :=
      (Int.toNat_of_nonneg (by omega)).symm
    obtain ⟨t', ok, -⟩ := shift_spec wf reached word (by omega)
    exact ⟨t', ok⟩

/-- Where nothing is tainted from `index` on, what is deleted in front of it is cleared, and that is
all. -/
theorem shiftedLabel_of_behind {label : Nat → Option Chain}
    (behind : ∀ p, index ≤ p → label p = none) (p : Nat) :
    shiftedLabel index target label p = clearedLabel (min index target) index label p := by
  unfold shiftedLabel clearedLabel
  rcases Nat.lt_or_ge p (min index target) with inFront | late
  · rw [if_pos inFront, if_pos inFront]
  · rw [if_neg (Nat.not_lt_of_le late), if_neg (Nat.not_lt_of_le late), behind _ (by omega),
      ite_self]
    rcases Nat.lt_or_ge p index with deleted | kept
    · rw [if_pos deleted]
    · rw [if_neg (Nat.not_lt_of_le kept), behind p kept]

theorem shift_eq_clearBetween (wf : t.WellFormed) (behind : t.stop ≤ index)
    (reached : (index : Int) + amount = target) (word : Position.FitsWord (index + amount)) :
    t.shift index amount = t.clearBetween (min index target) index := by
  obtain ⟨t', ok, labels⟩ := shift_spec wf reached word (.inl behind)
  have cleared := labels.congr (shiftedLabel_of_behind (wf.stop_le_iff.mp behind))
  rw [ok, cleared.eq_ok (clearBetween_spec wf (Nat.min_le_left index target))]

/-- **Shifting is refused for the positions, or for the word.**  As long as the sum of the position
and the amount fits in a word, shifting fails exactly if a position would leave the positions; if
the sum does not fit, it fails whatever the taint.  Where all taint stops at the position or in front
of it, and the sum fits and is not negative, inserting changes nothing and deleting clears what is
deleted. -/
theorem shift_fails_iff (wf : t.WellFormed) (bounded : index ≤ Position.last) (amount : Int) :
    t.shiftInWords index amount = t.shift index amount ∧
    (Position.FitsWord (index + amount) →
      ((∃ fault, t.shift index amount = .error fault) ↔ t.LeavesPositions index amount)) ∧
    (¬ Position.FitsWord (index + amount) → t.shift index amount = .error .overflow) ∧
    ((∀ r ∈ t.ranges, r.stop ≤ index) → 0 ≤ index + amount →
      Position.FitsWord (index + amount) →
      (0 ≤ amount ∨ ¬ t.isTainted → t.shift index amount = .ok t) ∧
      (amount < 0 → ∃ t', t.shift index amount = .ok t' ∧
        t.clearBetween (index + amount).toNat index = .ok t')) := by
  refine ⟨shiftInWords_eq wf bounded amount, fun word => ?_, fun outside => ?_,
    fun stops starts word => ?_⟩
  · rw [shift_error_iff wf]
    exact or_iff_left (not_not.mpr word)
  · have sum : Position.sum index amount = .error .overflow := if_neg outside
    rw [shift, sum]
    rfl
  · have behind : t.stop ≤ index := by
      by_contra late
      obtain ⟨r, mem, beyond⟩ := wf.lt_stop_iff_exists.mp (Nat.lt_of_not_le late)
      exact Nat.not_lt_of_le (stops r mem) beyond
    have reached : (index : Int) + amount = (index + amount).toNat :=
      (Int.toNat_of_nonneg starts).symm
    have cleared := shift_eq_clearBetween wf behind reached word
    refine ⟨fun still => ?_, fun deleted => ?_⟩
    · rw [cleared]
      refine clearBetween_of_clean wf (Nat.min_le_left _ _) fun p late early => ?_
      rcases still with inserted | untainted
      · omega
      · exact wf.chainAt_of_not_isTainted untainted p
    · rw [Nat.min_eq_right (by omega)] at cleared
      obtain ⟨t', ok, -⟩ := clearBetween_spec wf (show (index + amount).toNat ≤ index by omega)
      exact ⟨t', cleared.trans ok, ok⟩

/-- A range that stops where positions are inserted stays if the sum is the last number in a word,
and with one more position the sum overflows; what is deleted there is cleared. -/
theorem shift_fails_iff_behind :
    let read : Chain := .ofSource { name := "read" } 0
    let t := ofList (Range.span 2 5 read)
    t.WellFormed ∧ 5 ≤ Position.last ∧
      t.shift 5 9223372036854775802 = .ok t ∧ t.shift 5 9223372036854775803 = .error .overflow ∧
      (∃ fault, t.shift 4 4294967291 = .error fault) ∧
      ∃ t', t.shift 5 (-2) = .ok t' ∧ t.clearBetween 3 5 = .ok t' := by
  intro read t
  have wf : t.WellFormed := by decide
  have inFront : 4 ≤ Position.last := by decide
  have atStop : 5 ≤ Position.last := by decide
  obtain ⟨-, -, -, behind⟩ := shift_fails_iff wf atStop 9223372036854775802
  obtain ⟨-, -, outside, -⟩ := shift_fails_iff wf atStop 9223372036854775803
  obtain ⟨-, leaves, -, -⟩ := shift_fails_iff wf inFront 4294967291
  obtain ⟨-, -, -, deleted⟩ := shift_fails_iff wf atStop (-2)
  exact ⟨wf, atStop, (behind (by decide) (by decide) (by decide)).1 (.inl (by decide)),
    outside (by decide), (leaves (by decide)).mpr (.inr (by decide)),
    (deleted (by decide) (by decide) (by decide)).2 (by decide)⟩

/-- Where there is no taint, no position can leave the positions, and still there is an amount that
is refused. -/
theorem shift_untainted_overflow :
    untainted.WellFormed ∧ 1 ≤ Position.last ∧ Position.FitsWord 9223372036854775807 ∧
      ¬ untainted.LeavesPositions 1 9223372036854775807 ∧
      untainted.shift 1 9223372036854775807 = .error .overflow ∧
      untainted.shiftInWords 1 9223372036854775807 = .error .overflow := by
  decide

/-! ## Inserted taint -/

theorem not_uncrossed_iff :
    ¬ t.Uncrossed index ↔ ∃ r ∈ t.ranges, r.start < index ∧ index < r.stop := by
  unfold Uncrossed
  push Not
  rfl

theorem insert_error_iff (wf : t.WellFormed) (wfOther : other.WellFormed)
    (bounded : index ≤ Position.last) :
    (∃ fault, t.insert index other = .error fault) ↔
      (∃ r ∈ t.ranges, r.start < index ∧ index < r.stop) ∨
      Position.last < index + other.stop ∨
      ∃ r ∈ t.ranges, index ≤ r.start ∧ r.start < index + other.stop := by
  rw [← not_uncrossed_iff]
  refine exists_error_iff (fun refused => ?_) fun accepted => ?_
  · by_cases uncrossed : t.Uncrossed index
    · have late := refused.resolve_left (not_not.mpr uncrossed)
      exact insert_eq_error_of_uncrossed wf wfOther uncrossed bounded
        (late.imp_left fun beyond => by omega)
    · obtain ⟨r, mem, starts, crosses⟩ := not_uncrossed_iff.mp uncrossed
      exact insert_eq_error_of_crossed wf mem starts crosses
  · push Not at accepted
    rcases accepted with ⟨uncrossed, fits, room⟩
    obtain ⟨t', ok, -⟩ := exists_insert wf wfOther uncrossed (by omega) room
    exact ⟨t', ok⟩

theorem set_fails_iff (wf : t.WellFormed) (bounded : index ≤ Position.last) (chain : Chain) :
    (set index chain).Fails t ↔ index = Position.last := by
  refine Edit.fails_iff (fun final => ?_) fun accepted => ?_
  · have refused : set index chain t = Edit.fail (.noFollowingPosition index) t :=
      if_pos (Nat.le_of_eq final.symm)
    exact Edit.fails_of_stopped refused
  · obtain ⟨t', done, -⟩ := set_spec wf (Nat.lt_of_le_of_ne bounded accepted) chain
    exact ⟨t', done⟩

theorem convertBase_error_iff (t : Taint) (direction : BaseDirection)
    (unitWidth encodedWidth : Nat) :
    (∃ fault, t.convertBase direction unitWidth encodedWidth = .error fault) ↔
      unitWidth = 0 ∨ encodedWidth = 0 := by
  refine exists_error_iff (fun noWidth => ⟨_, convertBase_eq_error t direction noWidth⟩)
    fun accepted => ?_
  exact exists_convertBase t direction (by omega) (by omega)

/-! ## All changes -/

namespace Change

/-- The change is refused: a range would be taken out of order, a position would leave the positions
or the word, other taint would cover a range or lie inside of one, a window is inverted, or a unit
has no width. -/
def Refused (t : Taint) : Change → Prop
  | append r => ¬ r.IsEmpty ∧ r.start < t.stop
  | concat other offset => offset < t.stop ∨ Position.last < offset + other.stop
  | clearBetween start stop | overlay start stop _ => stop < start
  | shift index amount => t.LeavesPositions index amount ∨ ¬ Position.FitsWord (index + amount)
  | insert index other =>
    (∃ r ∈ t.ranges, r.start < index ∧ index < r.stop) ∨
    Position.last < index + other.stop ∨
    ∃ r ∈ t.ranges, index ≤ r.start ∧ r.start < index + other.stop
  | set index _ => index = Position.last
  | convertBase _ unitWidth encodedWidth => unitWidth = 0 ∨ encodedWidth = 0
  | addRange _ | addTaint _ | clearAt _ | clear | extend _ => False

theorem edit_fails_iff (wf : t.WellFormed) {change : Change} (wfOperand : change.OperandWellFormed)
    (fit : change.ArgumentsFit) (serial : Nat) :
    (change.edit serial).Fails t ↔ change.Refused t := by
  cases change with
  | append r => exact Edit.fails_step_iff.trans (append_error_iff t r)
  | concat other offset => exact concat_fails_iff wf wfOperand fit
  | clearBetween start stop => exact Edit.fails_step_iff.trans (clearBetween_error_iff wf)
  | overlay start stop operation =>
    exact Edit.fails_step_iff.trans (overlay_error_iff wf fit.2 operation serial)
  | shift index amount => exact Edit.fails_step_iff.trans (shift_error_iff wf)
  | insert index other => exact Edit.fails_step_iff.trans (insert_error_iff wf wfOperand fit)
  | set index chain => exact set_fails_iff wf fit chain
  | convertBase direction unitWidth encodedWidth =>
    exact Edit.fails_step_iff.trans (convertBase_error_iff t direction unitWidth encodedWidth)
  | addRange r =>
    obtain ⟨t', ok, -⟩ := addRange_spec wf r
    exact Edit.fails_step_iff.trans (iff_false_intro (not_error_of_eq_ok ok))
  | addTaint other =>
    obtain ⟨t', done, -⟩ := addTaint_spec wf wfOperand
    exact iff_false_intro (Edit.not_fails_of_done done)
  | clearAt index =>
    obtain ⟨t', ok, -⟩ := clearBetween_spec wf (Nat.le_succ index)
    exact Edit.fails_step_iff.trans (iff_false_intro (not_error_of_eq_ok ok))
  | clear | extend => exact Edit.fails_step_iff.trans (iff_false_intro (not_error_of_eq_ok rfl))

/-- **What is refused, and nothing else, fails.**  A change of well-formed taint fails exactly if it
is refused, and otherwise leaves well-formed taint; the same is true of copies of windows, and
copies with extended chains never fail.  All of it is said of the changes in machine words, which
check every bound, sum and product on their way: none of these checks fails, unless the change is
refused. -/
theorem fails_iff_refused (wf : t.WellFormed) :
    (∀ (change : Change) (serial : Nat), change.OperandWellFormed → change.ArgumentsFit →
      change.editInWords serial t = change.edit serial t ∧
      ((change.editInWords serial).Fails t ↔ change.Refused t) ∧
      (change.editInWords serial t).state.WellFormed) ∧
    (∀ start stop : Nat,
      t.subtaintInWords start stop = t.subtaint start stop ∧
      ((∃ fault, t.subtaintInWords start stop = .error fault) ↔ stop < start) ∧
      ∀ t', t.subtaintInWords start stop = .ok t' → t'.WellFormed) ∧
    ∀ (operation : Operation) (serial : Nat), ∃ t',
      t.extendedInWords operation serial = .ok t' ∧ t.extended operation serial = .ok t' ∧
      t'.WellFormed := by
  refine ⟨fun change serial wfOperand fit => ?_, fun start stop => ?_, fun operation serial => ?_⟩
  · have inWords := editInWords_eq wf wfOperand fit serial
    unfold Edit.Fails
    rw [inWords]
    exact ⟨rfl, edit_fails_iff wf wfOperand fit serial, keeps_wellFormed change serial t wf⟩
  · rw [subtaintInWords_eq]
    exact ⟨rfl, subtaint_error_iff wf, fun _ ok => subtaint_wellFormed ok⟩
  · have wfExtended : (t.extend operation serial).WellFormed := extend_wellFormed wf
    obtain ⟨t', ok, labels⟩ := ofRanges_spec wfExtended.inOrder
    exact ⟨t', (extendedInWords_eq t operation serial).trans ok, ok, labels.wellFormed⟩

/-- Taint is inserted between two ranges if it is as long as the room between them, but not one
position later, and not inside of a range, even if there is no taint to insert. -/
theorem fails_iff_refused_between :
    let read : Chain := .ofSource { name := "read" } 0
    let t := ofList (Range.span 2 5 read ++ Range.span 8 12 read)
    let other := ofList (Range.span 1 3 read)
    t.WellFormed ∧ other.WellFormed ∧ 6 ≤ Position.last ∧
      ¬ ((insert 5 other).editInWords 0).Fails t ∧
      ((insert 6 other).editInWords 0).Fails t ∧
      ((insert 3 untainted).editInWords 0).Fails t ∧
      ((set 4294967295 read).editInWords 0).Fails t ∧
      ¬ ((addTaint other).editInWords 0).Fails t ∧
      (∃ fault, t.subtaintInWords 7 6 = .error fault) ∧
      ∃ t', t.extendedInWords { name := "join" } 1 = .ok t' := by
  intro read t other
  have wf : t.WellFormed := by decide
  have wfOther : other.WellFormed := by decide
  have wfNothing : untainted.WellFormed := by decide
  have few : 6 ≤ Position.last := by decide
  obtain ⟨changes, windows, extended⟩ := fails_iff_refused wf
  obtain ⟨t', ok, -⟩ := extended { name := "join" } 1
  refine ⟨wf, wfOther, few, ?_, ?_, ?_, ?_, ?_, (windows 7 6).2.1.mpr (by decide), t', ok⟩
  · have fails := (changes (insert 5 other) 0 wfOther (show 5 ≤ Position.last by decide)).2.1
    exact mt fails.mp (by unfold Refused; decide)
  · have fails := (changes (insert 6 other) 0 wfOther few).2.1
    exact fails.mpr (by unfold Refused; decide)
  · have fails := (changes (insert 3 untainted) 0 wfNothing (show 3 ≤ Position.last by decide)).2.1
    exact fails.mpr (by unfold Refused; decide)
  · have fails := (changes (set 4294967295 read) 0 trivial (Nat.le_refl Position.last)).2.1
    exact fails.mpr rfl
  · have fails := (changes (addTaint other) 0 wfOther trivial).2.1
    exact mt fails.mp id

end Change

end TextProvenance.Taint
