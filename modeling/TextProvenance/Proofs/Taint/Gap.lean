import TextProvenance.Proofs.Taint.Words

/-!
# Gaps in taint

Positions can be inserted and deleted again, and deleted and inserted again
(`Taint.shift_undoes_shift`): the first leaves the taint as it was, the second clears the positions.
Other taint fits into a gap that is as long as it (`Taint.insert_into_gap`).

All of it is said of functions on positions first.  Well-formed taint is canonical, so it does not
matter where the passes split ranges, and that parts which meet again are joined.
-/

namespace TextProvenance.Taint

variable {t t' other : Taint} {label : Nat → Option Chain} {index amount start stop : Nat}

/-! ## Gaps of functions on positions -/

/-- A gap that is made and closed again leaves no trace. -/
theorem shiftedLabel_gap (p : Nat) :
    shiftedLabel (index + amount) index (shiftedLabel index (index + amount) label) p =
      label p := by
  unfold shiftedLabel
  rcases Nat.lt_or_ge p index with inFront | behind
  · rw [if_pos (by omega), if_pos (by omega)]
  · rw [if_neg (by omega), if_neg (by omega), if_neg (by omega), if_neg (by omega)]
    congr 1
    omega

/-- Positions that are deleted and inserted again have lost their labels. -/
theorem shiftedLabel_closed (ordered : start ≤ stop) (p : Nat) :
    shiftedLabel start stop (shiftedLabel stop start label) p =
      clearedLabel start stop label p := by
  unfold shiftedLabel clearedLabel
  rcases Nat.lt_or_ge p start with inFront | late
  · rw [if_pos (by omega), if_pos (by omega), if_pos inFront]
  · rcases Nat.lt_or_ge p stop with inside | behind
    · rw [if_neg (by omega), if_pos inside, if_neg (by omega), if_pos inside]
    · rw [if_neg (by omega), if_neg (by omega), if_neg (by omega), if_neg (by omega),
        if_neg (by omega), if_neg (by omega)]
      congr 1
      omega

/-! ## Making a gap and closing it -/

theorem shift_of_gap (wf : t.WellFormed) (bounded : index + amount ≤ Position.last)
    (opened : t.shift index amount = .ok t') : t'.shift (index + amount) (-amount) = .ok t := by
  obtain ⟨target, reached, labels⟩ := labels_of_shift wf opened
  obtain rfl : target = index + amount := by omega
  have stops := t'.stop_le_last
  have gone : t.HasLabels (shiftedLabel (index + amount) index t'.chainAt) :=
    ⟨wf, fun p => by rw [funext labels.chainAt, shiftedLabel_gap]⟩
  have closes : ((index + amount : Nat) : Int) + -amount = index := by omega
  exact gone.eq_ok (shift_spec labels.wellFormed closes
    (Position.fitsWord_of_le_last (by omega) (by omega)) (.inr (by omega)))

/-! ## Deleting and making room again -/

/-- Taint that has moved to the left stops where it moved to, or as much in front of the last
position. -/
theorem HasLabels.stop_le_of_closed (wf : t.WellFormed)
    (labels : t'.HasLabels (shiftedLabel stop start t.chainAt)) :
    t'.stop ≤ max start (Position.last + start - stop) := by
  refine labels.wellFormed.stop_le_iff.mpr fun p late => ?_
  rw [labels.chainAt, shiftedLabel, if_neg (by omega), if_neg (by omega)]
  exact wf.chainAt_of_last_le (by omega)

theorem exists_closed_opened (wf : t.WellFormed) (ordered : start ≤ stop)
    (bounded : stop ≤ Position.last) :
    ∃ closed cleared, t.shift stop (-(stop - start)) = .ok closed ∧ closed.WellFormed ∧
      closed.shift start (stop - start) = .ok cleared ∧
      cleared.HasLabels (clearedLabel start stop t.chainAt) := by
  have stops := t.stop_le_last
  have closes : (stop : Int) + -(stop - start) = start := by omega
  obtain ⟨closed, close, labels⟩ := shift_spec wf closes
    (Position.fitsWord_of_le_last (by omega) (by omega)) (.inr (by omega))
  have stops' := labels.stop_le_of_closed wf
  have opens : (start : Int) + (stop - start) = stop := by omega
  obtain ⟨cleared, reopen, labels'⟩ := shift_spec labels.wellFormed opens
    (Position.fitsWord_of_le_last (by omega) (by omega)) (by omega)
  refine ⟨closed, cleared, close, labels.wellFormed, reopen, labels'.congr fun p => ?_⟩
  rw [funext labels.chainAt, shiftedLabel_closed ordered]

/-- **Inserting positions and deleting positions undo each other.**  Positions that could be
inserted can be deleted again, and the taint is what it was.  Positions that are deleted can be
inserted again, and then they are cleared and all others have their chains.  That the passes of the
two directions and that of clearing split ranges each in its own way makes no difference. -/
theorem shift_undoes_shift :
    (∀ (t t' : Taint) (index amount : Nat), t.WellFormed → 0 < amount →
      index + amount ≤ Position.last → t.shift index amount = .ok t' →
      t'.shift (index + amount) (-amount) = .ok t) ∧
    (∀ (t : Taint) (start stop : Nat), t.WellFormed → start ≤ stop → stop ≤ Position.last →
      ∃ closed cleared, t.shift stop (-(stop - start)) = .ok closed ∧ closed.WellFormed ∧
        closed.shift start (stop - start) = .ok cleared ∧ t.clearBetween start stop = .ok cleared ∧
        cleared.WellFormed ∧
        ∀ p, cleared.chainAt p = if start ≤ p ∧ p < stop then none else t.chainAt p) ∧
    ∀ t : Taint, t.WellFormed →
      (∀ (index : Nat) (amount : Int), index ≤ Position.last →
        t.shiftInWords index amount = t.shift index amount) ∧
      ∀ start stop, t.clearBetweenInWords start stop = t.clearBetween start stop := by
  refine ⟨fun t t' index amount wf _ bounded opened => shift_of_gap wf bounded opened,
    fun t start stop wf ordered bounded => ?_,
    fun t wf => ⟨fun index amount bounded => shiftInWords_eq wf bounded amount,
      clearBetweenInWords_eq wf⟩⟩
  obtain ⟨closed, cleared, close, wfClosed, reopen, labels⟩ :=
    exists_closed_opened wf ordered bounded
  refine ⟨closed, cleared, close, wfClosed, reopen, labels.eq_ok (clearBetween_spec wf ordered),
    labels.wellFormed, fun p => ?_⟩
  rw [labels.chainAt, clearedLabel_eq]

/-- A gap in the middle of a range is closed again; and where the range between two under one chain
is deleted, the two are joined, and split again when its positions are inserted. -/
theorem shift_undoes_shift_rejoined :
    let read : Chain := .ofSource { name := "read" } 0
    let join : Chain := .ofSource { name := "join" } 1
    let t := ofList (Range.span 0 5 read ++ Range.span 5 6 join ++ Range.span 6 9 read)
    let opened := ofList (Range.span 0 2 read ++ Range.span 6 9 read ++ Range.span 9 10 join ++
      Range.span 10 13 read)
    (t.WellFormed ∧ 0 < 4 ∧ 2 + 4 ≤ Position.last ∧ t.shift 2 4 = .ok opened ∧
      opened.shift 6 (-4) = .ok t) ∧
    (5 ≤ 6 ∧ 6 ≤ Position.last ∧ ∃ closed cleared, t.shift 6 (-(6 - 5)) = .ok closed ∧
      closed.shift 5 (6 - 5) = .ok cleared ∧ t.clearBetween 5 6 = .ok cleared ∧
      cleared.chainAt 4 = some read ∧ cleared.chainAt 5 = none ∧ cleared.chainAt 6 = some read) ∧
    t.shiftInWords 2 4 = .ok opened ∧ t.clearBetweenInWords 5 6 = t.clearBetween 5 6 := by
  intro read join t opened
  have wf : t.WellFormed := by decide
  have bounds : 2 + 4 ≤ Position.last ∧ 6 ≤ Position.last := by decide
  have made : t.shift 2 4 = .ok opened := by decide
  obtain ⟨undone, deleted, inWords⟩ := shift_undoes_shift
  obtain ⟨closed, cleared, close, -, reopen, clear, -, chains⟩ :=
    deleted t 5 6 wf (by decide) bounds.2
  obtain ⟨shifting, clearing⟩ := inWords t wf
  exact ⟨⟨wf, by decide, bounds.1, made, undone t opened 2 4 wf (by decide) bounds.1 made⟩,
    ⟨by decide, bounds.2, closed, cleared, close, reopen, clear, chains 4, chains 5, chains 6⟩,
    (shifting 2 4 (by decide)).trans made, clearing 5 6⟩

/-! ## Putting other taint into a gap -/

/-- The chain of position `p` after a gap of `amount` positions at `index` has been made and given
the chains of another text. -/
def filledLabel (index amount : Nat) (label inserted : Nat → Option Chain) (p : Nat) :
    Option Chain :=
  if p < index then label p
  else if p < index + amount then inserted (p - index)
  else label (p - amount)

/-- Taint that stops within the length of a gap gives its chains to all of the gap. -/
theorem insertedLabel_gap (wfOther : other.WellFormed) (holds : other.stop ≤ amount) (p : Nat) :
    insertedLabel index other.stop (shiftedLabel index (index + amount) label) other.chainAt p =
      filledLabel index amount label other.chainAt p := by
  have clean := wfOther.stop_le_iff.mp (Nat.le_refl _)
  unfold insertedLabel shiftedLabel filledLabel
  rcases Nat.lt_or_ge p index with inFront | late
  · rw [if_pos inFront, if_pos inFront, if_pos (by omega)]
  · rw [if_neg (by omega)]
    rcases Nat.lt_or_ge p (index + other.stop) with covered | free
    · rw [if_pos covered, if_neg (by omega), if_pos (by omega)]
    · rw [if_neg (by omega), if_neg (by omega)]
      rcases Nat.lt_or_ge p (index + amount) with inside | behind
      · rw [if_pos inside, if_neg (by omega), if_pos inside, clean _ (by omega)]
      · rw [if_neg (by omega), if_neg (by omega), if_neg (by omega)]
        congr 1
        omega

theorem exists_gap_filled (wf : t.WellFormed) (wfOther : other.WellFormed) (inserted : 0 < amount)
    (holds : other.stop ≤ amount) (bounded : index + amount ≤ Position.last)
    (fits : t.stop + amount ≤ Position.last) :
    ∃ opened t', t.shift index amount = .ok opened ∧ opened.WellFormed ∧
      opened.insert index other = .ok t' ∧
      t'.HasLabels (filledLabel index amount t.chainAt other.chainAt) := by
  have opens : (index : Int) + amount = (index + amount : Nat) := by omega
  obtain ⟨opened, shift, labels⟩ := shift_spec wf opens
    (Position.fitsWord_of_le_last (by omega) (by omega)) (.inr (by omega))
  have gap : ∀ p, index ≤ p → p < index + amount → opened.chainAt p = none := by
    intro p late inside
    rw [labels.chainAt, shiftedLabel, if_neg (by omega), if_pos inside]
  obtain ⟨t', insert, labels'⟩ := insert_spec labels.wellFormed wfOther
    (gap index (Nat.le_refl _) (by omega)) (by omega) fun p late inside => gap p late (by omega)
  refine ⟨opened, t', shift, labels.wellFormed, insert, labels'.congr fun p => ?_⟩
  rw [funext labels.chainAt, insertedLabel_gap wfOther holds]

/-- **Taint fits into a gap that is as long as its text.**  Where a gap is made in a text and the
positions stay positions, the taint of a text as long as the gap, or shorter, can always be put
there.  The text in front of the gap and behind it keeps its chains, and the gap gets those of the
other text. -/
theorem insert_into_gap (wf : t.WellFormed) (wfOther : other.WellFormed) (inserted : 0 < amount)
    (holds : other.stop ≤ amount) (bounded : index + amount ≤ Position.last)
    (fits : t.stop + amount ≤ Position.last) :
    ∃ opened t', t.shift index amount = .ok opened ∧ t.shiftInWords index amount = .ok opened ∧
      opened.insert index other = .ok t' ∧ opened.insertInWords index other = .ok t' ∧
      t'.WellFormed ∧
      ∀ p, t'.chainAt p =
        if p < index then t.chainAt p
        else if p < index + amount then other.chainAt (p - index)
        else t.chainAt (p - amount) := by
  obtain ⟨opened, t', shift, wfOpened, insert, labels⟩ :=
    exists_gap_filled wf wfOther inserted holds bounded fits
  exact ⟨opened, t', shift, (shiftInWords_eq wf (by omega) amount).trans shift, insert,
    (insertInWords_eq wfOpened wfOther index).trans insert, labels.wellFormed, labels.chainAt⟩

/-- A gap inside of a range, filled up to its last position but one with two ranges, of which the
first goes on under the chain of the range around the gap. -/
theorem insert_into_gap_rejoined :
    let read : Chain := .ofSource { name := "read" } 0
    let join : Chain := .ofSource { name := "join" } 1
    let t := ofList (Range.span 1 6 read)
    let other := ofList (Range.span 0 2 read ++ Range.span 3 4 join)
    t.WellFormed ∧ other.WellFormed ∧ 0 < 5 ∧ other.stop ≤ 5 ∧ 3 + 5 ≤ Position.last ∧
      t.stop + 5 ≤ Position.last ∧
      ∃ opened t', t.shift 3 5 = .ok opened ∧ opened.insert 3 other = .ok t' ∧
        t' = ofList (Range.span 1 5 read ++ Range.span 6 7 join ++ Range.span 8 11 read) ∧
        t'.chainAt 2 = some read ∧ t'.chainAt 6 = some join ∧ t'.chainAt 7 = none ∧
        t'.chainAt 10 = some read := by
  intro read join t other
  have wfs : t.WellFormed ∧ other.WellFormed := by decide
  have room : other.stop ≤ 5 ∧ 3 + 5 ≤ Position.last ∧ t.stop + 5 ≤ Position.last := by decide
  obtain ⟨opened, t', shift, -, insert, -, -, chains⟩ :=
    insert_into_gap wfs.1 wfs.2 (by decide) room.1 room.2.1 room.2.2
  have split : t.shift 3 5 = .ok (ofList (Range.span 1 3 read ++ Range.span 8 11 read)) := by decide
  obtain rfl := Except.ok.inj (shift.symm.trans split)
  have filled : t' = ofList (Range.span 1 5 read ++ Range.span 6 7 join ++ Range.span 8 11 read) :=
    Except.ok.inj (insert.symm.trans (by decide))
  exact ⟨wfs.1, wfs.2, by decide, room.1, room.2.1, room.2.2, _, t', shift, insert, filled,
    chains 2, chains 6, chains 7, chains 10⟩

end TextProvenance.Taint
