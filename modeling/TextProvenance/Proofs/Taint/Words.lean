import TextProvenance.Proofs.Taint.Atomic
import TextProvenance.Proofs.Taint.BaseConversion
import TextProvenance.Proofs.Taint.Cutting
import TextProvenance.Proofs.Taint.Overlay
import TextProvenance.Proofs.Taint.Union

/-!
# Changes in machine words

A change in machine words works its pieces out in a pass of its own and checks every bound, sum and
product on the way.  On well-formed taint it is the change without these checks
(`Taint.Change.editInWords_eq`).

For every pass there is a lemma on what it makes of one range, and one that takes it over all
ranges.  The numbers of ranges are no matter, since there are not more ranges than positions
(`Taint.WellFormed.rangeCount_le_stop`).
-/

namespace TextProvenance

variable {t other : Taint} {r : Range} {ranges : List Range} {c : Chain}
  {start stop index target cursor count more p : Nat} {amount : Int}

/-! ## Checked bounds -/

theorem Range.spanInWords_eq_ok (bounded : stop ≤ Position.last) :
    Range.spanInWords start stop c = .ok (Range.span start stop c) := by
  unfold Range.spanInWords
  split
  · rename_i inside
    rw [Range.ofBounds_eq_ok (Nat.le_of_lt inside) bounded, Range.span_of_lt inside bounded]
    rfl
  · rename_i outside
    rw [Range.span_of_le (Nat.le_of_not_lt outside)]

theorem Range.before_eq_span (inside : p ≤ r.stop) : r.before p = Range.span r.start p r.chain := by
  rw [Range.before, Range.part, Nat.max_eq_left (Nat.zero_le _), Nat.min_eq_right inside]

theorem Range.after_eq_span (inside : r.start ≤ p) : r.after p = Range.span p r.stop r.chain := by
  rw [Range.after, Range.part, Nat.max_eq_right inside, Nat.min_eq_left r.stop_le_last]

/-! ## The number of ranges -/

/-- Ranges that are in order and not empty are at most as many as the positions they lie among. -/
theorem length_le_of_inOrder {lo hi : Nat} (order : InOrder ranges)
    (filled : ∀ r ∈ ranges, r.start < r.stop)
    (within : ∀ r ∈ ranges, lo ≤ r.start ∧ r.stop ≤ hi) (ordered : lo ≤ hi) :
    lo + ranges.length ≤ hi := by
  induction ranges generalizing lo with
  | nil => exact ordered
  | cons r rest ih =>
    rcases inOrder_cons.mp order with ⟨later, orderRest⟩
    rcases within r List.mem_cons_self with ⟨starts, stops⟩
    have filledR := filled r List.mem_cons_self
    have behind : r.stop + rest.length ≤ hi :=
      ih orderRest (fun x mem => filled x (List.mem_cons_of_mem r mem))
        (fun x mem => ⟨later x mem, (within x (List.mem_cons_of_mem r mem)).2⟩) stops
    rw [List.length_cons]
    omega

namespace Taint

theorem WellFormed.rangeCount_le_stop (wf : t.WellFormed) : t.rangeCount ≤ t.stop := by
  have count : 0 + t.ranges.length ≤ t.stop :=
    length_le_of_inOrder wf.inOrder (fun _ mem => wf.start_lt_stop mem)
      (fun _ mem => ⟨Nat.zero_le _, wf.stop_le_stop mem⟩) (Nat.zero_le _)
  rwa [Nat.zero_add] at count

theorem checkRoom_eq_ok (first : count ≤ Position.last) (second : more ≤ Position.last) :
    checkRoom count more = .ok () := by
  have fits : count + more ≤ Offset.last :=
    Nat.le_trans (Nat.add_le_add first second) (by decide)
  rw [checkRoom, Offset.sum_eq_ok fits]
  rfl

theorem WellFormed.checkRoom_eq_ok (wf : t.WellFormed) (bounded : more ≤ Position.last) :
    checkRoom t.rangeCount more = .ok () :=
  Taint.checkRoom_eq_ok (Nat.le_trans wf.rangeCount_le_stop t.stop_le_last) bounded

end Taint

/-! ## Clearing -/

theorem Range.outsideInWords_eq_ok (filled : r.start < r.stop) (ordered : start ≤ stop) :
    r.outsideInWords start stop = .ok (r.before start ++ r.after stop) := by
  have bounded := r.stop_le_last
  unfold Range.outsideInWords
  split
  · rename_i overlaps
    rcases overlaps with ⟨starts, stops⟩
    rw [Range.spanInWords_eq_ok (by omega), Range.spanInWords_eq_ok bounded,
      Range.before_eq_span (by omega), Range.after_eq_span (by omega)]
    rfl
  · rename_i apart
    have side : r.stop ≤ start ∨ stop ≤ r.start := by
      unfold Range.Overlaps at apart
      omega
    rcases side with inFront | behind
    · rw [Range.before_of_stop_le filled inFront, Range.after_of_stop_le (by omega)]
      rfl
    · rw [Range.before_of_le_start (by omega), Range.after_of_le_start filled behind]
      rfl

namespace Taint

/-- Where nothing is tainted, clearing changes nothing. -/
theorem clearBetween_of_clean (wf : t.WellFormed) (ordered : start ≤ stop)
    (clean : ∀ p, start ≤ p → p < stop → t.chainAt p = none) :
    t.clearBetween start stop = .ok t := by
  have labels : t.HasLabels (clearedLabel start stop t.chainAt) := by
    refine ⟨wf, fun p => ?_⟩
    unfold clearedLabel
    split
    · rfl
    · split
      · exact clean p (by omega) (by omega)
      · rfl
  exact labels.eq_ok (clearBetween_spec wf ordered)

theorem clearBetweenInWords_eq (wf : t.WellFormed) (start stop : Nat) :
    t.clearBetweenInWords start stop = t.clearBetween start stop := by
  unfold clearBetweenInWords
  rcases Nat.lt_or_ge stop start with inverted | ordered
  · rw [clearBetween, checkWindow_eq_error _ inverted]
    rfl
  · have accepted := checkWindow_eq_ok .clearing ordered
    simp only [accepted, bind, Except.bind]
    split
    · rename_i nothing
      refine (clearBetween_of_clean wf ordered fun p late early => ?_).symm
      rcases nothing with untainted | isEmpty
      · exact wf.chainAt_of_not_isTainted untainted p
      · omega
    · have pieces : t.ranges.mapM (·.outsideInWords start stop) =
          .ok (t.ranges.map fun r => r.before start ++ r.after stop) :=
        mapM_eq_ok fun r mem => Range.outsideInWords_eq_ok (wf.start_lt_stop mem) ordered
      rw [wf.checkRoom_eq_ok (by decide), pieces, clearBetween, accepted, List.flatMap_def]
      rfl

theorem clearAtInWords_eq (wf : t.WellFormed) (bounded : index ≤ Position.last) :
    t.clearAtInWords index = t.clearAt index := by
  rw [clearAtInWords, clearBetweenInWords_eq wf, clearAt]
  rcases Nat.lt_or_eq_of_le bounded with inside | rfl
  · rw [Nat.min_eq_left inside]
  · have clean : ∀ p, Position.last ≤ p → t.chainAt p = none := fun p => wf.chainAt_of_last_le
    rw [clearBetween_of_clean wf (by omega) fun p late _ => clean p late,
      clearBetween_of_clean wf (by omega) fun p late _ => clean p late]

end Taint

/-! ## Shifting -/

theorem Range.openedInWords_eq (filled : r.start < r.stop) (inserted : 0 < amount) :
    r.openedInWords index amount = r.shiftedFrom index amount := by
  have bounded := r.stop_le_last
  have kept : min index (index + amount).toNat = index := by omega
  unfold Range.openedInWords
  rw [Range.shiftedFrom, kept]
  split
  · rename_i late
    rw [Range.before_of_le_start late, Range.after_of_le_start filled late, mapM_singleton,
      Range.shifted]
    cases r.moved amount (.rangeMovedOut amount) <;> rfl
  · rename_i early
    split
    · rename_i straddles
      have inFront : r.withBounds r.start index = .ok ⟨_, _, r.chain, _, _⟩ :=
        Range.ofBounds_eq_ok (by omega) (by omega)
      have behind : r.after index =
          [⟨index, r.stop, r.chain, Nat.le_of_lt straddles, bounded⟩] := by
        rw [Range.after_eq_span (by omega), Range.span_of_lt straddles bounded]
      have moved : r.withBoundsMoved index r.stop amount = Range.moved
          ⟨index, r.stop, r.chain, Nat.le_of_lt straddles, bounded⟩ amount
          (.positionMovedOut · amount) := rfl
      rw [inFront, Range.before_eq_span (by omega), Range.span_of_lt (by omega) (by omega), behind,
        mapM_singleton, moved]
      cases Range.moved ⟨index, r.stop, r.chain, Nat.le_of_lt straddles, bounded⟩ amount
        (.positionMovedOut · amount) <;> rfl
    · rename_i inFront
      have stops := Nat.le_of_not_lt inFront
      rw [Range.before_of_stop_le filled stops, Range.after_of_stop_le stops]
      rfl

theorem Range.beforeInWords_eq_ok (filled : r.start < r.stop) :
    r.beforeInWords p = .ok (r.before p) := by
  have bounded := r.stop_le_last
  unfold Range.beforeInWords
  split
  · rename_i starts
    have bounds : r.withBounds r.start (min r.stop p) = .ok ⟨_, _, r.chain, _, _⟩ :=
      Range.ofBounds_eq_ok (by omega) (by omega)
    rw [bounds, Range.before, Range.part, Nat.max_eq_left (Nat.zero_le _),
      Range.span_of_lt (by omega) (by omega)]
    rfl
  · rename_i late
    rw [Range.before_of_le_start (Nat.le_of_not_lt late)]

theorem Range.carriedInWords_eq_ok (filled : r.start < r.stop)
    (reached : (index : Int) + amount = target) (fits : r.stop + amount ≤ Position.last) :
    r.carriedInWords index amount = .ok (r.carried index target) := by
  have bounded := r.stop_le_last
  unfold Range.carriedInWords
  rw [← Range.mapM_moved (.positionMovedOut · amount) reached (.inr fits)]
  split
  · rename_i reaches
    rw [Range.after, Range.part, Nat.min_eq_left bounded, Range.span_of_lt (by omega) bounded,
      mapM_singleton]
    rfl
  · rename_i inFront
    rw [Range.after_of_stop_le (Nat.le_of_not_lt inFront)]
    rfl

theorem Range.closedInWords_eq (filled : r.start < r.stop)
    (reached : (index : Int) + amount = target) (deleted : amount < 0) :
    r.closedInWords target index amount = r.shiftedFrom index amount := by
  have bounded := r.stop_le_last
  have fits : r.stop + amount ≤ Position.last := by omega
  rw [Range.shiftedFrom_eq_ok reached (.inr fits), Range.closedInWords,
    Range.beforeInWords_eq_ok filled, Range.carriedInWords_eq_ok filled reached fits,
    Nat.min_eq_right (by omega)]
  rfl

namespace Taint

theorem shiftInWords_eq (wf : t.WellFormed) (bounded : index ≤ Position.last) (amount : Int) :
    t.shiftInWords index amount = t.shift index amount := by
  unfold shiftInWords shift
  cases sum : Position.sum index amount with
  | error fault => rfl
  | ok reached =>
    have same : index + amount = reached := by
      unfold Position.sum at sum
      split at sum
      · exact Except.ok.inj sum
      · cases sum
    simp only [bind, Except.bind]
    split
    · rfl
    · rename_i starts
      split
      · rfl
      · rename_i changes
        rw [wf.checkRoom_eq_ok (by decide)]
        simp only
        split
        · rename_i inserted
          rw [mapM_congr fun r mem => Range.openedInWords_eq (wf.start_lt_stop mem) inserted]
        · rename_i other
          have moves : amount ≠ 0 := fun still => changes (.inr still)
          have deleted : amount < 0 := by omega
          rw [Position.move_eq_ok (by omega) (by omega)]
          simp only
          rw [mapM_congr fun r mem => Range.closedInWords_eq (wf.start_lt_stop mem)
            (Int.toNat_of_nonneg (by omega)).symm deleted]

theorem insertInWords_eq (wf : t.WellFormed) (wfOther : other.WellFormed) (index : Nat) :
    t.insertInWords index other = t.insert index other := by
  have few := Nat.le_trans wfOther.rangeCount_le_stop other.stop_le_last
  rw [insertInWords, wf.checkRoom_eq_ok few]
  rfl

/-! ## Attaching -/

theorem attachedInWords_eq_ok (r : Range) (ranges : List Range) :
    attachedInWords r ranges = .ok (attached r ranges) := by
  have bounded := r.stop_le_last
  have ordered := r.start_le_stop
  induction ranges with
  | nil => rfl
  | cons x rest ih =>
    have boundedX := x.stop_le_last
    unfold attachedInWords attached
    split
    · rfl
    · rename_i reached
      split
      · rename_i overlaps
        rw [Range.spanInWords_eq_ok (by omega), Range.before_eq_span (Nat.le_of_lt overlaps)]
        simp only [bind, Except.bind]
        split
        · rename_i reaches
          have bounds : x.withBounds r.stop x.stop =
              .ok ⟨r.stop, x.stop, x.chain, Nat.le_of_lt reaches, boundedX⟩ :=
            Range.ofBounds_eq_ok (Nat.le_of_lt reaches) boundedX
          rw [bounds, Range.after_eq_span (by omega), Range.span_of_lt reaches boundedX]
          rfl
        · rw [ih]
          rfl
      · rw [ih]
        rfl

theorem addRangeInWords_eq (wf : t.WellFormed) (r : Range) :
    t.addRangeInWords r = t.addRange r := by
  rw [← addRangeInOnePass_eq wf, addRangeInWords, addRangeInOnePass, wf.checkRoom_eq_ok (by decide),
    attachedInWords_eq_ok]
  rfl

theorem addTaintInWords_eq (wf : t.WellFormed) (other : Taint) :
    addTaintInWords other t = addTaint other t :=
  Edit.forEach_congr wf (fun r _ _ wf => Edit.step_congr (addRangeInWords_eq wf r))
    fun _ _ => Edit.keeps_step fun _ _ wf ok => addRange_wellFormed wf ok

theorem setInWords_eq (wf : t.WellFormed) (bounded : index ≤ Position.last) (chain : Chain) :
    setInWords index chain t = set index chain t := by
  obtain ⟨single, position, -, labels⟩ := exists_ofPosition_zero chain
  unfold setInWords set
  split
  · rfl
  · split
    · rfl
    · refine Edit.andThen_congr (Edit.step_congr (clearAtInWords_eq wf bounded)) fun s' done => ?_
      have kept : (Edit.step (·.clearAt index) t).fault = none := by rw [done]
      have cleared := Edit.ok_of_step_done kept
      rw [done] at cleared
      rw [Edit.given_of_ok position, Edit.given_of_ok position]
      exact Edit.step_congr
        (insertInWords_eq (clearBetween_wellFormed cleared) labels.wellFormed index)

/-! ## Recording -/

theorem extendedInWords_eq (t : Taint) (operation : Operation) (serial : Nat) :
    t.extendedInWords operation serial = t.extended operation serial := by
  have bounds : (t.ranges.mapM fun r => Range.ofBounds r.start r.stop
      (follow (extensions t.chains operation serial) r.chain)) =
      .ok (t.ranges.map fun r =>
        r.withChain (follow (extensions t.chains operation serial) r.chain)) :=
    mapM_eq_ok fun r _ => Range.ofBounds_eq_ok r.start_le_stop r.stop_le_last
  rw [extended, ranges_extend, extendedInWords, bounds]
  rfl

/-! What an overlay makes of one range, by the side of the window on which it lies. -/

section Overlaid

variable {gap : Chain} {extension : Chain → Chain}

theorem overlaid_of_stop_le (filled : r.start < r.stop) (inFront : r.stop ≤ start)
    (ordered : start ≤ stop) (fromStart : start ≤ cursor) :
    r.overlaid start stop gap extension cursor = [r] := by
  have inside : r.part start stop = [] := Range.span_of_le (by omega)
  rw [Range.overlaid, Range.before_of_stop_le filled inFront, Range.span_of_le (by omega), inside,
    Range.after_of_stop_le (by omega)]
  rfl

theorem overlaid_of_le_start (filled : r.start < r.stop) (behind : stop ≤ r.start)
    (ordered : start ≤ stop) :
    r.overlaid start stop gap extension cursor = Range.span cursor stop gap ++ [r] := by
  have inside : r.part start stop = [] := Range.span_of_le (by omega)
  rw [Range.overlaid, Range.before_of_le_start (by omega), Nat.min_eq_right behind, inside,
    Range.after_of_le_start filled behind, List.map_nil, List.nil_append, List.append_nil]

/-- The gap in front of a range in the window ends where the range starts.  There is none if the
range starts in front of the window, where the cursor is. -/
theorem overlaid_of_overlaps (overlaps : max r.start start < min r.stop stop)
    (fromStart : start ≤ cursor) :
    r.overlaid start stop gap extension cursor =
      Range.span r.start start r.chain ++ Range.span cursor (max r.start start) gap ++
        [⟨max r.start start, min r.stop stop, extension r.chain, Nat.le_of_lt overlaps,
          Nat.le_trans (Nat.min_le_left ..) r.stop_le_last⟩] ++
        Range.span stop r.stop r.chain := by
  have bounded := r.stop_le_last
  have between : Range.span cursor (min r.start stop) gap =
      Range.span cursor (max r.start start) gap := by
    rcases Nat.le_total start r.start with inside | early
    · rw [Nat.max_eq_left inside, Nat.min_eq_left (by omega)]
    · rw [Range.span_of_le (by omega), Range.span_of_le (by omega)]
  have inside : r.part start stop = [⟨_, _, r.chain, _, _⟩] :=
    Range.span_of_lt overlaps (by omega)
  rw [Range.overlaid, Range.before_eq_span (by omega), between, inside,
    Range.after_eq_span (by omega)]
  rfl

/-- One pass lists the same ranges for an overlay as putting it together part by part. -/
theorem overlaidInWords_eq_ok (order : InOrder ranges) (filled : ∀ r ∈ ranges, r.start < r.stop)
    (ordered : start < stop) (bounded : stop ≤ Position.last)
    (awaiting : Awaiting start stop cursor ranges) :
    overlaidInWords start stop gap extension cursor ranges =
      .ok (overlaid start stop gap extension cursor ranges) := by
  induction ranges generalizing cursor with
  | nil => exact Range.spanInWords_eq_ok bounded
  | cons r rest ih =>
    have fromStart := awaiting.start_le
    have toStop := awaiting.le_stop
    have ahead := awaiting.ahead r List.mem_cons_self
    have filledR := filled r List.mem_cons_self
    have boundedR := r.stop_le_last
    have later := ih (inOrder_cons.mp order).2 (fun x mem => filled x (List.mem_cons_of_mem r mem))
      (awaiting.next order)
    rw [overlaid_cons]
    unfold overlaidInWords
    split
    · rename_i inFront
      have next : max cursor (min r.stop stop) = cursor := by omega
      rw [next] at later ⊢
      rw [later, overlaid_of_stop_le filledR inFront (Nat.le_of_lt ordered) fromStart]
      rfl
    · rename_i reaches
      split
      · rename_i behind
        have next : max cursor (min r.stop stop) = max cursor stop := by omega
        rw [next] at later ⊢
        rw [Range.spanInWords_eq_ok bounded, later,
          overlaid_of_le_start filledR behind (Nat.le_of_lt ordered), List.append_assoc]
        rfl
      · rename_i starts
        have next : max cursor (min r.stop stop) = min r.stop stop := by omega
        have overlaps : max r.start start < min r.stop stop := by omega
        have covered : Range.ofBounds (max r.start start) (min r.stop stop) (extension r.chain) =
            .ok ⟨_, _, extension r.chain, _, _⟩ :=
          Range.ofBounds_eq_ok (Nat.le_of_lt overlaps) (Nat.le_trans (Nat.min_le_left ..) boundedR)
        rw [next] at later ⊢
        rw [Range.spanInWords_eq_ok (by omega), Range.spanInWords_eq_ok (by omega), covered,
          Range.spanInWords_eq_ok boundedR, later, overlaid_of_overlaps overlaps fromStart]
        simp only [bind, Except.bind, pure, Except.pure, List.append_assoc, List.cons_append,
          List.nil_append]

end Overlaid

theorem overlayInWords_eq (wf : t.WellFormed) (bounded : stop ≤ Position.last)
    (operation : Operation) (serial : Nat) :
    t.overlayInWords start stop operation serial = t.overlay start stop operation serial := by
  unfold overlayInWords overlay
  rcases Nat.lt_or_ge stop start with inverted | ordered
  · rw [checkWindow_eq_error _ inverted]
    rfl
  · have accepted := checkWindow_eq_ok .overlaying ordered
    simp only [accepted, bind, Except.bind]
    split
    · rfl
    · rename_i present
      rw [wf.checkRoom_eq_ok (by decide), overlaidInWords_eq_ok wf.inOrder
        (fun _ mem => wf.start_lt_stop mem) (by omega) bounded (awaiting_start ordered)]

/-! ## Converting -/

section Conversion

variable {unitWidth encodedWidth : Nat}

theorem convertBase_eq_error (t : Taint) (direction : BaseDirection)
    (noWidth : unitWidth = 0 ∨ encodedWidth = 0) :
    t.convertBase direction unitWidth encodedWidth = .error .zeroWidth := by
  unfold convertBase
  rw [if_pos noWidth]

theorem convertBaseInWords_eq_of_le (t : Taint) (direction : BaseDirection)
    (unitBounded : unitWidth ≤ Position.last) (encodedBounded : encodedWidth ≤ Position.last) :
    t.convertBaseInWords direction unitWidth encodedWidth =
      t.convertBase direction unitWidth encodedWidth := by
  by_cases noWidth : unitWidth = 0 ∨ encodedWidth = 0
  · rw [convertBase_eq_error t direction noWidth, convertBaseInWords, if_pos noWidth]
  · exact convertBaseInWords_eq t direction (by omega) (by omega) unitBounded encodedBounded

end Conversion

/-! ## All changes -/

namespace Change

/-- The positions and widths that a change is given are positions, and the amount by which it moves
positions fits in a word. -/
def ArgumentsFit : Change → Prop
  | clearBetween start stop | overlay start stop _ => start ≤ Position.last ∧ stop ≤ Position.last
  | clearAt index | set index _ | insert index _ => index ≤ Position.last
  | concat _ offset => offset ≤ Position.last
  | shift index amount => index ≤ Position.last ∧ Position.FitsWord amount
  | convertBase _ unitWidth encodedWidth =>
    unitWidth ≤ Position.last ∧ encodedWidth ≤ Position.last
  | append _ | addRange _ | addTaint _ | clear | extend _ => True

/-- In machine words a change does what it does without their checks. -/
theorem editInWords_eq (wf : t.WellFormed) {change : Change}
    (wfOperand : change.OperandWellFormed) (fit : change.ArgumentsFit) (serial : Nat) :
    change.editInWords serial t = change.edit serial t := by
  unfold editInWords edit
  cases change with
  | append | concat | clear | extend => rfl
  | addRange range => exact Edit.step_congr (addRangeInWords_eq wf range)
  | addTaint other => exact addTaintInWords_eq wf other
  | clearBetween start stop => exact Edit.step_congr (clearBetweenInWords_eq wf start stop)
  | clearAt index => exact Edit.step_congr (clearAtInWords_eq wf fit)
  | shift index amount => exact Edit.step_congr (shiftInWords_eq wf fit.1 amount)
  | insert index other => exact Edit.step_congr (insertInWords_eq wf wfOperand index)
  | set index chain => exact setInWords_eq wf fit chain
  | overlay start stop operation =>
    exact Edit.step_congr (overlayInWords_eq wf fit.2 operation serial)
  | convertBase direction unitWidth encodedWidth =>
    exact Edit.step_congr (convertBaseInWords_eq_of_le t direction fit.1 fit.2)

end Change

end Taint

end TextProvenance
