import Mathlib.Order.Interval.Set.Defs
import TextProvenance.Proofs.Ledger
import TextProvenance.Proofs.Taint.Record

/-!
# Overlays, position by position

What `Taint.overlay` does to the positions of its window and to all others (`Taint.overlay_spec`),
and from that, what is recorded of an operation on a window (`Taint.overlay_records`).

The ranges of an overlay are listed with a cursor, in front of which the window is done.  The ranges
that are still to come start behind the cursor, unless it stands at the start of the window:
`Taint.Awaiting` is that, and the inductions over the ranges carry it.  What is made of a single
range is `Range.overlaid`.
-/

namespace TextProvenance

variable {t : Taint} {ranges : List Range} {r x : Range} {start stop cursor serial p : Nat}
  {gap : Chain} {extension : Chain → Chain} {operation : Operation}

/-! ## One range -/

/-- What an overlay makes of one range, with the gap in front of it. -/
def Range.overlaid (r : Range) (start stop : Nat) (gap : Chain) (extension : Chain → Chain)
    (cursor : Nat) : List Range :=
  r.before start ++ Range.span cursor (min r.start stop) gap ++
    (r.part start stop).map (fun inside => inside.withChain (extension inside.chain)) ++
    r.after stop

theorem Taint.overlaid_cons :
    Taint.overlaid start stop gap extension cursor (r :: ranges) =
      r.overlaid start stop gap extension cursor ++
        Taint.overlaid start stop gap extension (max cursor (min r.stop stop)) ranges :=
  rfl

/-- The bounds of what is made of one range: only its part behind the window stops behind the place
where the cursor goes on. -/
theorem Range.bounds_of_mem_overlaid (mem : x ∈ r.overlaid start stop gap extension cursor) :
    (r.start ≤ x.start ∨ cursor ≤ x.start ∧ x.start < stop) ∧ x.stop ≤ r.stop ∧
      (x.stop ≤ max start (min r.stop stop) ∨ stop < r.stop) := by
  have ordered := r.start_le_stop
  simp only [Range.overlaid, List.mem_append, List.mem_map] at mem
  rcases mem with ((inFront | between) | ⟨inside, part, rfl⟩) | behind
  · have span := Range.mem_span inFront
    omega
  · have span := Range.mem_span between
    omega
  · have span := Range.mem_span part
    simp only [Range.withChain]
    omega
  · have span := Range.mem_span behind
    omega

theorem Range.inOrder_overlaid (fromStart : start ≤ cursor) (ordered : start ≤ stop) :
    InOrder (r.overlaid start stop gap extension cursor) := by
  have withGap : InOrder (r.before start ++ Range.span cursor (min r.start stop) gap) := by
    refine inOrder_append.mpr ⟨inOrder_part .., inOrder_span .., fun a inFront b between => ?_⟩
    have first := Range.mem_span inFront
    have second := Range.mem_span between
    omega
  have single : InOrder ((r.part start stop).map fun inside =>
      inside.withChain (extension inside.chain)) :=
    inOrder_of_length_le_one (by rw [List.length_map]; exact Range.length_span_le ..)
  have withPart := inOrder_append.mpr ⟨withGap, single, fun a memA b memB => by
    obtain ⟨inside, part, rfl⟩ := List.mem_map.mp memB
    have second := Range.mem_span part
    simp only [Range.withChain]
    rcases List.mem_append.mp memA with inFront | between
    · have first := Range.mem_span inFront
      omega
    · have first := Range.mem_span between
      omega⟩
  refine inOrder_append.mpr ⟨withPart, inOrder_part .., fun a memA b behind => ?_⟩
  have second := Range.mem_span behind
  simp only [List.mem_append, List.mem_map] at memA
  rcases memA with (inFront | between) | ⟨inside, part, rfl⟩
  · have first := Range.mem_span inFront
    omega
  · have first := Range.mem_span between
    omega
  · have first := Range.mem_span part
    simp only [Range.withChain]
    omega

/-- In the window, the gap in front of a range is labelled from the cursor on, and the positions of
the range have their chain extended.  Elsewhere positions keep their labels. -/
theorem Range.label_overlaid (fromStart : start ≤ cursor) (ordered : start ≤ stop) :
    labelIn (r.overlaid start stop gap extension cursor) p =
      if start ≤ p ∧ p < stop then
        (if cursor ≤ p ∧ p < r.start then some gap else none).or ((r.label p).map extension)
      else r.label p := by
  have bounded : min r.start stop ≤ Position.last := by
    have := r.start_le_stop
    have := r.stop_le_last
    omega
  rw [Range.overlaid, labelIn_append, labelIn_append, labelIn_append, Range.label_before,
    Range.label_span bounded, Taint.labelIn_withChain, Range.label_part, Range.label_after]
  by_cases inside : start ≤ p ∧ p < stop
  · rw [if_pos inside, if_pos inside, if_neg (Nat.not_lt.mpr inside.1),
      if_neg (Nat.not_le.mpr inside.2), Option.none_or, Option.or_none]
    have gapEnds : p < min r.start stop ↔ p < r.start := by omega
    simp only [gapEnds]
  · have noGap : ¬ (cursor ≤ p ∧ p < min r.start stop) := by omega
    rw [if_neg inside, if_neg inside, if_neg noGap, Option.map_none, Option.or_none,
      Option.or_none]
    by_cases inFront : p < start
    · rw [if_pos inFront, if_neg (by omega), Option.or_none]
    · rw [if_neg inFront, if_pos (by omega), Option.none_or]

namespace Taint

/-! ## All ranges -/

/-- The cursor is in the window `[start, stop)`, and no range starts in front of it, unless it starts
in front of the window. -/
structure Awaiting (start stop cursor : Nat) (ranges : List Range) : Prop where
  start_le : start ≤ cursor
  le_stop : cursor ≤ stop
  ahead : ∀ r ∈ ranges, cursor ≤ max start r.start

theorem awaiting_start (ordered : start ≤ stop) : Awaiting start stop start ranges :=
  ⟨Nat.le_refl _, ordered, fun _ _ => Nat.le_max_left ..⟩

/-- The cursor goes on to where a range stops in the window. -/
theorem Awaiting.next (awaiting : Awaiting start stop cursor (r :: ranges))
    (order : InOrder (r :: ranges)) :
    Awaiting start stop (max cursor (min r.stop stop)) ranges := by
  have fromStart := awaiting.start_le
  have toStop := awaiting.le_stop
  refine ⟨by omega, by omega, fun y mem => ?_⟩
  have behind := (inOrder_cons.mp order).1 y mem
  have ahead := awaiting.ahead y (List.mem_cons_of_mem r mem)
  omega

/-- A range of an overlay starts behind the start of an old range, or fills the window from the
cursor on. -/
theorem start_of_mem_overlaid (mem : x ∈ overlaid start stop gap extension cursor ranges) :
    (∃ r ∈ ranges, r.start ≤ x.start) ∨ cursor ≤ x.start ∧ x.start < stop := by
  induction ranges generalizing cursor with
  | nil =>
    have span := Range.mem_span mem
    exact .inr (by omega)
  | cons r rest ih =>
    rcases List.mem_append.mp mem with first | later
    · rcases (Range.bounds_of_mem_overlaid first).1 with old | window
      · exact .inl ⟨r, List.mem_cons_self, old⟩
      · exact .inr window
    · rcases ih later with ⟨y, memRest, old⟩ | window
      · exact .inl ⟨y, List.mem_cons_of_mem r memRest, old⟩
      · exact .inr (by omega)

theorem inOrder_overlaid (order : InOrder ranges)
    (awaiting : Awaiting start stop cursor ranges) :
    InOrder (overlaid start stop gap extension cursor ranges) := by
  induction ranges generalizing cursor with
  | nil => exact inOrder_span ..
  | cons r rest ih =>
    have fromStart := awaiting.start_le
    have toStop := awaiting.le_stop
    rcases inOrder_cons.mp order with ⟨later, orderRest⟩
    rw [overlaid_cons]
    refine inOrder_append.mpr ⟨Range.inOrder_overlaid fromStart (by omega),
      ih orderRest (awaiting.next order), fun a memA b memB => ?_⟩
    have bounds := Range.bounds_of_mem_overlaid memA
    rcases start_of_mem_overlaid memB with ⟨y, memRest, old⟩ | window
    · have behind := later y memRest
      omega
    · omega

/-- The chain of position `p` after an overlay of `[start, stop)`. -/
def overlaidLabel (start stop : Nat) (gap : Chain) (extension : Chain → Chain)
    (label : Nat → Option Chain) (p : Nat) : Option Chain :=
  if start ≤ p ∧ p < stop then some (((label p).map extension).getD gap) else label p

theorem overlaidLabel_of_some {label : Nat → Option Chain} {c : Chain}
    (inside : start ≤ p ∧ p < stop) (found : label p = some c) :
    overlaidLabel start stop gap extension label p = some (extension c) := by
  rw [overlaidLabel, if_pos inside, found, Option.map_some, Option.getD_some]

theorem overlaidLabel_of_none {label : Nat → Option Chain} (inside : start ≤ p ∧ p < stop)
    (clean : label p = none) : overlaidLabel start stop gap extension label p = some gap := by
  rw [overlaidLabel, if_pos inside, clean, Option.map_none, Option.getD_none]

/-- What has been listed in front of the cursor is not listed again, and from there on the window is
filled.  Of a range that is taken next, a position in the window is in front, so that it is in the
gap; or it is covered; or it is behind, and left to the other ranges. -/
theorem labelIn_overlaid (order : InOrder ranges) (bounded : stop ≤ Position.last)
    (awaiting : Awaiting start stop cursor ranges) :
    labelIn (overlaid start stop gap extension cursor ranges) p =
      if start ≤ p ∧ p < cursor then none
      else overlaidLabel start stop gap extension (labelIn ranges) p := by
  have fromStart := awaiting.start_le
  have toStop := awaiting.le_stop
  induction ranges generalizing cursor with
  | nil =>
    rw [overlaid, Range.label_span bounded, overlaidLabel, labelIn_nil]
    grind
  | cons r rest ih =>
    have next := awaiting.next order
    have ahead := awaiting.ahead r List.mem_cons_self
    have ordered := r.start_le_stop
    rw [overlaid_cons, labelIn_append, Range.label_overlaid fromStart (by omega),
      ih (inOrder_cons.mp order).2 next next.start_le next.le_stop]
    unfold overlaidLabel
    by_cases inside : start ≤ p ∧ p < stop
    · simp only [if_pos inside]
      by_cases inFront : p < r.start
      · have apart : ¬ r.Covers p := fun covers => Nat.not_le.mpr inFront covers.1
        rw [labelIn_eq_none_of_lt_start order inFront, Range.label_of_not_covers apart,
          Option.map_none, Option.or_none]
        by_cases done : p < cursor
        · rw [if_neg (by omega), if_pos (by omega), if_pos ⟨inside.1, done⟩, Option.none_or]
        · rw [if_pos (by omega), Option.some_or, if_neg (by omega), Option.getD_none]
      · rw [if_neg (by omega), if_neg (show ¬ (start ≤ p ∧ p < cursor) by omega), Option.none_or]
        by_cases covers : r.Covers p
        · rw [labelIn_cons_of_covers covers, Range.label_of_covers covers, Option.map_some,
            Option.some_or, Option.getD_some]
        · have behind : r.stop ≤ p := Nat.le_of_not_lt fun early => covers ⟨by omega, early⟩
          rw [labelIn_cons, Range.label_of_not_covers covers, Option.map_none, Option.none_or,
            Option.none_or, if_neg (by omega)]
    · simp only [if_neg inside]
      rw [if_neg (by omega), if_neg (by omega), labelIn_cons]

/-! ## The overlay -/

/-- An overlay gives the window's untainted positions a new chain, and extends the chains of the
others. -/
theorem overlay_spec (wf : t.WellFormed) (ordered : start ≤ stop) (bounded : stop ≤ Position.last)
    (operation : Operation) (serial : Nat) :
    ∃ t', t.overlay start stop operation serial = .ok t' ∧
      t'.HasLabels (overlaidLabel start stop (.ofSource operation serial)
        (fun c => c.extend operation (serial + 1 + t.chains.idxOf c)) t.chainAt) := by
  by_cases nothing : start = stop
  · refine ⟨t, ?_, wf, fun p => ?_⟩
    · unfold overlay checkWindow
      rw [if_pos ordered, if_pos nothing]
      rfl
    · rw [overlaidLabel, if_neg (by omega)]
  · have awaiting : Awaiting start stop start t.ranges := awaiting_start ordered
    have order : InOrder (overlaid start stop (.ofSource operation serial)
        (follow (extensions t.chains operation (serial + 1))) start t.ranges) :=
      inOrder_overlaid wf.inOrder awaiting
    obtain ⟨t', ok, labels⟩ := ofRanges_spec order
    refine ⟨t', ?_, labels.wellFormed, fun p => ?_⟩
    · unfold overlay checkWindow
      rw [if_pos ordered, if_neg nothing]
      exact ok
    · have extended : (labelIn t.ranges p).map
          (follow (extensions t.chains operation (serial + 1))) =
          (labelIn t.ranges p).map
            fun c => c.extend operation (serial + 1 + t.chains.idxOf c) := by
        refine Option.map_congr fun c found => ?_
        obtain ⟨r, mem, -, rfl⟩ := exists_of_labelIn_eq_some found
        exact follow_of_mem operation (serial + 1) mem
      rw [labels.chainAt, labelIn_overlaid wf.inOrder bounded awaiting, if_neg (by omega),
        overlaidLabel, overlaidLabel, extended, wf.chainAt_eq]

/-- **An overlay records one operation on a window.**  Outside of the window every position keeps
its chain.  In the window, a tainted position gets the operation on top of its chain, and two of
them share their new chain exactly if they shared the old one; all untainted positions get the same
chain, of one new node with the operation, which is in no old chain and not the head of an extended
one. -/
theorem overlay_records (wf : t.WellFormed) (ordered : start ≤ stop)
    (bounded : stop ≤ Position.last) (operation : Operation)
    (fresh : ∀ c : Chain, c.ReachedFrom t.chains → c.serial < serial) :
    ∃ t' gap, t.overlay start stop operation serial = .ok t' ∧
      (∀ p ∉ Set.Ico start stop, t'.chainAt p = t.chainAt p) ∧
      (∀ p ∈ Set.Ico start stop, ∀ c, t.chainAt p = some c →
        ∃ d, t'.chainAt p = some d ∧ d.operation = operation ∧ d.parent? = some c ∧
          d.serial ≠ gap.serial) ∧
      (∀ p ∈ Set.Ico start stop, ∀ q ∈ Set.Ico start stop,
        t.chainAt p ≠ none → t.chainAt q ≠ none →
        (t'.chainAt p = t'.chainAt q ↔ t.chainAt p = t.chainAt q)) ∧
      (∀ p ∈ Set.Ico start stop, t.chainAt p = none → t'.chainAt p = some gap) ∧
      gap.operation = operation ∧ gap.parent? = none ∧
      ∀ c : Chain, c.ReachedFrom t.chains → c.serial ≠ gap.serial := by
  obtain ⟨t', ok, labels⟩ := overlay_spec wf ordered bounded operation serial
  refine ⟨t', .ofSource operation serial, ok, fun p outside => ?_, fun p inside c found => ?_, ?_,
    fun p inside clean => ?_, rfl, rfl, fun c reached => Nat.ne_of_lt (fresh c reached)⟩
  · exact (labels.chainAt p).trans (if_neg outside)
  · refine ⟨_, (labels.chainAt p).trans (overlaidLabel_of_some inside found), rfl, rfl, ?_⟩
    have numbered : serial < serial + 1 + t.chains.idxOf c := by omega
    exact Nat.ne_of_gt numbered
  · intro p insideP q insideQ taintedP taintedQ
    obtain ⟨c, foundP⟩ := Option.ne_none_iff_exists'.mp taintedP
    obtain ⟨d, foundQ⟩ := Option.ne_none_iff_exists'.mp taintedQ
    rw [labels.chainAt, labels.chainAt, overlaidLabel_of_some insideP foundP,
      overlaidLabel_of_some insideQ foundQ, foundP, foundQ]
    constructor
    · intro same
      rw [Chain.extend_inj (Option.some.inj same)]
    · intro same
      rw [Option.some.inj same]
  · exact (labels.chainAt p).trans (overlaidLabel_of_none inside clean)

/-- A window that starts inside one of two ranges under a chain and ends inside the other: the
positions between them and those behind a third range get one chain, and the cut ranges still share
theirs. -/
theorem overlay_records_straddled :
    let read : Chain := .ofSource { name := "read" } 0
    let join : Chain := (Chain.ofSource { name := "read" } 1).extend { name := "join" } 2
    let t := ofList (Range.span 0 4 read ++ Range.span 6 7 join ++ Range.span 9 12 read)
    t.WellFormed ∧ 2 ≤ 11 ∧ 11 ≤ Position.last ∧
      (∀ c : Chain, c.ReachedFrom t.chains → c.serial < 3) ∧
      ∃ t', t.overlay 2 11 { name := "mark" } 3 = .ok t' ∧ t'.chainAt 1 = some read ∧
        t'.chainAt 3 = t'.chainAt 10 ∧ t'.chainAt 4 = t'.chainAt 8 ∧ t'.chainAt 11 = some read := by
  intro read join t
  have wf : t.WellFormed := by decide
  have ordered : 2 ≤ 11 := by decide
  have bounded : 11 ≤ Position.last := by decide
  have fresh : ∀ c : Chain, c.ReachedFrom t.chains → c.serial < 3 := by
    have listed : ∀ held ∈ t.chains, ∀ c ∈ held.suffixes, c.serial < 3 := by decide
    rintro c ⟨held, mem, below⟩
    exact listed held mem c below
  obtain ⟨t', gap, ok, outside, -, shared, filled, -⟩ :=
    overlay_records wf ordered bounded { name := "mark" } fresh
  refine ⟨wf, ordered, bounded, fresh, t', ok, outside 1 (by simp), ?_, ?_, outside 11 (by simp)⟩
  · exact (shared 3 (by simp) 10 (by simp) (by decide) (by decide)).mpr (by decide)
  · rw [filled 4 (by simp) (by decide), filled 8 (by simp) (by decide)]

end Taint

end TextProvenance
