import Mathlib.Logic.Relation
import TextProvenance.Proofs.Taint.Canonical

/-!
# Fragments of ranges

A builder is given ranges in pieces: the operations on taint split them at the bounds of windows and
leave empty ones between them.  It makes of all pieces what it makes of the whole ranges.

Joining is associative: to take a range that is joined of two is to take one and then the other
(`Builder.push_joined`).  So a range may be replaced by ranges that tile it, and a list of ranges by
any list that comes from it by cutting, gluing, adding empty ranges and leaving them out
(`Builder.pushAll_iff_of_eqvGen`).

`Builder.pushAll_gathers` has this with what a builder takes and what it makes of it.
-/

namespace TextProvenance

/-- The ranges lie end to end from `start` to `stop`, all of them under one chain. -/
inductive Tiles (c : Chain) : Nat → Nat → List Range → Prop
  | nothing (p : Nat) : Tiles c p p []
  | next {start stop : Nat} {part : Range} {rest : List Range} (starts : part.start = start)
      (chain : part.chain = c) (tiles : Tiles c part.stop stop rest) :
      Tiles c start stop (part :: rest)

/-- One list of ranges is another one in smaller pieces: a range is cut into ranges that tile it, or
an empty range is added. -/
inductive Refines : List Range → List Range → Prop
  | cut (front back : List Range) {r : Range} {parts : List Range}
      (tiles : Tiles r.chain r.start r.stop parts) :
      Refines (front ++ r :: back) (front ++ (parts ++ back))
  | add (front back : List Range) {r : Range} (isEmpty : r.IsEmpty) :
      Refines (front ++ back) (front ++ r :: back)

/-- Every range that is not empty starts where the one in front of it stops, or behind. -/
def Ascending (ranges : List Range) : Prop :=
  (ranges.filter fun r => ¬ r.IsEmpty).IsChain fun a b => a.stop ≤ b.start

/-- Where the last range that is not empty stops; 0 if there is none. -/
def lastStop (ranges : List Range) : Nat :=
  ((ranges.filter fun r => ¬ r.IsEmpty).getLast?.map Range.stop).getD 0

variable {r x y : Range} {ranges others parts : List Range} {c : Chain} {start stop p : Nat}

theorem Tiles.start_le_stop (tiles : Tiles c start stop parts) : start ≤ stop := by
  induction tiles with
  | nothing p => exact Nat.le_refl p
  | @next start stop part rest starts chain tiles ih =>
    have := part.start_le_stop
    omega

theorem filter_filled_cons_of_isEmpty (isEmpty : r.IsEmpty) :
    (r :: ranges).filter (fun x => ¬ x.IsEmpty) = ranges.filter fun x => ¬ x.IsEmpty :=
  List.filter_cons_of_neg (by simpa using isEmpty)

theorem filter_filled_cons_of_filled (filled : ¬ r.IsEmpty) :
    (r :: ranges).filter (fun x => ¬ x.IsEmpty) = r :: ranges.filter fun x => ¬ x.IsEmpty :=
  List.filter_cons_of_pos (by simpa using filled)

/-- Ascending ranges are in order once the empty ones are left out. -/
theorem Ascending.inOrder (ascending : Ascending ranges) :
    InOrder (ranges.filter fun r => ¬ r.IsEmpty) :=
  inOrder_of_isChain ascending

/-- Ranges that are in order but for empty ones have every label from a range with the position. -/
theorem Ascending.labelIn_eq_some_iff (ascending : Ascending ranges) :
    labelIn ranges p = some c ↔ ∃ r ∈ ranges, r.Covers p ∧ r.chain = c := by
  rw [← labelIn_filter_filled,
    TextProvenance.labelIn_eq_some_iff (disjoint_of_inOrder ascending.inOrder)]
  constructor
  · rintro ⟨r, mem, covers, chain⟩
    exact ⟨r, (List.mem_filter.mp mem).1, covers, chain⟩
  · rintro ⟨r, mem, covers, chain⟩
    have filled : ¬ r.IsEmpty := Nat.ne_of_lt (Nat.lt_of_le_of_lt covers.1 covers.2)
    exact ⟨r, List.mem_filter.mpr ⟨mem, decide_eq_true filled⟩, covers, chain⟩

namespace Builder

variable {b b' middle : Builder}

/-! ## One push in pieces -/

theorem push_of_isEmpty (isEmpty : r.IsEmpty) : b.push r = .ok b :=
  if_pos isEmpty

theorem push_of_touching {last : Range} {earlier : List Range} (filled : ¬ r.IsEmpty)
    (touching : last.stop = r.start) (chain : last.chain = r.chain) :
    push ⟨last :: earlier⟩ r = .ok ⟨last.joined r touching :: earlier⟩ := by
  rw [push, if_neg filled]
  dsimp only
  rw [if_neg (Nat.not_lt_of_le (Nat.le_of_eq touching)), dif_pos ⟨touching, chain⟩]

/-- Where a range is joined to the last one, that one can be resized, since it starts in front of
where the range stops. -/
theorem pushByResizing_eq (b : Builder) (r : Range) : b.pushByResizing r = b.push r := by
  unfold pushByResizing push
  split
  · rfl
  · split
    · rfl
    · rename_i last earlier taken
      split
      · rfl
      · by_cases joins : last.stop = r.start ∧ last.chain = r.chain
        · have ordered := (last.joined r joins.1).start_le_stop
          have resized : last.withBounds last.start r.stop = .ok (last.joined r joins.1) :=
            Range.ofBounds_eq_ok ordered r.stop_le_last
          rw [if_pos joins, dif_pos joins, resized]
          rfl
        · rw [if_neg joins, dif_neg joins]

theorem pushAllByResizing_eq (b : Builder) (ranges : List Range) :
    b.pushAllByResizing ranges = b.pushAll ranges :=
  congrArg (ranges.foldlM · b) (funext fun b => funext (pushByResizing_eq b))

/-- **Joining is associative.**  Whatever has been taken before, a range that is joined of two is
taken like the first and then the second. -/
theorem push_joined (touching : x.stop = y.start) (chain : x.chain = y.chain)
    (first : b.push x = .ok middle) : b.push (x.joined y touching) = middle.push y := by
  have orderX := x.start_le_stop
  have orderY := y.start_le_stop
  by_cases emptyX : x.IsEmpty
  · -- nothing is in front of the second range, so the joined range is that one
    have onlyY : x.joined y touching = y :=
      Range.eq_of_bounds (Eq.trans emptyX touching) rfl chain
    rw [push_of_isEmpty emptyX] at first
    rw [onlyY, Except.ok.inj first]
  · by_cases emptyY : y.IsEmpty
    · have onlyX : x.joined y touching = x :=
        Range.eq_of_bounds rfl (touching.trans emptyY).symm rfl
      rw [onlyX, push_of_isEmpty emptyY, first]
    · have filled : ¬ (x.joined y touching).IsEmpty := by
        simp only [Range.IsEmpty, Range.joined] at emptyX emptyY ⊢
        omega
      cases pushed_of_push first with
      | empty isEmpty => exact absurd isEmpty emptyX
      | first _ nothing =>
        rw [push_of_precedes filled (by simp [nothing]), nothing,
          push_of_touching emptyY touching chain]
      | @joined last earlier _ taken before same =>
        have beforeBoth : last.stop = (x.joined y touching).start := before
        have behind : (last.joined x before).stop = y.start := touching
        have wider : (last.joined x before).chain = y.chain := same.trans chain
        obtain rfl : b = ⟨last :: earlier⟩ := congrArg Builder.mk taken
        rw [push_of_touching filled beforeBoth same, push_of_touching emptyY behind wider]
        rfl
      | @next last earlier _ taken precedes =>
        have precedes' : ∀ z ∈ b.latestFirst.head?, z.Precedes (x.joined y touching) := by
          rw [taken]
          rintro z ⟨⟩
          exact precedes
        rw [push_of_precedes filled precedes', taken, push_of_touching emptyY touching chain]

/-- A range that is joined of two is refused if the first of them is. -/
theorem push_joined_of_error {fault : Fault} (touching : x.stop = y.start)
    (refused : b.push x = .error fault) : ∃ fault, b.push (x.joined y touching) = .error fault := by
  obtain ⟨filled, early⟩ := push_eq_error_iff.mp ⟨fault, refused⟩
  have orderX := x.start_le_stop
  have orderY := y.start_le_stop
  refine push_eq_error_iff.mpr ⟨?_, early⟩
  simp only [Range.IsEmpty, Range.joined] at filled ⊢
  omega

/-- A range is taken exactly if ranges that tile it are, and has the same effect.  The induction is
on the tiles: the first of them is cut off, and the others tile what is left. -/
theorem push_eq_ok_iff_of_tiles (tiles : Tiles c start stop parts) (starts : r.start = start)
    (stops : r.stop = stop) (chain : r.chain = c) :
    b.push r = .ok b' ↔ b.pushAll parts = .ok b' := by
  induction tiles generalizing b r with
  | nothing p =>
    rw [push_of_isEmpty (starts.trans stops.symm)]
    rfl
  | @next start stop part rest startsPart chainPart tiles ih =>
    let others : Range := ⟨part.stop, stop, c, tiles.start_le_stop, stops ▸ r.stop_le_last⟩
    have whole : r = part.joined others rfl :=
      Range.eq_of_bounds (starts.trans startsPart.symm) stops (chain.trans chainPart.symm)
    rw [whole, pushAll_cons]
    cases first : b.push part with
    | ok middle =>
      rw [push_joined rfl chainPart first]
      exact ih rfl rfl rfl
    | error fault =>
      obtain ⟨fault', refused⟩ := push_joined_of_error (y := others) rfl first
      rw [refused]
      exact iff_of_false nofun nofun

/-! ## Runs of pushes in pieces -/

theorem pushAll_append (front back : List Range) :
    b.pushAll (front ++ back) = b.pushAll front >>= fun middle => middle.pushAll back :=
  List.foldlM_append

/-- Ranges that are taken alike are taken alike between others. -/
theorem pushAll_between_congr (front ranges others back : List Range)
    (same : ∀ middle b', pushAll middle ranges = .ok b' ↔ pushAll middle others = .ok b') :
    b.pushAll (front ++ (ranges ++ back)) = .ok b' ↔
      b.pushAll (front ++ (others ++ back)) = .ok b' := by
  simp only [pushAll_append, bind_eq_ok_iff, same]

theorem pushAll_iff_of_refines (refines : Refines ranges others) :
    b.pushAll ranges = .ok b' ↔ b.pushAll others = .ok b' := by
  cases refines with
  | @cut front back r parts tiles =>
    apply pushAll_between_congr front [r] parts back
    intro middle b'
    have one : middle.pushAll [r] = middle.push r := List.foldlM_cons.trans (bind_pure _)
    rw [one]
    exact push_eq_ok_iff_of_tiles tiles rfl rfl rfl
  | @add front back r isEmpty =>
    apply pushAll_between_congr front [] [r] back
    intro middle b'
    rw [pushAll_cons, push_of_isEmpty isEmpty]
    rfl

/-- Cutting, gluing, adding empty ranges and leaving them out changes nothing. -/
theorem pushAll_iff_of_eqvGen (pieces : Relation.EqvGen Refines ranges others) :
    b.pushAll ranges = .ok b' ↔ b.pushAll others = .ok b' := by
  induction pieces with
  | rel _ _ refines => exact pushAll_iff_of_refines refines
  | refl _ => rfl
  | symm _ _ _ ih => exact ih.symm
  | trans _ _ _ _ _ ih ih' => exact ih.trans ih'

/-! ## What is taken -/

theorem exists_push_iff : (∃ b', b.push r = .ok b') ↔ r.IsEmpty ∨ b.stop ≤ r.start := by
  constructor
  · rintro ⟨b', taken⟩
    by_contra refused
    obtain ⟨filled, early⟩ := not_or.mp refused
    obtain ⟨fault, failed⟩ := push_eq_error_iff.mpr ⟨filled, Nat.lt_of_not_le early⟩
    rw [taken] at failed
    cases failed
  · exact exists_push

theorem ascending_cons_of_filled (filled : ¬ r.IsEmpty) :
    Ascending (r :: ranges) ↔
      (∀ x ∈ (ranges.filter fun x => ¬ x.IsEmpty).head?, r.stop ≤ x.start) ∧ Ascending ranges := by
  unfold Ascending
  rw [filter_filled_cons_of_filled filled, List.isChain_cons]

/-- Ranges are all taken exactly if those that are not empty ascend, the first of them from where
the builder stops. -/
theorem exists_pushAll_iff :
    (∃ b', b.pushAll ranges = .ok b') ↔
      (∀ x ∈ (ranges.filter fun x => ¬ x.IsEmpty).head?, b.stop ≤ x.start) ∧ Ascending ranges := by
  induction ranges generalizing b with
  | nil => exact iff_of_true ⟨b, rfl⟩ ⟨nofun, List.isChain_nil⟩
  | cons r rest ih =>
    rw [pushAll_cons]
    by_cases isEmpty : r.IsEmpty
    · rw [push_of_isEmpty isEmpty, Ascending, filter_filled_cons_of_isEmpty isEmpty]
      exact ih
    · rw [ascending_cons_of_filled isEmpty, filter_filled_cons_of_filled isEmpty]
      constructor
      · rintro ⟨b', run⟩
        obtain ⟨middle, first, rest⟩ := bind_eq_ok_iff.mp run
        have stop := (pushed_of_push first).stop
        rw [if_neg isEmpty] at stop
        have late := (exists_push_iff.mp ⟨middle, first⟩).resolve_left isEmpty
        rw [← stop]
        exact ⟨by rintro x ⟨⟩; exact late, ih.mp ⟨b', rest⟩⟩
      · rintro ⟨late, ascending⟩
        obtain ⟨middle, first⟩ := exists_push (.inr (late r rfl))
        have stop := (pushed_of_push first).stop
        rw [if_neg isEmpty] at stop
        rw [← stop] at ascending
        rw [first]
        exact ih.mpr ascending

theorem stop_of_pushAll (ok : b.pushAll ranges = .ok b') :
    b'.stop = ((ranges.filter fun r => ¬ r.IsEmpty).getLast?.map Range.stop).getD b.stop := by
  induction ranges generalizing b with
  | nil =>
    cases ok
    rfl
  | cons r rest ih =>
    obtain ⟨middle, pushed, run⟩ := exists_of_pushAll_cons ok
    rw [ih run, pushed.stop]
    by_cases isEmpty : r.IsEmpty
    · rw [if_pos isEmpty, filter_filled_cons_of_isEmpty isEmpty]
    · rw [if_neg isEmpty, filter_filled_cons_of_filled isEmpty, List.getLast?_cons]
      cases (rest.filter fun r => ¬ r.IsEmpty).getLast? <;> rfl

/-- What has been taken gives a position the chain of a range with it. -/
theorem chainAt_finish_eq_some_iff (run : empty.pushAll ranges = .ok b) :
    b.finish.chainAt p = some c ↔ ∃ r ∈ ranges, r.Covers p ∧ r.chain = c := by
  have ascending : Ascending ranges := (exists_pushAll_iff.mp ⟨b, run⟩).2
  have labels : b.label p = labelIn ranges p := label_pushAll run p
  rw [(pushAll_canonical canonical_empty run).chainAt_finish, labels]
  exact ascending.labelIn_eq_some_iff

/-- **Ranges are gathered from fragments.**  Ranges are all taken exactly if those that are not empty
ascend, also where the last range is resized in place.  What has been taken then is well formed and
gives every position the chain of the ranges with it.  It does not depend on the pieces that the
ranges come in.  The builder stops where the last range that is not empty does, and the next range is
refused exactly if it is not empty and starts in front of that. -/
theorem pushAll_gathers (ranges : List Range) :
    empty.pushAllByResizing ranges = empty.pushAll ranges ∧
    ((∃ b, empty.pushAll ranges = .ok b) ↔ Ascending ranges) ∧
    ∀ b, empty.pushAll ranges = .ok b →
      b.finish.WellFormed ∧
      (∀ p c, b.finish.chainAt p = some c ↔ ∃ r ∈ ranges, r.Covers p ∧ r.chain = c) ∧
      (∀ others, Relation.EqvGen Refines ranges others → empty.pushAll others = .ok b) ∧
      b.stop = lastStop ranges ∧
      ∀ r, (∃ fault, b.push r = .error fault) ↔ ¬ r.IsEmpty ∧ r.start < b.stop := by
  have ascends : (∃ b, empty.pushAll ranges = .ok b) ↔ Ascending ranges :=
    exists_pushAll_iff.trans (and_iff_right fun _ _ => Nat.zero_le _)
  refine ⟨pushAllByResizing_eq empty ranges, ascends, ?_⟩
  intro b run
  have wellFormed : b.finish.WellFormed :=
    (pushAll_canonical canonical_empty run).wellFormed_finish
  have fragments : ∀ others, Relation.EqvGen Refines ranges others →
      empty.pushAll others = .ok b := by
    intro others pieces
    exact (pushAll_iff_of_eqvGen pieces).mp run
  exact ⟨wellFormed, fun p c => chainAt_finish_eq_some_iff run, fragments, stop_of_pushAll run,
    fun r => push_eq_error_iff⟩

/-- Two touching ranges under one chain with an empty one in between, and the same with the first of
them cut and without the empty one. -/
theorem pushAll_gathers_interleaved :
    let read : Chain := .ofSource { name := "read" } 0
    let join : Chain := .ofSource { name := "join" } 1
    let behind : List Range := [⟨3, 5, read, by decide, by decide⟩,
      ⟨5, 8, join, by decide, by decide⟩]
    let ranges : List Range := [⟨0, 3, read, by decide, by decide⟩] ++
      ⟨7, 7, join, by decide, by decide⟩ :: behind
    let others : List Range := [⟨0, 1, read, by decide, by decide⟩,
      ⟨1, 3, read, by decide, by decide⟩] ++ behind
    let gathered := ofTaint (.ofList (Range.span 0 5 read ++ Range.span 5 8 join))
    Ascending ranges ∧ empty.pushAll ranges = .ok gathered ∧
      Relation.EqvGen Refines ranges others ∧ empty.pushAll others = .ok gathered ∧
      ∃ fault, gathered.push ⟨7, 9, join, by decide, by decide⟩ = .error fault := by
  intro read join behind ranges others gathered
  have run : empty.pushAll ranges = .ok gathered := rfl
  have glued : Refines ([⟨0, 3, read, by decide, by decide⟩] ++ behind) ranges := .add _ _ rfl
  have tiles : Tiles read 0 3 [⟨0, 1, read, by decide, by decide⟩,
      ⟨1, 3, read, by decide, by decide⟩] :=
    .next rfl rfl (.next rfl rfl (.nothing 3))
  have cut : Refines ([⟨0, 3, read, by decide, by decide⟩] ++ behind) others :=
    .cut (r := ⟨0, 3, read, by decide, by decide⟩) [] behind tiles
  have pieces : Relation.EqvGen Refines ranges others :=
    .trans _ _ _ (.symm _ _ (.rel _ _ glued)) (.rel _ _ cut)
  obtain ⟨-, ascends, taken⟩ := pushAll_gathers ranges
  obtain ⟨-, -, fragments, -, refused⟩ := taken gathered run
  exact ⟨ascends.mp ⟨gathered, run⟩, run, pieces, fragments others pieces,
    (refused _).mpr (by decide)⟩

end Builder

end TextProvenance
