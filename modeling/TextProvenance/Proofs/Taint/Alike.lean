import TextProvenance.Proofs.Agree
import TextProvenance.Proofs.Taint.Overwrite
import TextProvenance.Proofs.Taint.Record
import TextProvenance.Proofs.Taint.Splice
import TextProvenance.Proofs.Taint.Window

/-!
# Taint of the same origin

Taint is alike (`Taint.Alike`) if its positions were tainted by the same sources.  What was recorded
since then may differ, and with it how the taint is cut into ranges, since ranges are joined only
under the same chain.  What the operations on texts do with their taint depends on neither: on taint
that is alike they fail together, and what they make is alike.
-/

namespace TextProvenance

/-- The positions have labels with the same sources. -/
def SameSources (label label' : Nat → Option Chain) : Prop :=
  ∀ p, (label p).map Chain.source = (label' p).map Chain.source

/-- The ranges cover the same positions, under chains with the same source. -/
structure Range.Alike (r r' : Range) : Prop where
  start : r.start = r'.start
  stop : r.stop = r'.stop
  source : r.chain.source = r'.chain.source

theorem Range.Alike.sameSources {r r' : Range} (alike : r.Alike r') :
    SameSources r.label r'.label := by
  intro p
  have covers : r.Covers p ↔ r'.Covers p := by
    rw [Range.Covers, Range.Covers, alike.start, alike.stop]
  by_cases inside : r.Covers p
  · rw [label_of_covers inside, label_of_covers (covers.mp inside)]
    exact congrArg some alike.source
  · rw [label_of_not_covers inside, label_of_not_covers (inside ∘ covers.mpr)]

theorem sameSources_labelIn {ranges ranges' : List Range}
    (all : List.Forall₂ Range.Alike ranges ranges') :
    SameSources (labelIn ranges) (labelIn ranges') := by
  intro p
  induction all with
  | nil => rfl
  | cons alike _ ih => rw [labelIn_cons, labelIn_cons, Option.map_or, Option.map_or,
      alike.sameSources, ih]

namespace Taint

/-- The operation at which the taint of a position entered, if the position is tainted. -/
def sourceAt (t : Taint) (p : Nat) : Option Operation := (t.chainAt p).map Chain.source

/-- Both are well formed, and their positions were tainted by the same sources. -/
structure Alike (t t' : Taint) : Prop where
  left : t.WellFormed
  right : t'.WellFormed
  sourceAt : ∀ p, t.sourceAt p = t'.sourceAt p

variable {t t' other other' : Taint} {label label' inserted inserted' : Nat → Option Chain}
  {index offset : Nat}

theorem alike_self (wf : t.WellFormed) : t.Alike t := ⟨wf, wf, fun _ => rfl⟩

theorem HasLabels.alike (labels : t.HasLabels label) (labels' : t'.HasLabels label')
    (same : SameSources label label') : t.Alike t' := by
  refine ⟨labels.wellFormed, labels'.wellFormed, fun p => ?_⟩
  rw [Taint.sourceAt, Taint.sourceAt, labels.chainAt, labels'.chainAt]
  exact same p

namespace Alike

theorem symm (alike : t.Alike t') : t'.Alike t :=
  ⟨alike.right, alike.left, fun p => (alike.sourceAt p).symm⟩

theorem trans (first : t.Alike t') (second : t'.Alike other) : t.Alike other :=
  ⟨first.left, second.right, fun p => (first.sourceAt p).trans (second.sourceAt p)⟩

theorem sameSources (alike : t.Alike t') : SameSources t.chainAt t'.chainAt := alike.sourceAt

theorem chainAt_eq_none_iff (alike : t.Alike t') (p : Nat) :
    t.chainAt p = none ↔ t'.chainAt p = none := by
  rw [← Option.map_eq_none_iff (f := Chain.source), alike.sameSources p, Option.map_eq_none_iff]

theorem stop (alike : t.Alike t') : t.stop = t'.stop :=
  alike.left.stop_congr alike.right alike.chainAt_eq_none_iff

end Alike

/-! ## Labels -/

theorem sameSources_or (same : SameSources label label')
    (sameOther : SameSources inserted inserted') :
    SameSources (fun p => (inserted p).or (label p)) fun p => (inserted' p).or (label' p) := by
  intro p
  simp only [Option.map_or, same p, sameOther p]

theorem sameSources_window {start stop : Nat} (same : SameSources label label') :
    SameSources (windowLabel start stop label) (windowLabel start stop label') := by
  intro p
  unfold windowLabel
  split
  · exact same _
  · rfl

theorem sameSources_shifted {target : Nat} (same : SameSources label label') :
    SameSources (shiftedLabel index target label) (shiftedLabel index target label') := by
  intro p
  unfold shiftedLabel
  split
  · exact same p
  · split
    · rfl
    · exact same _

theorem sameSources_joined (same : SameSources label label')
    (sameOther : SameSources inserted inserted') :
    SameSources (joinedLabel offset label inserted) (joinedLabel offset label' inserted') := by
  intro p
  unfold joinedLabel
  split
  · exact same p
  · exact sameOther _

theorem sameSources_inserted {length : Nat} (same : SameSources label label')
    (sameInserted : SameSources inserted inserted') :
    SameSources (insertedLabel index length label inserted)
      (insertedLabel index length label' inserted') := by
  intro p
  unfold insertedLabel
  split
  · exact same p
  · split
    · exact sameInserted _
    · exact same p

/-! ## Operations -/

theorem together_of_labels {x x' : Except Fault Taint}
    (made : ∃ t, x = .ok t ∧ t.HasLabels label) (made' : ∃ t, x' = .ok t ∧ t.HasLabels label')
    (same : SameSources label label') : Together Alike x x' := by
  rcases made with ⟨t, rfl, labels⟩
  rcases made' with ⟨t', rfl, labels'⟩
  exact .ok (labels.alike labels' same)

theorem agree_of_labels {o o' : Outcome Taint}
    (done : ∃ t, o = { state := t } ∧ t.HasLabels label)
    (done' : ∃ t, o' = { state := t } ∧ t.HasLabels label') (same : SameSources label label') :
    Outcome.Agree Alike o o' := by
  rcases done with ⟨t, rfl, labels⟩
  rcases done' with ⟨t', rfl, labels'⟩
  exact .done (labels.alike labels' same)

/-- Whether a builder takes ranges depends on their bounds alone. -/
theorem together_pushAll {b b' : Builder} {ranges ranges' : List Range} (stops : b.stop = b'.stop)
    (all : List.Forall₂ Range.Alike ranges ranges') :
    Together (fun _ _ => True) (b.pushAll ranges) (b'.pushAll ranges') := by
  induction all generalizing b b' with
  | nil => exact .ok trivial
  | @cons r r' rest rest' alike _ ih =>
    have empties : r.IsEmpty ↔ r'.IsEmpty := by
      rw [Range.IsEmpty, Range.IsEmpty, alike.start, alike.stop]
    rw [Builder.pushAll_cons, Builder.pushAll_cons]
    by_cases fits : r.IsEmpty ∨ b.stop ≤ r.start
    · obtain ⟨c, ok⟩ := Builder.exists_push fits
      rw [empties, stops, alike.start] at fits
      obtain ⟨c', ok'⟩ := Builder.exists_push fits
      rw [ok, ok']
      apply ih
      rw [(Builder.pushed_of_push ok).stop, (Builder.pushed_of_push ok').stop, stops, alike.stop]
      simp only [empties]
    · have refused : ¬ r.IsEmpty ∧ r.start < b.stop := by
        rw [not_or, Nat.not_le] at fits
        exact fits
      obtain ⟨fault, fails⟩ := Builder.push_eq_error_iff.mpr refused
      rw [empties, stops, alike.start] at refused
      obtain ⟨fault', fails'⟩ := Builder.push_eq_error_iff.mpr refused
      rw [fails, fails']
      exact .error fault fault'

theorem together_ofRanges {ranges ranges' : List Range}
    (all : List.Forall₂ Range.Alike ranges ranges') :
    Together Alike (ofRanges ranges) (ofRanges ranges') := by
  have together : Together (fun _ _ => True) (ofRanges ranges) (ofRanges ranges') :=
    together_map (together_pushAll rfl all) fun _ _ _ => trivial
  cases made : ofRanges ranges with
  | error fault =>
    rw [made] at together
    exact together_of_errors ⟨fault, rfl⟩ (together.exists_error_iff.mp ⟨fault, rfl⟩)
  | ok t =>
    cases made' : ofRanges ranges' with
    | error fault =>
      rw [made, made'] at together
      cases together
    | ok t' =>
      exact .ok ((hasLabels_of_ofRanges made).alike (hasLabels_of_ofRanges made')
        (sameSources_labelIn all))

theorem together_subtaint (alike : t.Alike t') (start stop : Nat) :
    Together Alike (t.subtaint start stop) (t'.subtaint start stop) := by
  by_cases ordered : start ≤ stop
  · exact together_of_labels (subtaint_spec alike.left ordered) (subtaint_spec alike.right ordered)
      (sameSources_window alike.sameSources)
  · exact together_of_errors (subtaint_eq_error (Nat.lt_of_not_le ordered))
      (subtaint_eq_error (Nat.lt_of_not_le ordered))

theorem together_shift (alike : t.Alike t') (index : Nat) (amount : Int) :
    Together Alike (t.shift index amount) (t'.shift index amount) := by
  by_cases leaves : ¬ Position.FitsWord (index + amount) ∨ index + amount < 0 ∨
      index < t.stop ∧ Position.last < t.stop + amount
  · have leaves' := leaves
    rw [alike.stop] at leaves'
    exact together_of_errors (shift_eq_error alike.left leaves) (shift_eq_error alike.right leaves')
  · simp only [not_or, not_and, Decidable.not_not, Int.not_lt] at leaves
    rcases leaves with ⟨word, starts, fits⟩
    rcases Int.eq_ofNat_of_zero_le starts with ⟨target, reached⟩
    have fits : t.stop ≤ index ∨ t.stop + amount ≤ Position.last := by omega
    have fits' := fits
    rw [alike.stop] at fits'
    exact together_of_labels (shift_spec alike.left reached word fits)
      (shift_spec alike.right reached word fits') (sameSources_shifted alike.sameSources)

theorem agree_concat (alike : t.Alike t') (alikeOther : other.Alike other')
    (bounded : offset ≤ Position.last) :
    Outcome.Agree Alike (concat other offset t) (concat other' offset t') := by
  by_cases leaves : offset < t.stop ∨ Position.last < other.stop + offset
  · obtain ⟨fault, stopped⟩ := concat_eq_error bounded leaves
    rw [alike.stop, alikeOther.stop] at leaves
    obtain ⟨fault', stopped'⟩ := concat_eq_error bounded leaves
    rw [stopped, stopped']
    exact .stopped fault fault' alike
  · rw [not_or, Nat.not_lt, Nat.not_lt] at leaves
    have made := concat_spec alike.left alikeOther.left leaves.1 leaves.2
    rw [alike.stop, alikeOther.stop] at leaves
    have made' := concat_spec alike.right alikeOther.right leaves.1 leaves.2
    exact agree_of_labels made made' (sameSources_joined alike.sameSources alikeOther.sameSources)

theorem together_concatOf (alike : t.Alike t') (alikeOther : other.Alike other')
    (bounded : offset ≤ Position.last) :
    Together Alike (concatOf t offset other) (concatOf t' offset other') :=
  Edit.together_result (agree_concat alike alikeOther bounded)

/-- An insertion between ranges that touch would tell them from a single range; so the place must be
untainted. -/
theorem together_insert (alike : t.Alike t') (alikeOther : other.Alike other')
    (gap : t.chainAt index = none) (bounded : index ≤ Position.last) :
    Together Alike (t.insert index other) (t'.insert index other') := by
  have gap' := (alike.chainAt_eq_none_iff index).mp gap
  by_cases refused : Position.last < other.stop + index ∨
      ∃ p, index ≤ p ∧ p < index + other.stop ∧ t.chainAt p ≠ none
  · have fails := insert_eq_error alike.left alikeOther.left gap bounded refused
    simp only [alikeOther.stop, ne_eq, alike.chainAt_eq_none_iff] at refused
    exact together_of_errors fails
      (insert_eq_error alike.right alikeOther.right gap' bounded refused)
  · simp only [not_or, Nat.not_lt, not_exists, not_and, Decidable.not_not] at refused
    rcases refused with ⟨fits, room⟩
    have made := insert_spec alike.left alikeOther.left gap fits room
    simp only [alikeOther.stop, alike.chainAt_eq_none_iff] at fits room
    have made' := insert_spec alike.right alikeOther.right gap' fits room
    rw [alikeOther.stop] at made
    exact together_of_labels made made'
      (sameSources_inserted alike.sameSources alikeOther.sameSources)

theorem agree_addTaint (alikeOther : other.Alike other') :
    Edit.Agree Alike (addTaint other) (addTaint other') :=
  fun _ _ alike =>
    agree_of_labels (addTaint_spec alike.left alikeOther.left)
      (addTaint_spec alike.right alikeOther.right)
      (sameSources_or alike.sameSources alikeOther.sameSources)

/-- The first chain of a window has the same source. -/
theorem Alike.source_firstChainIn {lo hi : Nat} (alike : t.Alike t') (ordered : lo < hi) :
    (t.firstChainIn lo hi).map Chain.source = (t'.firstChainIn lo hi).map Chain.source := by
  rw [firstChainIn_eq alike.left ordered, firstChainIn_eq alike.right ordered,
    List.map_findSome?, List.map_findSome?]
  exact findSome?_congr fun p _ => alike.sameSources p

/-! ## Recording -/

/-- Extending chains leaves their sources as they are. -/
theorem alike_extend (wf : t.WellFormed) (operation : Operation) (serial : Nat) :
    (t.extend operation serial).Alike t := by
  have labels := extend_spec wf operation serial
  refine ⟨labels.wellFormed, wf, fun p => ?_⟩
  rw [sourceAt, labels.chainAt, Option.map_map]
  exact Option.map_congr fun c _ => c.source_extend operation _

end Taint

/-- Whether a recorder is on or off, it leaves the sources as they are. -/
theorem Recorder.alike_record {t t' : Taint} (alike : t.Alike t') (recorder recorder' : Recorder)
    (name : String) (arguments : List String) :
    (recorder.record t name arguments).1.Alike (recorder'.record t' name arguments).1 := by
  have each (recorder : Recorder) {t : Taint} (wf : t.WellFormed) :
      (recorder.record t name arguments).1.Alike t := by
    unfold record
    split
    · exact Taint.alike_extend wf ..
    · exact Taint.alike_self wf
  exact ((each recorder alike.left).trans alike).trans (each recorder' alike.right).symm

end TextProvenance
