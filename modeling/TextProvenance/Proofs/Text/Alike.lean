import TextProvenance.Proofs.Taint.Alike
import TextProvenance.Proofs.Text.Within

/-!
# Texts with taint of the same origin

Texts are alike (`Text.Alike`) if they have the same value and taint that is alike.  Two runs of an
operation on texts that are alike, with any two recorders, fail together and make texts that are
alike; an edit that is stopped leaves texts that are alike, too.
-/

namespace TextProvenance

theorem together_bind_ofOffset {α α' : Type} {R : α → α' → Prop} {offset : Nat}
    {f : Nat → Except Fault α} {f' : Nat → Except Fault α'}
    (each : offset ≤ Position.last → Together R (f offset) (f' offset)) :
    Together R (Position.ofOffset offset >>= f) (Position.ofOffset offset >>= f') := by
  apply together_bind_self
  intro position ok
  rcases Position.of_ofOffset ok with ⟨rfl, bounded⟩
  exact each bounded

theorem Edit.agree_given_ofOffset {σ σ' : Type} {R : σ → σ' → Prop} {offset : Nat}
    {edit : Nat → Edit σ} {edit' : Nat → Edit σ'}
    (each : offset ≤ Position.last → Edit.Agree R (edit offset) (edit' offset)) :
    Edit.Agree R (Edit.given (Position.ofOffset offset) edit)
      (Edit.given (Position.ofOffset offset) edit') := by
  apply Edit.agree_given_self
  intro position ok
  rcases Position.of_ofOffset ok with ⟨rfl, bounded⟩
  exact each bounded

theorem together_ofBounds {c c' : Chain} (start stop : Nat) (same : c.source = c'.source) :
    Together Range.Alike (Range.ofBounds start stop c) (Range.ofBounds start stop c') := by
  unfold Range.ofBounds
  split
  · split
    · exact .ok ⟨rfl, rfl, same⟩
    · exact .error _ _
  · exact .error _ _

namespace Text

/-- The same value, with taint of the same origin. -/
structure Alike (s s' : Text) : Prop where
  value : s.value = s'.value
  taint : s.taint.Alike s'.taint

variable {s s' other other' source source' : Text} {c c' : Chain} {value name : String}
  {start stop index offset : Nat} {recorder recorder' : Recorder}

theorem alike_self (wf : s.WellFormed) : s.Alike s := ⟨rfl, Taint.alike_self wf⟩

namespace Alike

theorem symm (alike : s.Alike s') : s'.Alike s := ⟨alike.value.symm, alike.taint.symm⟩

theorem characters (alike : s.Alike s') : s.characters = s'.characters :=
  congrArg String.toList alike.value

theorem length (alike : s.Alike s') : s.length = s'.length :=
  congrArg Utf8.byteLength alike.characters

theorem isEmpty (alike : s.Alike s') : s.isEmpty = s'.isEmpty :=
  congrArg List.isEmpty alike.characters

theorem cut (alike : s.Alike s') (start stop : Nat) : s.cut start stop = s'.cut start stop := by
  rw [Text.cut, Text.cut, alike.characters]

theorem withTaint {t t' : Taint} (alike : s.Alike s') (taint : t.Alike t') :
    (s.withTaint t).Alike (s'.withTaint t') :=
  ⟨alike.value, taint⟩

end Alike

/-! ## Makers -/

theorem together_ofChain (value : String) (same : c.source = c'.source) :
    Together Alike (ofChain value c) (ofChain value c') := by
  apply together_bind_ofOffset
  intro _
  refine together_bind (together_ofBounds _ _ same) fun r r' alike => ?_
  refine together_bind (Taint.together_ofRanges (.cons alike .nil)) fun t t' alike => ?_
  exact .ok ⟨rfl, alike⟩

theorem together_ofTaint {t t' : Taint} (value : String) (alike : t.Alike t') :
    Together Alike (ofTaint value t) (ofTaint value t') := by
  simp only [ofTaint, alike.stop]
  split
  · exact .ok ⟨rfl, alike⟩
  · exact .error _ _

theorem together_markSource (alike : s.Alike s') (start stop : Nat) (same : c.source = c'.source) :
    Together Alike (s.markSource start stop c) (s'.markSource start stop c') := by
  unfold markSource
  rw [alike.length]
  split
  · apply together_bind_ofOffset
    intro _
    apply together_bind_ofOffset
    intro _
    refine together_bind (together_ofBounds _ _ same) fun r r' alikeRanges => ?_
    refine together_bind (Taint.together_ofRanges (.cons alikeRanges .nil)) fun t t' taint => ?_
    exact .ok (alike.withTaint taint)
  · exact .error _ _

theorem alike_untaint (alike : s.Alike s') : s.untaint.Alike s'.untaint :=
  alike.withTaint (Taint.alike_self Taint.wellFormed_untainted)

/-- The window of a text, cut out and recorded. -/
theorem together_substring (alike : s.Alike s') (start stop : Nat) :
    Together (fun made made' => Alike made.1 made'.1) (s.substring start stop recorder)
      (s'.substring start stop recorder') := by
  unfold substring
  rw [alike.cut]
  apply together_bind_self
  intro cut _
  apply together_bind_ofOffset
  intro _
  apply together_bind_ofOffset
  intro _
  refine together_bind (Taint.together_subtaint alike.taint _ _) fun window window' taint => ?_
  exact .ok ⟨rfl, Recorder.alike_record taint recorder recorder' _ _⟩

theorem together_concat (alike : s.Alike s') (alikeOther : other.Alike other') :
    Together Alike (s.concat other) (s'.concat other') := by
  unfold concat
  rw [alike.length, alike.value, alikeOther.value]
  apply together_bind_ofOffset
  intro bounded
  refine together_bind (Taint.together_concatOf alike.taint alikeOther.taint bounded)
    fun t t' taint => ?_
  exact .ok ⟨rfl, taint⟩

/-- The images of characters get chains with the same sources, at the same places. -/
theorem together_imageRanges {t t' : Taint} (alike : t.Alike t') (map : Char → List Char)
    (done offset : Nat) (chars : List Char) :
    Together (List.Forall₂ Range.Alike) (imageRanges map t done (Utf8.placed offset chars))
      (imageRanges map t' done (Utf8.placed offset chars)) := by
  induction chars generalizing done offset with
  | nil => exact .ok .nil
  | cons c rest ih =>
    apply together_bind_ofOffset
    intro _
    apply together_bind_ofOffset
    intro _
    have same := alike.source_firstChainIn (Nat.lt_add_of_pos_right c.utf8Size_pos : offset < _)
    have goesOn {ranges ranges' : List Range} (all : List.Forall₂ Range.Alike ranges ranges') :
        Together (List.Forall₂ Range.Alike)
          (do return ranges ++ (← imageRanges map t (done + Utf8.byteLength (map c))
            (Utf8.placed (offset + c.utf8Size) rest)))
          (do return ranges' ++ (← imageRanges map t' (done + Utf8.byteLength (map c))
            (Utf8.placed (offset + c.utf8Size) rest))) :=
      together_bind (ih _ _) fun _ _ others => .ok (List.rel_append all others)
    dsimp only
    -- The character has taint in both runs, or in neither.
    cases first : t.firstChainIn offset (offset + c.utf8Size) with
    | none =>
      rw [first, Option.map_none, eq_comm, Option.map_eq_none_iff] at same
      rw [same]
      exact goesOn .nil
    | some chain =>
      rw [first, Option.map_some, eq_comm, Option.map_eq_some_iff] at same
      rcases same with ⟨chain', first', same⟩
      rw [first']
      apply together_bind_ofOffset
      intro _
      apply together_bind_ofOffset
      intro _
      refine together_bind (together_ofBounds _ _ same.symm) fun r r' image => ?_
      exact goesOn (.cons image .nil)

theorem together_mapCharacters (alike : s.Alike s') (map : Char → List Char) (name : String) :
    Together (fun made made' => Alike made.1 made'.1) (s.mapCharacters map name recorder)
      (s'.mapCharacters map name recorder') := by
  unfold mapCharacters
  rw [alike.characters]
  refine together_bind (together_imageRanges alike.taint map 0 0 _) fun ranges ranges' all => ?_
  refine together_bind (Taint.together_ofRanges all) fun mapped mapped' taint => ?_
  exact .ok ⟨rfl, Recorder.alike_record taint recorder recorder' _ _⟩

theorem together_recordPieces (alike : s.Alike s') (separator : String) (start index : Nat)
    (pieces : List (List Char)) :
    Together (fun made made' => List.Forall₂ Alike made.1 made'.1)
      (s.recordPieces separator start index recorder pieces)
      (s'.recordPieces separator start index recorder' pieces) := by
  induction pieces generalizing start index recorder recorder' with
  | nil => exact .ok .nil
  | cons piece rest ih =>
    apply together_bind_ofOffset
    intro _
    apply together_bind_ofOffset
    intro _
    refine together_bind (Taint.together_subtaint alike.taint _ _) fun window window' taint => ?_
    refine together_bind (ih _ _) fun others others' all => ?_
    exact .ok (.cons ⟨rfl, Recorder.alike_record taint recorder recorder' _ _⟩ all)

theorem together_split (alike : s.Alike s') (separator : String) :
    Together (fun made made' => List.Forall₂ Alike made.1 made'.1) (s.split separator recorder)
      (s'.split separator recorder') := by
  unfold split
  rw [alike.characters]
  exact together_recordPieces alike separator 0 0 _

/-! ## Marked arguments -/

theorem alike_markFrom {function sourceInfo : String} {arguments arguments' : List Text}
    (all : List.Forall₂ Alike arguments arguments') :
    List.Forall₂ Alike (markFrom function sourceInfo index recorder arguments).1 arguments' := by
  induction all generalizing index recorder with
  | nil => exact .nil
  | cons alike _ ih =>
    simp only [markFrom]
    split
    · refine .cons ⟨alike.value, ?_⟩ ih
      exact (Taint.alike_extend alike.taint.left _ _).trans alike.taint
    · exact .cons alike ih

theorem alike_markArguments {function sourceInfo : String} {arguments arguments' : List Text}
    (all : List.Forall₂ Alike arguments arguments') :
    List.Forall₂ Alike (markArguments function sourceInfo arguments recorder).1
      (markArguments function sourceInfo arguments' recorder').1 := by
  have each (recorder : Recorder) {first second : List Text}
      (all : List.Forall₂ Alike first second) :
      List.Forall₂ Alike (markArguments function sourceInfo first recorder).1 second := by
    unfold markArguments
    split
    · exact alike_markFrom all
    · exact all
  have swap {first second : List Text} (all : List.Forall₂ Alike first second) :
      List.Forall₂ Alike second first :=
    (all.imp fun _ _ alike => alike.symm).flip
  exact swap (each recorder' (swap (each recorder all)))

/-! ## Edits -/

theorem agree_onTaint {edit edit' : Edit Taint} (agree : Edit.Agree Taint.Alike edit edit') :
    Edit.Agree Alike (onTaint edit) (onTaint edit') :=
  Edit.agree_within (fun _ _ alike => alike.taint)
    (fun _ _ _ _ alike taint => alike.withTaint taint) agree

theorem agree_shiftTaint (position : Nat) (amount : Int) :
    Edit.Agree Alike (shiftTaint position amount) (shiftTaint position amount) :=
  agree_onTaint (Edit.agree_step fun _ _ alike => Taint.together_shift alike position amount)

theorem agree_setValue (value : String) : Edit.Agree Alike (setValue value) (setValue value) :=
  fun _ _ alike => .done ⟨rfl, alike.taint⟩

theorem agree_replaceValue (start stop : Nat) (value : String) :
    Edit.Agree Alike (replaceValue start stop value) (replaceValue start stop value) := by
  intro s s' alike
  unfold replaceValue
  rw [alike.cut]
  exact Edit.agree_given_self (fun _ _ => agree_setValue _) s s' alike

/-- Where taint has been moved to the right, there is room for other taint: how it was cut into
ranges in front of that does not matter. -/
theorem agree_spliceTaint (alikeOther : other.Alike other') (filled : 0 < other.length)
    (bounded : index ≤ Position.last) :
    Edit.Agree Alike (spliceTaint index other) (spliceTaint index other') := by
  unfold spliceTaint
  rw [← alikeOther.length]
  apply Edit.agree_given_ofOffset
  intro _ s s' alike
  refine Edit.agree_outcome_andThen (agree_shiftTaint _ _ s s' alike) fun t t' related done _ => ?_
  rcases exists_of_onTaint_step done with ⟨shifted, shift, rfl⟩
  have gap : shifted.chainAt index = none :=
    Taint.chainAt_of_shift alike.taint.left (by omega) shift
  have inserted : Outcome.Agree Taint.Alike (Edit.step (·.insert index other.taint) shifted)
      (Edit.step (·.insert index other'.taint) t'.taint) :=
    Edit.agree_outcome_step related.taint
      (Taint.together_insert related.taint alikeOther.taint gap bounded)
  exact ⟨related.withTaint inserted.state, inserted.fault⟩

theorem agree_push (alikeOther : other.Alike other') :
    Edit.Agree Alike (push other) (push other') := by
  intro s s' alike
  unfold push
  rw [← alike.length, ← alike.value, ← alikeOther.value]
  refine Edit.agree_given_ofOffset (fun bounded => ?_) s s' alike
  apply Edit.agree_andThen _ (agree_setValue _)
  exact agree_onTaint fun t t' taint => Taint.agree_concat taint alikeOther.taint bounded

theorem agree_insert (index : Nat) (alikeOther : other.Alike other') :
    Edit.Agree Alike (insert index other) (insert index other') := by
  unfold insert
  rw [← alikeOther.isEmpty, ← alikeOther.value]
  split
  · exact Edit.agree_nothing
  · rename_i filled
    apply Edit.agree_andThen (agree_replaceValue _ _ _)
    apply Edit.agree_given_ofOffset
    intro bounded
    exact agree_spliceTaint alikeOther (length_pos filled) bounded

theorem agree_remove (start stop : Nat) :
    Edit.Agree Alike (remove start stop) (remove start stop) := by
  apply Edit.agree_andThen (agree_replaceValue _ _ _)
  apply Edit.agree_given_ofOffset
  intro _
  apply Edit.agree_given_ofOffset
  intro _
  exact agree_shiftTaint _ _

theorem agree_substitute (cut : Utf8.Cut) (start stop : Nat) (alikeOther : other.Alike other') :
    Edit.Agree Alike (substitute cut start stop other) (substitute cut start stop other') := by
  unfold substitute
  rw [← alikeOther.isEmpty, ← alikeOther.characters]
  apply Edit.agree_given_ofOffset
  intro bounded
  apply Edit.agree_given_ofOffset
  intro _
  apply Edit.agree_andThen (agree_setValue _)
  apply Edit.agree_given_self
  intro removedStop _
  apply Edit.agree_andThen (agree_shiftTaint _ _)
  split
  · exact Edit.agree_nothing
  · rename_i filled
    exact agree_spliceTaint alikeOther (length_pos filled) bounded

/-- Replacing is recorded, so it is an edit of a recorder, too; that may be any. -/
theorem agree_replace (start stop : Nat) (alikeOther : other.Alike other') :
    Edit.Agree (fun state state' => Alike state.1 state'.1) (replace start stop other)
      (replace start stop other') := by
  intro state state' alike
  rcases state with ⟨s, recorder⟩
  rcases state' with ⟨s', recorder'⟩
  simp only [replace]
  rw [Alike.cut alike, ← alikeOther.value]
  refine Edit.agree_given_self (fun cut _ => ?_) _ _ alike
  apply Edit.agree_andThen
  · exact Edit.agree_within (fun _ _ alike => alike) (fun _ _ _ _ _ alike => alike)
      (agree_substitute cut start stop alikeOther)
  · intro state state' alike
    exact .done (alike.withTaint (Recorder.alike_record alike.taint state.2 state'.2 _ _))

theorem together_movedWindow (alike : source.Alike source') (start stop offset : Nat) :
    Together Taint.Alike (source.movedWindow start stop offset)
      (source'.movedWindow start stop offset) := by
  apply together_bind_ofOffset
  intro _
  apply together_bind_ofOffset
  intro _
  refine together_bind (Taint.together_subtaint alike.taint _ _) fun window window' taint => ?_
  apply together_bind_self
  intro target _
  apply together_bind_ofOffset
  intro bounded
  exact Taint.together_concatOf (Taint.alike_self Taint.wellFormed_untainted) taint bounded

theorem agree_copyTaint (alike : source.Alike source') (start offset : Nat) (stop : Option Nat) :
    Edit.Agree Alike (copyTaint source start offset stop)
      (copyTaint source' start offset stop) := by
  simp only [copyTaint, ← alike.length]
  split
  · exact Edit.agree_nothing
  · exact Edit.agree_given (together_movedWindow alike _ _ _) fun moved moved' taint =>
      agree_onTaint (Taint.agree_addTaint taint)

end Text

end TextProvenance
