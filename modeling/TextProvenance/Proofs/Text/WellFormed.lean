import TextProvenance.Proofs.Taint.WellFormed
import TextProvenance.Proofs.Text.Makers
import TextProvenance.Text.Arguments

/-!
# Operations on texts keep taint well formed

Also where an edit stops half-way, with the value changed and the taint not, or the other way round.
-/

namespace TextProvenance

theorem Recorder.record_wellFormed {recorder : Recorder} {t : Taint} {name : String}
    {arguments : List String} (wf : t.WellFormed) :
    (recorder.record t name arguments).1.WellFormed := by
  unfold Recorder.record
  split
  · exact Taint.extend_wellFormed wf
  · exact wf

namespace Text

variable {s s' other source : Text} {recorder recorder' : Recorder} {value name : String}

/-- The taint of the text is well formed. -/
def WellFormed (s : Text) : Prop := s.taint.WellFormed

instance (s : Text) : Decidable s.WellFormed := inferInstanceAs (Decidable s.taint.WellFormed)

/-! ## Makers -/

theorem ofChain_wellFormed {chain : Chain} (ok : ofChain value chain = .ok s) :
    s.WellFormed := by
  obtain ⟨r, taint, -, made, rfl⟩ := exists_of_ofChain ok
  exact Taint.wellFormed_of_ofRanges made

theorem ofTaint_wellFormed {t : Taint} (wf : t.WellFormed) (ok : ofTaint value t = .ok s) :
    s.WellFormed := by
  simp only [ofTaint] at ok
  split at ok
  · cases ok
    exact wf
  · cases ok

theorem markSource_wellFormed {start stop : Nat} {chain : Chain}
    (ok : s.markSource start stop chain = .ok s') : s'.WellFormed := by
  obtain ⟨-, r, taint, -, made, rfl⟩ := exists_of_markSource ok
  exact Taint.wellFormed_of_ofRanges made

theorem substring_wellFormed {start stop : Nat}
    (ok : s.substring start stop recorder = .ok (s', recorder')) : s'.WellFormed := by
  obtain ⟨cut, window, -, cutOut, rfl, -⟩ := exists_of_substring ok
  exact Recorder.record_wellFormed (Taint.subtaint_wellFormed cutOut)

theorem concatOf_wellFormed {left right taint : Taint} {length : Nat} (wf : left.WellFormed)
    (ok : Taint.concatOf left length right = .ok taint) : taint.WellFormed := by
  have kept := Taint.keeps_concat right length left wf
  unfold Taint.concatOf Edit.result at ok
  split at ok
  · rename_i state done
    rw [done] at kept
    cases ok
    exact kept
  · cases ok

theorem concat_wellFormed (wf : s.WellFormed) (ok : s.concat other = .ok s') :
    s'.WellFormed := by
  obtain ⟨-, taint, joined, rfl⟩ := exists_of_concat ok
  exact concatOf_wellFormed wf joined

theorem mapCharacters_wellFormed {map : Char → List Char}
    (ok : s.mapCharacters map name recorder = .ok (s', recorder')) : s'.WellFormed := by
  obtain ⟨ranges, mapped, -, built, rfl, -⟩ := exists_of_mapCharacters ok
  exact Recorder.record_wellFormed (Taint.wellFormed_of_ofRanges built)

theorem recordPieces_wellFormed {separator : String} {pieces : List (List Char)}
    {start index : Nat} {parts : List Text}
    (ok : s.recordPieces separator start index recorder pieces = .ok (parts, recorder')) :
    ∀ part ∈ parts, part.WellFormed := by
  induction pieces generalizing start index recorder parts with
  | nil => cases ok; simp
  | cons piece rest ih =>
    obtain ⟨window, others, cutOut, recorded, rfl⟩ := exists_of_recordPieces_cons ok
    intro part mem
    rcases List.mem_cons.mp mem with rfl | mem
    · exact Recorder.record_wellFormed (Taint.subtaint_wellFormed cutOut)
    · exact ih recorded part mem

theorem markFrom_wellFormed {function sourceInfo : String} {index : Nat} {arguments : List Text}
    (wf : ∀ argument ∈ arguments, argument.WellFormed) :
    ∀ marked ∈ (markFrom function sourceInfo index recorder arguments).1, marked.WellFormed := by
  induction arguments generalizing index recorder with
  | nil => simp [markFrom]
  | cons argument rest ih =>
    have wfRest : ∀ other ∈ rest, other.WellFormed := fun other mem => wf other (by simp [mem])
    intro marked mem
    unfold markFrom at mem
    split at mem
    · rcases List.mem_cons.mp mem with rfl | mem
      · exact Taint.extend_wellFormed (wf argument (by simp))
      · exact ih wfRest marked mem
    · rcases List.mem_cons.mp mem with rfl | mem
      · exact wf marked (by simp)
      · exact ih wfRest marked mem

theorem markArguments_wellFormed {function sourceInfo : String} {arguments : List Text}
    (wf : ∀ argument ∈ arguments, argument.WellFormed) :
    ∀ marked ∈ (markArguments function sourceInfo arguments recorder).1, marked.WellFormed := by
  unfold markArguments
  split
  · exact markFrom_wellFormed wf
  · exact wf

/-! ## Edits in place -/

theorem keeps_onTaint {edit : Edit Taint} (keeps : Edit.Keeps Taint.WellFormed edit) :
    Edit.Keeps WellFormed (onTaint edit) :=
  Edit.keeps_within (fun _ _ => rfl) keeps

theorem keeps_shiftTaint (position : Nat) (amount : Int) :
    Edit.Keeps WellFormed (shiftTaint position amount) :=
  keeps_onTaint (Taint.Change.keeps_wellFormed (.shift position amount) 0)

theorem keeps_setValue : Edit.Keeps WellFormed (setValue value) := fun _ wf => wf

theorem keeps_replaceValue (start stop : Nat) :
    Edit.Keeps WellFormed (replaceValue start stop value) :=
  fun s wf => Edit.keeps_given (fun _ _ => keeps_setValue) s wf

theorem keeps_spliceTaint (position : Nat) (other : Text) :
    Edit.Keeps WellFormed (spliceTaint position other) :=
  Edit.keeps_given fun length _ => Edit.keeps_andThen (keeps_shiftTaint position length)
    (keeps_onTaint (Taint.Change.keeps_wellFormed (.insert position other.taint) 0))

theorem keeps_push (other : Text) : Edit.Keeps WellFormed (push other) := by
  intro s wf
  refine Edit.keeps_given (fun position _ => Edit.keeps_andThen ?_ keeps_setValue) s wf
  exact keeps_onTaint (Taint.keeps_concat other.taint position)

theorem keeps_insert (index : Nat) (other : Text) : Edit.Keeps WellFormed (insert index other) := by
  unfold insert
  split
  · exact Edit.keeps_nothing
  · exact Edit.keeps_andThen (keeps_replaceValue index index)
      (Edit.keeps_given fun position _ => keeps_spliceTaint position other)

theorem keeps_remove (start stop : Nat) : Edit.Keeps WellFormed (remove start stop) :=
  Edit.keeps_andThen (keeps_replaceValue start stop)
    (Edit.keeps_given fun position _ => Edit.keeps_given fun removed _ =>
      keeps_shiftTaint position (-removed))

theorem keeps_substitute (cut : Utf8.Cut) (start stop : Nat) (other : Text) :
    Edit.Keeps WellFormed (substitute cut start stop other) := by
  refine Edit.keeps_given fun position _ => Edit.keeps_given fun removed _ => ?_
  refine Edit.keeps_andThen keeps_setValue (Edit.keeps_given fun removedStop _ => ?_)
  apply Edit.keeps_andThen (keeps_shiftTaint removedStop (-removed))
  split
  · exact Edit.keeps_nothing
  · exact keeps_spliceTaint position other

theorem keeps_replace (start stop : Nat) (other : Text) :
    Edit.Keeps (fun state => state.1.WellFormed) (replace start stop other) := by
  rintro ⟨s, recorder⟩ wf
  refine Edit.keeps_given (I := fun state => state.1.WellFormed) (fun cut _ => ?_) (s, recorder) wf
  refine Edit.keeps_andThen ?_ fun state wf => Recorder.record_wellFormed wf
  exact Edit.keeps_within (fun _ _ => rfl) (keeps_substitute cut start stop other)

theorem keeps_copyTaint (source : Text) (start offset : Nat) (stop : Option Nat) :
    Edit.Keeps WellFormed (copyTaint source start offset stop) := by
  simp only [copyTaint]
  split
  · exact Edit.keeps_nothing
  · exact Edit.keeps_given fun moved _ => keeps_onTaint (Taint.keeps_addTaint moved)

end Text

end TextProvenance
