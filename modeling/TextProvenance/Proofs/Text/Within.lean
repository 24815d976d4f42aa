import TextProvenance.Proofs.Taint.Overwrite
import TextProvenance.Proofs.Text.Splice

/-!
# Taint within its text

`Text.Sound` is a text with well-formed taint that does not reach past the end of its value.  What
is made of sound texts is sound, and edits keep texts sound also where they stop half-way: an
insertion changes the value first, so at every step the taint stops within what the value will be.

Copying taint is the exception: it keeps a text sound exactly if the taint lands within its value
(`Text.sound_copyTaint_iff`).
-/

namespace TextProvenance

theorem Range.bounds_of_ofBounds {start stop : Nat} {c : Chain} {r : Range}
    (ok : Range.ofBounds start stop c = .ok r) : r.start = start ∧ r.stop = stop := by
  unfold Range.ofBounds at ok
  split at ok
  · split at ok
    · cases ok
      exact ⟨rfl, rfl⟩
    · cases ok
  · cases ok

/-- Taint stops where the last of the ranges that it is built from stops, or in front of that. -/
theorem Taint.stop_le_of_ofRanges {ranges : List Range} {t : Taint} {n : Nat}
    (ok : Taint.ofRanges ranges = .ok t) (stops : ∀ r ∈ ranges, r.stop ≤ n) : t.stop ≤ n := by
  have labels := Taint.hasLabels_of_ofRanges ok
  refine labels.wellFormed.stop_le_iff.mpr fun p late => ?_
  rw [labels.chainAt, labelIn_eq_none_iff]
  intro r mem covers
  have := stops r mem
  have := covers.2
  omega

namespace Text

open Utf8 (byteLength Cut)

variable {s s' other source : Text} {recorder recorder' : Recorder} {value name : String}
  {start stop index : Nat}

/-- The taint of the text is well formed, and within its value. -/
structure Sound (s : Text) : Prop where
  wellFormed : s.WellFormed
  within : s.Within

theorem length_ofList (chars : List Char) (taint : Taint) :
    length ⟨String.ofList chars, taint⟩ = byteLength chars := by
  rw [length, characters_ofList]

/-! ## Makers -/

theorem sound_untainted (value : String) : Sound { value } :=
  ⟨Taint.wellFormed_untainted, Nat.zero_le _⟩

theorem sound_ofChain {c : Chain} (ok : ofChain value c = .ok s) : s.Sound := by
  refine ⟨ofChain_wellFormed ok, ?_⟩
  obtain ⟨r, taint, range, made, rfl⟩ := exists_of_ofChain ok
  rcases Range.bounds_of_ofBounds range with ⟨-, bound⟩
  exact Taint.stop_le_of_ofRanges made fun x mem => by
    rw [List.mem_singleton.mp mem, bound]
    exact Nat.le_refl _

theorem sound_ofTaint {t : Taint} (wf : t.WellFormed) (ok : ofTaint value t = .ok s) :
    s.Sound := by
  refine ⟨ofTaint_wellFormed wf ok, ?_⟩
  simp only [ofTaint] at ok
  split at ok
  · cases ok
    exact ‹_›
  · cases ok

theorem sound_markSource {c : Chain} (ok : s.markSource start stop c = .ok s') : s'.Sound := by
  refine ⟨markSource_wellFormed ok, ?_⟩
  obtain ⟨inside, r, taint, range, made, rfl⟩ := exists_of_markSource ok
  rcases Range.bounds_of_ofBounds range with ⟨-, bound⟩
  exact Taint.stop_le_of_ofRanges made fun x mem => by
    rw [List.mem_singleton.mp mem, bound]
    exact inside

theorem sound_record (sound : s.Sound) (recorder : Recorder) (name : String)
    (arguments : List String) :
    (s.withTaint (recorder.record s.taint name arguments).1).Sound :=
  ⟨Recorder.record_wellFormed sound.wellFormed,
    (recorded_record sound.wellFormed sound.within recorder name arguments).1⟩

/-- The taint of a window is within the characters of the window. -/
theorem sound_window {taint window : Taint} (chars : List Char) (wf : taint.WellFormed)
    (ok : taint.subtaint start stop = .ok window) (length : stop - start ≤ byteLength chars) :
    Sound ⟨String.ofList chars, window⟩ := by
  have labels := Taint.labels_of_subtaint wf ok
  have stops : window.stop ≤ byteLength chars := Nat.le_trans labels.stop_le_of_window length
  refine ⟨labels.wellFormed, ?_⟩
  rwa [Within, length_ofList]

theorem cut_of_ok {cut : Cut} (ok : s.cut start stop = .ok cut) :
    Utf8.cut? start stop s.characters = some cut := by
  unfold Text.cut at ok
  split at ok
  · cases ok
    exact ‹_›
  · cases ok

theorem sound_substring (sound : s.Sound)
    (ok : s.substring start stop recorder = .ok (s', recorder')) : s'.Sound := by
  obtain ⟨cut, window, found, cutOut, rfl, -⟩ := exists_of_substring ok
  rcases lengths_of_cut (cut_of_ok found) with ⟨-, middle, -, -⟩
  have soundWindow := sound_window cut.middle sound.wellFormed cutOut (by omega)
  exact sound_record soundWindow ..

theorem done_of_concatOf {left right taint : Taint} {length : Nat}
    (ok : Taint.concatOf left length right = .ok taint) :
    Taint.concat right length left = { state := taint } := by
  unfold Taint.concatOf Edit.result at ok
  split at ok
  · rename_i state done
    cases ok
    exact done
  · cases ok

theorem sound_concat (sound : s.Sound) (soundOther : other.Sound)
    (ok : s.concat other = .ok s') : s'.Sound := by
  obtain ⟨bounded, taint, joined, rfl⟩ := exists_of_concat ok
  have labels := Taint.labels_of_concat sound.wellFormed soundOther.wellFormed bounded
    (done_of_concatOf joined)
  have spliced := Spliced.of_joined sound.wellFormed soundOther.wellFormed sound.within
    soundOther.within labels
  exact ⟨labels.wellFormed, spliced.within sound.wellFormed soundOther.wellFormed sound.within
    soundOther.within⟩

/-- The images of characters stop where the images of all characters do, or in front of that. -/
theorem stop_le_of_imageRanges {map : Char → List Char} {taint : Taint} {done offset : Nat}
    {chars : List Char} {ranges : List Range}
    (ok : imageRanges map taint done (Utf8.placed offset chars) = .ok ranges) :
    ∀ r ∈ ranges, r.stop ≤ done + byteLength (chars.flatMap map) := by
  induction chars generalizing done offset ranges with
  | nil => cases ok; simp
  | cons c rest ih =>
    obtain ⟨front, others, images, rfl, image⟩ := exists_of_imageRanges_cons ok
    rw [List.flatMap_cons, Utf8.byteLength_append]
    refine List.forall_mem_append.mpr ⟨fun r mem => ?_, fun r mem => ?_⟩
    · obtain ⟨c, -, bounds⟩ := image r mem
      rw [(Range.bounds_of_ofBounds bounds).2]
      omega
    · have := ih images r mem
      omega

theorem sound_mapCharacters {map : Char → List Char}
    (ok : s.mapCharacters map name recorder = .ok (s', recorder')) : s'.Sound := by
  obtain ⟨ranges, mapped, images, made, rfl, -⟩ := exists_of_mapCharacters ok
  have stops := stop_le_of_imageRanges images
  have sound : Sound ⟨String.ofList (s.characters.flatMap map), mapped⟩ := by
    refine ⟨Taint.wellFormed_of_ofRanges made, ?_⟩
    unfold Within
    rw [length_ofList]
    exact Taint.stop_le_of_ofRanges made fun r mem => by have := stops r mem; omega
  exact sound_record sound ..

theorem sound_recordPieces {separator : String} {pieces : List (List Char)} {parts : List Text}
    (sound : s.Sound)
    (ok : s.recordPieces separator start index recorder pieces = .ok (parts, recorder')) :
    ∀ part ∈ parts, part.Sound := by
  induction pieces generalizing start index recorder parts with
  | nil => cases ok; simp
  | cons piece rest ih =>
    obtain ⟨window, others, cutOut, recorded, rfl⟩ := exists_of_recordPieces_cons ok
    intro part mem
    rcases List.mem_cons.mp mem with rfl | mem
    · have soundWindow := sound_window piece sound.wellFormed cutOut (by omega)
      exact sound_record soundWindow ..
    · exact ih recorded part mem

theorem sound_extend (sound : s.Sound) (operation : Operation) (serial : Nat) :
    (s.withTaint (s.taint.extend operation serial)).Sound := by
  have labels := Taint.extend_spec sound.wellFormed operation serial
  have same := labels.wellFormed.stop_congr sound.wellFormed fun p => by
    rw [labels.chainAt, Option.map_eq_none_iff]
  exact ⟨labels.wellFormed, Nat.le_trans (Nat.le_of_eq same) sound.within⟩

theorem sound_markFrom {function sourceInfo : String} {arguments : List Text}
    (sound : ∀ argument ∈ arguments, argument.Sound) :
    ∀ marked ∈ (markFrom function sourceInfo index recorder arguments).1, marked.Sound := by
  induction arguments generalizing index recorder with
  | nil => simp [markFrom]
  | cons argument rest ih =>
    have soundRest : ∀ other ∈ rest, other.Sound := fun other mem => sound other (by simp [mem])
    intro marked mem
    unfold markFrom at mem
    split at mem
    · rcases List.mem_cons.mp mem with rfl | mem
      · exact sound_extend (sound argument (by simp)) ..
      · exact ih soundRest marked mem
    · rcases List.mem_cons.mp mem with rfl | mem
      · exact sound marked (by simp)
      · exact ih soundRest marked mem

theorem sound_markArguments {function sourceInfo : String} {arguments : List Text}
    (sound : ∀ argument ∈ arguments, argument.Sound) :
    ∀ marked ∈ (markArguments function sourceInfo arguments recorder).1, marked.Sound := by
  unfold markArguments
  split
  · exact sound_markFrom sound
  · exact sound

/-! ## Edits -/

theorem keeps_sound_push (soundOther : other.Sound) : Edit.Keeps Sound (push other) := by
  intro s sound
  refine Edit.holds_given sound fun position ok => ?_
  rcases Position.of_ofOffset ok with ⟨rfl, bounded⟩
  by_cases leaves : s.length < s.taint.stop ∨ Position.last < other.taint.stop + s.length
  · obtain ⟨fault, fails⟩ := Taint.concat_eq_error bounded leaves
    rw [Edit.andThen_of_stopped (onTaint_of_stopped fails)]
    exact sound
  · obtain ⟨taint, done, labels⟩ :=
      Taint.concat_spec sound.wellFormed soundOther.wellFormed sound.within
        (show other.taint.stop + s.length ≤ Position.last by omega)
    have spliced := Spliced.of_joined sound.wellFormed soundOther.wellFormed sound.within
      soundOther.within labels
    rw [Edit.andThen_of_done (onTaint_of_done done)]
    exact ⟨labels.wellFormed, spliced.within sound.wellFormed soundOther.wellFormed sound.within
      soundOther.within⟩

/-- Other taint put into a text that already has the other value keeps the text sound, whether it
succeeds or not, as the taint in front of and behind it has room. -/
theorem sound_spliceTaint (wf : s.WellFormed) (soundOther : other.Sound) (filled : 0 < other.length)
    (bounded : index ≤ Position.last) (inside : index + other.length ≤ s.length)
    (roomy : s.taint.stop + other.length ≤ s.length) : (spliceTaint index other s).state.Sound := by
  have sound : s.Sound := ⟨wf, Nat.le_trans (Nat.le_add_right ..) roomy⟩
  have stops : other.taint.stop ≤ other.length := soundOther.within
  have clean := wf.stop_le_iff.mp (Nat.le_refl _)
  have cleanOther := Taint.WellFormed.stop_le_iff soundOther.wellFormed |>.mp (Nat.le_refl _)
  refine Edit.holds_given sound fun length ok => ?_
  rcases Position.of_ofOffset ok with ⟨rfl, -⟩
  unfold shiftTaint
  cases shift : s.taint.shift index other.length with
  | error fault =>
    have fails : Edit.step (·.shift index other.length) s.taint =
        { state := s.taint, fault := some fault } := Edit.step_of_error shift
    rw [Edit.andThen_of_stopped (onTaint_of_stopped fails)]
    exact sound
  | ok shifted =>
    have done : Edit.step (·.shift index other.length) s.taint = { state := shifted } :=
      Edit.step_of_ok shift
    rcases Taint.labels_of_shift wf shift with ⟨target, reached, labels⟩
    have shiftedStops : shifted.stop ≤ s.taint.stop + other.length := by
      refine labels.wellFormed.stop_le_iff.mpr fun p late => ?_
      rw [labels.chainAt, Taint.shiftedLabel]
      split
      · exact clean p (by omega)
      · split
        · rfl
        · exact clean _ (by omega)
    have gap : shifted.chainAt index = none := Taint.chainAt_of_shift wf (by omega) shift
    have soundShifted : (s.withTaint shifted).Sound :=
      ⟨labels.wellFormed, Nat.le_trans shiftedStops roomy⟩
    rw [Edit.andThen_of_done (onTaint_of_done done)]
    refine Edit.holds_step (I := fun taint => (s.withTaint taint).Sound) soundShifted
      fun taint insert => ?_
    have inserted :=
      Taint.labels_of_insert labels.wellFormed soundOther.wellFormed gap bounded insert
    refine ⟨inserted.wellFormed, inserted.wellFormed.stop_le_iff.mpr fun p late => ?_⟩
    have cleanShifted := labels.wellFormed.stop_le_iff.mp shiftedStops
    change s.length ≤ p at late
    rw [inserted.chainAt, Taint.insertedLabel, if_neg (by omega), if_neg (by omega)]
    exact cleanShifted p (by omega)

theorem length_fill {cut : Cut} (found : Utf8.cut? start stop s.characters = some cut)
    (chars : List Char) (taint : Taint) :
    length ⟨String.ofList (cut.fill chars), taint⟩ =
      start + byteLength chars + byteLength cut.back := by
  rcases lengths_of_cut found with ⟨front, -, -, -⟩
  rw [length_ofList, Cut.fill, Utf8.byteLength_append, Utf8.byteLength_append, front]

theorem keeps_sound_insert (index : Nat) (soundOther : other.Sound) :
    Edit.Keeps Sound (insert index other) := by
  intro s sound
  unfold insert
  by_cases nothing : other.isEmpty = true
  · rw [if_pos nothing]
    exact sound
  · have filled : 0 < other.length := length_pos nothing
    have stops : s.taint.stop ≤ s.length := sound.within
    rw [if_neg nothing]
    cases found : s.cut index index with
    | error fault =>
      rw [Edit.andThen_of_stopped (replaceValue_of_error found)]
      exact sound
    | ok cut =>
      rcases lengths_of_cut (cut_of_ok found) with ⟨-, -, -, length⟩
      have filledLength := length_fill (cut_of_ok found) other.characters s.taint
      change _ = index + other.length + byteLength cut.back at filledLength
      rw [Edit.andThen_of_done (replaceValue_of_cut (cut_of_ok found))]
      refine Edit.holds_given ⟨sound.wellFormed, ?_⟩ fun position ok => ?_
      · exact Nat.le_trans stops (filledLength ▸ by omega)
      · rcases Position.of_ofOffset ok with ⟨rfl, bounded⟩
        exact sound_spliceTaint sound.wellFormed soundOther filled bounded
          (filledLength ▸ by omega) (filledLength ▸ by change s.taint.stop + _ ≤ _; omega)

theorem sound_remove (sound : s.Sound) (bounded : s.length ≤ Position.last) :
    (remove start stop s).state.Sound := by
  cases found : s.cut start stop with
  | error fault =>
    rw [remove, Edit.andThen_of_stopped (replaceValue_of_error found)]
    exact sound
  | ok cut =>
    obtain ⟨r, done, spliced⟩ := exists_remove sound.wellFormed bounded (cut_of_ok found)
    have untainted := sound_untainted ""
    rw [done]
    exact ⟨spliced.labels.wellFormed, spliced.within sound.wellFormed untainted.wellFormed
      sound.within untainted.within⟩

theorem sound_substitute {cut : Cut} (sound : s.Sound) (soundOther : other.Sound)
    (bounded : s.length ≤ Position.last)
    (found : Utf8.cut? start stop s.characters = some cut) :
    (substitute cut start stop other s).state.Sound := by
  rcases lengths_of_cut found with ⟨-, -, ordered, length⟩
  have clean := Taint.WellFormed.stop_le_iff sound.wellFormed |>.mp sound.within
  obtain ⟨deleted, labels, substituted⟩ :=
    exists_substitute_eq (o := other) sound.wellFormed bounded found
  have stops : deleted.stop ≤ start + byteLength cut.back := by
    refine labels.wellFormed.stop_le_iff.mpr fun p late => ?_
    rw [labels.chainAt, if_neg (by omega)]
    exact clean _ (by omega)
  have filledLength := length_fill found other.characters deleted
  change _ = start + other.length + byteLength cut.back at filledLength
  rw [substituted]
  by_cases nothing : other.isEmpty = true
  · rw [if_pos nothing]
    exact ⟨labels.wellFormed, Nat.le_trans stops (filledLength ▸ by omega)⟩
  · have filled : 0 < other.length := length_pos nothing
    rw [if_neg nothing]
    exact sound_spliceTaint labels.wellFormed soundOther filled (by omega)
      (filledLength ▸ by omega) (filledLength ▸ by change deleted.stop + _ ≤ _; omega)

theorem sound_replace (sound : s.Sound) (soundOther : other.Sound)
    (bounded : s.length ≤ Position.last) :
    (replace start stop other (s, recorder)).state.1.Sound := by
  simp only [replace]
  refine Edit.holds_given (I := fun state : Text × Recorder => state.1.Sound) sound
    fun cut found => ?_
  have substituted := sound_substitute sound soundOther bounded (cut_of_ok found)
  refine Edit.holds_andThen (I := fun state : Text × Recorder => state.1.Sound) substituted
    fun state done => ?_
  have same : (substitute cut start stop other s).state = state.1 :=
    congrArg (fun outcome => outcome.state.1) done
  have soundState : state.1.Sound := same ▸ substituted
  exact sound_record soundState ..

/-! ## Copied taint -/

/-- The taint that is copied: that of the bytes `[start, stop)` of the source, `offset` further
right. -/
theorem labels_of_movedWindow {offset : Nat} {moved : Taint} (wf : source.WellFormed)
    (ok : source.movedWindow start stop offset = .ok moved) :
    moved.HasLabels fun p =>
      if start + offset ≤ p ∧ p < stop + offset then source.taint.chainAt (p - offset)
      else none := by
  obtain ⟨-, lands, window, cutOut, joined⟩ := exists_of_movedWindow ok
  have windowLabels := Taint.labels_of_subtaint wf cutOut
  have labels := Taint.labels_of_concat Taint.wellFormed_untainted windowLabels.wellFormed lands
    (done_of_concatOf joined)
  refine ⟨labels.wellFormed, fun p => ?_⟩
  rw [labels.chainAt, Taint.joinedLabel, windowLabels.chainAt, Taint.windowLabel,
    Taint.chainAt_untainted]
  by_cases early : p < start + offset
  · rw [if_pos early, if_neg (by omega)]
  · rw [if_neg early]
    by_cases inside : p < stop + offset
    · rw [if_pos (by omega), if_pos (by omega)]
      congr 1
      omega
    · rw [if_neg (by omega), if_neg (by omega)]

/-- Copying taint keeps a text sound exactly if it fails or all of the taint lands within the value.
There is no check: taint that lands behind the value stays there. -/
theorem sound_copyTaint_iff {offset : Nat} {stop : Option Nat} (sound : s.Sound)
    (wfSource : source.WellFormed) :
    (copyTaint source start offset stop s).state.Sound ↔
      ((copyTaint source start offset stop s).fault = none →
        ∀ p, start ≤ p → p < stop.getD source.length → source.taint.chainAt p ≠ none →
          p + offset < s.length) := by
  simp only [copyTaint]
  by_cases nothing : stop.getD source.length ≤ start
  · rw [if_pos nothing]
    exact ⟨fun _ _ p late early _ => by omega, fun _ => sound⟩
  · rw [if_neg nothing]
    cases moves : source.movedWindow start (stop.getD source.length) offset with
    | error fault =>
      constructor
      · intro _ done
        cases done
      · exact fun _ => sound
    | ok moved =>
      have movedLabels := labels_of_movedWindow wfSource moves
      obtain ⟨taint, done, labels⟩ := Taint.addTaint_spec sound.wellFormed movedLabels.wellFormed
      rw [Edit.given, onTaint_of_done done]
      have clean := Taint.WellFormed.stop_le_iff sound.wellFormed |>.mp sound.within
      constructor
      · intro within _ p late early tainted
        by_contra beyond
        have copied := labels.wellFormed.stop_le_iff.mp within.within (p + offset)
          (Nat.le_of_not_lt beyond)
        rw [labels.chainAt, Option.or_eq_none_iff, movedLabels.chainAt, if_pos (by omega),
          Nat.add_sub_cancel] at copied
        exact tainted copied.1
      · intro lands
        refine ⟨labels.wellFormed, labels.wellFormed.stop_le_iff.mpr fun p late => ?_⟩
        change s.length ≤ p at late
        rw [labels.chainAt, movedLabels.chainAt, clean p late, Option.or_none]
        split
        · by_contra tainted
          have := lands rfl (p - offset) (by omega) (by omega) tainted
          omega
        · rfl

end Text

end TextProvenance
