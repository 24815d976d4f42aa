import TextProvenance.Proofs.Taint.Record
import TextProvenance.Proofs.Taint.Under
import TextProvenance.Proofs.Text.WellFormed

/-!
# Under which chains texts are

What operations on texts make is under chains of their operands, or under new ones that a recorder
has made: then a ledger that goes on with the recorder can be written on with them.  Where a text is
recorded in pieces, the induction is on the pieces, each with the ledger that the one in front of it
leaves.
-/

namespace TextProvenance

variable {L : Ledger} {P : Chain → Prop}

/-! ## Recorders -/

namespace Recorder

variable {recorder : Recorder} {t : Taint}

theorem continues_newChain (same : L.nextSerial = recorder.nextSerial) (operation : Operation) :
    L.Continues (recorder.newChain operation).2.nextSerial
      [(recorder.newChain operation).1] := by
  rw [newChain, advance, ← same]
  refine Ledger.continues_of_numbered [_] rfl ?_ fun c mem => .inr mem
  intro c mem p parent
  cases List.mem_singleton.mp mem
  cases parent

theorem continues_extendChain {c : Chain} (same : L.nextSerial = recorder.nextSerial)
    (listed : L.Lists c) (operation : Operation) :
    L.Continues (recorder.extendChain c operation).2.nextSerial
      [(recorder.extendChain c operation).1] := by
  rw [extendChain, advance, ← same]
  refine Ledger.continues_of_numbered [_] rfl ?_ fun c mem => .inr mem
  intro d mem p parent
  cases List.mem_singleton.mp mem
  cases parent
  exact listed

theorem continues_extend (same : L.nextSerial = recorder.nextSerial) (under : t.Under L.Lists)
    (operation : Operation) :
    L.Continues (recorder.extend t operation).2.nextSerial
      (recorder.extend t operation).1.chains := by
  rw [extend, advance, ← same]
  exact Taint.continues_extend under operation

theorem continues_record (same : L.nextSerial = recorder.nextSerial) (under : t.Under L.Lists)
    (name : String) (arguments : List String) :
    L.Continues (recorder.record t name arguments).2.nextSerial
      (recorder.record t name arguments).1.chains := by
  unfold record
  split
  · exact continues_extend (same.trans (nextSerial_operation ..).symm) under _
  · rw [← same]
    exact Ledger.continues_self (Taint.under_iff.mp under)

end Recorder

namespace Text

variable {s s' other source : Text} {recorder recorder' : Recorder} {value name : String}
  {c : Chain} {start stop index : Nat}

/-- Every range of the text's taint is under a chain with the property. -/
def Under (P : Chain → Prop) (s : Text) : Prop := s.taint.Under P

/-! ## Makers -/

theorem ofChain_under (has : P c) (ok : ofChain value c = .ok s) : s.Under P := by
  obtain ⟨r, taint, bounds, made, rfl⟩ := exists_of_ofChain ok
  exact Taint.under_ofRange (Range.chain_of_ofBounds bounds ▸ has) made

theorem ofTaint_under {t : Taint} (under : t.Under P) (ok : ofTaint value t = .ok s) :
    s.Under P := by
  simp only [ofTaint] at ok
  split at ok
  · cases ok
    exact under
  · cases ok

theorem markSource_under (has : P c) (ok : s.markSource start stop c = .ok s') :
    s'.Under P := by
  obtain ⟨-, r, taint, bounds, made, rfl⟩ := exists_of_markSource ok
  exact Taint.under_ofRange (Range.chain_of_ofBounds bounds ▸ has) made

theorem concat_under (under : s.Under P) (underOther : other.Under P)
    (ok : s.concat other = .ok s') : s'.Under P := by
  obtain ⟨-, taint, joined, rfl⟩ := exists_of_concat ok
  exact Taint.concatOf_under under underOther joined

theorem continues_substring (same : L.nextSerial = recorder.nextSerial) (under : s.Under L.Lists)
    (ok : s.substring start stop recorder = .ok (s', recorder')) :
    L.Continues recorder'.nextSerial s'.taint.chains := by
  obtain ⟨cut, window, -, cutOut, rfl, rfl⟩ := exists_of_substring ok
  exact Recorder.continues_record same (Taint.subtaint_under under cutOut) ..

theorem imageRanges_under {map : Char → List Char} {t : Taint} {done : Nat}
    {placed : List (Char × Nat × Nat)} {ranges : List Range} (under : t.Under P)
    (ok : imageRanges map t done placed = .ok ranges) : ∀ r ∈ ranges, P r.chain := by
  induction placed generalizing done ranges with
  | nil =>
    cases ok
    exact nofun
  | cons item rest ih =>
    rcases item with ⟨character, start, stop⟩
    obtain ⟨front, others, images, rfl, image⟩ := exists_of_imageRanges_cons ok
    refine List.forall_mem_append.mpr ⟨fun r mem => ?_, ih images⟩
    obtain ⟨c, first, bounds⟩ := image r mem
    rw [Range.chain_of_ofBounds bounds]
    exact Taint.firstChainIn_under under first

theorem continues_mapCharacters {map : Char → List Char}
    (same : L.nextSerial = recorder.nextSerial) (under : s.Under L.Lists)
    (ok : s.mapCharacters map name recorder = .ok (s', recorder')) :
    L.Continues recorder'.nextSerial s'.taint.chains := by
  obtain ⟨ranges, mapped, images, built, rfl, rfl⟩ := exists_of_mapCharacters ok
  have underMapped := Taint.under_ofRanges (imageRanges_under under images) built
  exact Recorder.continues_record same underMapped ..

/-- The chains of several texts. -/
def chainsOf (texts : List Text) : List Chain := texts.flatMap (·.taint.chains)

theorem chainsOf_cons (s : Text) (texts : List Text) :
    chainsOf (s :: texts) = s.taint.chains ++ chainsOf texts := rfl

theorem continues_recordPieces {separator : String} {pieces : List (List Char)}
    {parts : List Text} (same : L.nextSerial = recorder.nextSerial) (under : s.Under L.Lists)
    (ok : s.recordPieces separator start index recorder pieces = .ok (parts, recorder')) :
    L.Continues recorder'.nextSerial (chainsOf parts) := by
  induction pieces generalizing start index recorder parts L with
  | nil =>
    cases ok
    rw [← same]
    exact Ledger.continues_nil
  | cons piece rest ih =>
    obtain ⟨window, others, cutOut, recorded, rfl⟩ := exists_of_recordPieces_cons ok
    have first := Recorder.continues_record same (Taint.subtaint_under under cutOut) "split"
      [separator, toString index]
    refine first.bind fun L' same' keeps listed => ?_
    have second := ih same' (fun r mem => keeps _ (under r mem)) recorded
    refine (second.with_listed listed).mono fun c mem => ?_
    rw [chainsOf_cons] at mem
    exact List.mem_append.mpr (List.mem_append.mp mem).symm

theorem continues_split {separator : String} {parts : List Text}
    (same : L.nextSerial = recorder.nextSerial) (under : s.Under L.Lists)
    (ok : s.split separator recorder = .ok (parts, recorder')) :
    L.Continues recorder'.nextSerial (chainsOf parts) :=
  continues_recordPieces same under ok

theorem continues_markFrom {function sourceInfo : String} {arguments : List Text} (index : Nat)
    (same : L.nextSerial = recorder.nextSerial) (under : ∀ s ∈ arguments, s.Under L.Lists) :
    L.Continues (markFrom function sourceInfo index recorder arguments).2.nextSerial
      (chainsOf (markFrom function sourceInfo index recorder arguments).1) := by
  induction arguments generalizing index recorder L with
  | nil =>
    rw [markFrom, ← same]
    exact Ledger.continues_nil
  | cons argument rest ih =>
    rcases List.forall_mem_cons.mp under with ⟨underFirst, underRest⟩
    simp only [markFrom]
    split
    · have same := same.trans (Recorder.nextSerial_operation recorder function false
        [function, sourceInfo, toString index]).symm
      have first := Recorder.continues_extend same underFirst
        (recorder.operation function false [function, sourceInfo, toString index]).1
      refine first.bind fun L' same' keeps listed => ?_
      have second := ih (index + 1) same' fun s mem r memRanges =>
        keeps _ (underRest s mem r memRanges)
      refine (second.with_listed listed).mono fun c mem => ?_
      rw [chainsOf_cons] at mem
      exact List.mem_append.mpr (List.mem_append.mp mem).symm
    · refine ((ih (index + 1) same underRest).with_listed (Taint.under_iff.mp underFirst)).mono
        fun c mem => ?_
      rw [chainsOf_cons] at mem
      exact List.mem_append.mpr (List.mem_append.mp mem).symm

theorem continues_markArguments {function sourceInfo : String} {arguments : List Text}
    (same : L.nextSerial = recorder.nextSerial)
    (under : ∀ s ∈ arguments, s.Under L.Lists) :
    L.Continues (markArguments function sourceInfo arguments recorder).2.nextSerial
      (chainsOf (markArguments function sourceInfo arguments recorder).1) := by
  unfold markArguments
  split
  · exact continues_markFrom 0 same under
  · rw [← same]
    refine Ledger.continues_self fun c mem => ?_
    obtain ⟨s, memArguments, memChains⟩ := List.mem_flatMap.mp mem
    exact Taint.under_iff.mp (under s memArguments) c memChains

/-! ## Edits -/

theorem keeps_under_onTaint {edit : Edit Taint} (keeps : Edit.Keeps (Taint.Under P) edit) :
    Edit.Keeps (Under P) (onTaint edit) :=
  Edit.keeps_within (fun _ _ => rfl) keeps

theorem keeps_under_shiftTaint (position : Nat) (amount : Int) :
    Edit.Keeps (Under P) (shiftTaint position amount) :=
  keeps_under_onTaint (Edit.keeps_step fun _ _ => Taint.shift_under)

theorem keeps_under_setValue : Edit.Keeps (Under P) (setValue value) := fun _ under => under

theorem keeps_under_replaceValue (start stop : Nat) :
    Edit.Keeps (Under P) (replaceValue start stop value) :=
  fun s under => Edit.keeps_given (fun _ _ => keeps_under_setValue) s under

theorem keeps_under_spliceTaint (position : Nat) (underOther : other.Under P) :
    Edit.Keeps (Under P) (spliceTaint position other) :=
  Edit.keeps_given fun length _ => Edit.keeps_andThen (keeps_under_shiftTaint position length)
    (keeps_under_onTaint (Edit.keeps_step fun _ _ under ok =>
      Taint.insert_under under underOther ok))

theorem keeps_under_push (underOther : other.Under P) : Edit.Keeps (Under P) (push other) := by
  intro s under
  refine Edit.keeps_given (fun position _ => Edit.keeps_andThen ?_ keeps_under_setValue) s under
  exact keeps_under_onTaint (Taint.keeps_under_concat underOther position)

theorem keeps_under_insert (index : Nat) (underOther : other.Under P) :
    Edit.Keeps (Under P) (insert index other) := by
  unfold insert
  split
  · exact Edit.keeps_nothing
  · exact Edit.keeps_andThen (keeps_under_replaceValue index index)
      (Edit.keeps_given fun position _ => keeps_under_spliceTaint position underOther)

theorem keeps_under_remove (start stop : Nat) : Edit.Keeps (Under P) (remove start stop) :=
  Edit.keeps_andThen (keeps_under_replaceValue start stop)
    (Edit.keeps_given fun position _ => Edit.keeps_given fun removed _ =>
      keeps_under_shiftTaint position (-removed))

theorem keeps_under_substitute (cut : Utf8.Cut) (start stop : Nat) (underOther : other.Under P) :
    Edit.Keeps (Under P) (substitute cut start stop other) := by
  refine Edit.keeps_given fun position _ => Edit.keeps_given fun removed _ => ?_
  refine Edit.keeps_andThen keeps_under_setValue (Edit.keeps_given fun removedStop _ => ?_)
  refine Edit.keeps_andThen (keeps_under_shiftTaint removedStop (-removed)) ?_
  split
  · exact Edit.keeps_nothing
  · exact keeps_under_spliceTaint position underOther

theorem movedWindow_under {offset : Nat} {t : Taint} (under : source.Under P)
    (ok : source.movedWindow start stop offset = .ok t) : t.Under P := by
  obtain ⟨-, -, window, cutOut, joined⟩ := exists_of_movedWindow ok
  exact Taint.concatOf_under Taint.under_untainted (Taint.subtaint_under under cutOut) joined

theorem keeps_under_copyTaint (under : source.Under P) (start offset : Nat) (stop : Option Nat) :
    Edit.Keeps (Under P) (copyTaint source start offset stop) := by
  simp only [copyTaint]
  split
  · exact Edit.keeps_nothing
  · exact Edit.keeps_given fun moved made =>
      keeps_under_onTaint (Taint.keeps_under_addTaint (movedWindow_under under made))

/-- The ledger can be written on with the chains of the text, up to where the recorder goes on. -/
def Continued (L : Ledger) (state : Text × Recorder) : Prop :=
  L.Continues state.2.nextSerial state.1.taint.chains

/-- Replacing is recorded after it has been done.  If it stops half-way, the recorder is as it
was. -/
theorem continued_replace (same : L.nextSerial = recorder.nextSerial) (under : s.Under L.Lists)
    (underOther : other.Under L.Lists) :
    Continued L (replace start stop other (s, recorder)).state := by
  have unrecorded {s : Text} (under : s.Under L.Lists) : Continued L (s, recorder) := by
    rw [Continued, ← same]
    exact Ledger.continues_self (Taint.under_iff.mp under)
  refine Edit.holds_given (I := Continued L) (unrecorded under) fun cut _ => ?_
  have substituted := keeps_under_substitute cut start stop underOther s under
  refine Edit.holds_andThen (I := Continued L) (unrecorded substituted) fun state done => ?_
  have left : state = ((substitute cut start stop other s).state, recorder) :=
    (congrArg Outcome.state done).symm
  subst left
  exact Recorder.continues_record same substituted ..

end Text

end TextProvenance
