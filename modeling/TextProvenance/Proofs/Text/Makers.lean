import TextProvenance.Proofs.Edit
import TextProvenance.Text.Case
import TextProvenance.Text.Edit
import TextProvenance.Text.Split

/-!
# How texts are made

One lemma for each operation that makes texts in several steps, any of which may fail: if it has a
result, these are the steps that it was made in.  What holds of the results is proved from these
lemmas, and not by taking the operations apart again.
-/

namespace TextProvenance

theorem Position.of_ofOffset {offset position : Nat}
    (ok : Position.ofOffset offset = .ok position) :
    offset = position ∧ offset ≤ Position.last := by
  unfold Position.ofOffset at ok
  split at ok
  · cases ok
    exact ⟨rfl, ‹_›⟩
  · cases ok

namespace Text

open Utf8 (byteLength placed)

variable {s s' other source : Text} {recorder recorder' : Recorder} {value name : String}
  {c : Chain} {start stop index : Nat} {map : Char → List Char}

/-! ## Whole texts -/

theorem exists_of_ofChain (ok : ofChain value c = .ok s) :
    ∃ r taint, Range.ofBounds 0 (byteLength value.toList) c = .ok r ∧
      Taint.ofRange r = .ok taint ∧ s = ⟨value, taint⟩ := by
  rcases bind_eq_ok_iff.mp ok with ⟨stop, position, ok⟩
  rcases bind_eq_ok_iff.mp ok with ⟨r, bounds, ok⟩
  rcases bind_eq_ok_iff.mp ok with ⟨taint, made, ok⟩
  cases ok
  rcases Position.of_ofOffset position with ⟨rfl, -⟩
  exact ⟨r, taint, bounds, made, rfl⟩

theorem exists_of_markSource (ok : s.markSource start stop c = .ok s') :
    stop ≤ s.length ∧ ∃ r taint, Range.ofBounds start stop c = .ok r ∧
      Taint.ofRange r = .ok taint ∧ s' = s.withTaint taint := by
  unfold markSource at ok
  split at ok
  · rcases bind_eq_ok_iff.mp ok with ⟨lo, first, ok⟩
    rcases bind_eq_ok_iff.mp ok with ⟨hi, second, ok⟩
    rcases bind_eq_ok_iff.mp ok with ⟨r, bounds, ok⟩
    rcases bind_eq_ok_iff.mp ok with ⟨taint, made, ok⟩
    cases ok
    rcases Position.of_ofOffset first with ⟨rfl, -⟩
    rcases Position.of_ofOffset second with ⟨rfl, -⟩
    exact ⟨‹_›, r, taint, bounds, made, rfl⟩
  · cases ok

theorem exists_of_concat (ok : s.concat other = .ok s') :
    s.length ≤ Position.last ∧ ∃ taint, Taint.concatOf s.taint s.length other.taint = .ok taint ∧
      s' = ⟨s.value ++ other.value, taint⟩ := by
  rcases bind_eq_ok_iff.mp ok with ⟨offset, position, ok⟩
  rcases bind_eq_ok_iff.mp ok with ⟨taint, joined, ok⟩
  cases ok
  rcases Position.of_ofOffset position with ⟨rfl, bounded⟩
  exact ⟨bounded, taint, joined, rfl⟩

/-! ## Recorded texts -/

theorem exists_of_substring (ok : s.substring start stop recorder = .ok (s', recorder')) :
    ∃ cut window, s.cut start stop = .ok cut ∧ s.taint.subtaint start stop = .ok window ∧
      let made := recorder.record window "substring" [toString start, toString stop]
      s' = ⟨String.ofList cut.middle, made.1⟩ ∧ recorder' = made.2 := by
  rcases bind_eq_ok_iff.mp ok with ⟨cut, taken, ok⟩
  rcases bind_eq_ok_iff.mp ok with ⟨lo, first, ok⟩
  rcases bind_eq_ok_iff.mp ok with ⟨hi, second, ok⟩
  rcases bind_eq_ok_iff.mp ok with ⟨window, cutOut, ok⟩
  cases ok
  rcases Position.of_ofOffset first with ⟨rfl, -⟩
  rcases Position.of_ofOffset second with ⟨rfl, -⟩
  exact ⟨cut, window, taken, cutOut, rfl, rfl⟩

/-- The image of the first character has a range under the first chain of the character, or none. -/
theorem exists_of_imageRanges_cons {t : Taint} {done : Nat} {character : Char}
    {rest : List (Char × Nat × Nat)} {ranges : List Range}
    (ok : imageRanges map t done ((character, start, stop) :: rest) = .ok ranges) :
    let last := done + byteLength (map character)
    ∃ front others, imageRanges map t last rest = .ok others ∧ ranges = front ++ others ∧
      ∀ r ∈ front, ∃ c, t.firstChainIn start stop = some c ∧ Range.ofBounds done last c = .ok r := by
  rcases bind_eq_ok_iff.mp ok with ⟨lo, first, steps⟩
  rcases bind_eq_ok_iff.mp steps with ⟨hi, second, steps⟩
  rcases Position.of_ofOffset first with ⟨rfl, -⟩
  rcases Position.of_ofOffset second with ⟨rfl, -⟩
  dsimp only at steps
  split at steps
  · rename_i c found
    rcases bind_eq_ok_iff.mp steps with ⟨imageStart, third, steps⟩
    rcases bind_eq_ok_iff.mp steps with ⟨imageStop, fourth, steps⟩
    rcases bind_eq_ok_iff.mp steps with ⟨r, bounds, steps⟩
    rcases bind_eq_ok_iff.mp steps with ⟨image, single, steps⟩
    rcases bind_eq_ok_iff.mp steps with ⟨others, images, steps⟩
    cases single
    cases steps
    rcases Position.of_ofOffset third with ⟨rfl, -⟩
    rcases Position.of_ofOffset fourth with ⟨rfl, -⟩
    exact ⟨[r], others, images, rfl, List.forall_mem_singleton.mpr ⟨c, found, bounds⟩⟩
  · rcases bind_eq_ok_iff.mp steps with ⟨image, nothing, steps⟩
    rcases bind_eq_ok_iff.mp steps with ⟨others, images, steps⟩
    cases nothing
    cases steps
    exact ⟨[], others, images, rfl, nofun⟩

theorem exists_of_mapCharacters
    (ok : s.mapCharacters map name recorder = .ok (s', recorder')) :
    ∃ ranges mapped, imageRanges map s.taint 0 (placed 0 s.characters) = .ok ranges ∧
      Taint.ofRanges ranges = .ok mapped ∧
      let made := recorder.record mapped name []
      s' = ⟨String.ofList (s.characters.flatMap map), made.1⟩ ∧ recorder' = made.2 := by
  rcases bind_eq_ok_iff.mp ok with ⟨ranges, images, ok⟩
  rcases bind_eq_ok_iff.mp ok with ⟨mapped, built, ok⟩
  cases ok
  exact ⟨ranges, mapped, images, built, rfl, rfl⟩

/-- The first piece is cut out and recorded, and then the others are. -/
theorem exists_of_recordPieces_cons {separator : String} {piece : List Char}
    {rest : List (List Char)} {parts : List Text}
    (ok : s.recordPieces separator start index recorder (piece :: rest) =
      .ok (parts, recorder')) :
    ∃ window others, s.taint.subtaint start (start + byteLength piece) = .ok window ∧
      let made := recorder.record window "split" [separator, toString index]
      s.recordPieces separator (start + byteLength piece + byteLength separator.toList) (index + 1)
        made.2 rest = .ok (others, recorder') ∧
      parts = ⟨String.ofList piece, made.1⟩ :: others := by
  rcases bind_eq_ok_iff.mp ok with ⟨lo, first, ok⟩
  rcases bind_eq_ok_iff.mp ok with ⟨hi, second, ok⟩
  rcases bind_eq_ok_iff.mp ok with ⟨window, cutOut, ok⟩
  rcases bind_eq_ok_iff.mp ok with ⟨⟨others, after⟩, recorded, ok⟩
  cases ok
  rcases Position.of_ofOffset first with ⟨rfl, -⟩
  rcases Position.of_ofOffset second with ⟨rfl, -⟩
  exact ⟨window, others, cutOut, recorded, rfl⟩

/-! ## Replacements -/

/-- A replacement that is done is recorded on what it leaves, and one that fails leaves the recorder
as it is. -/
theorem replace_cases (start stop : Nat) (other s : Text) (recorder : Recorder) :
    (∃ cut t, substitute cut start stop other s = { state := t } ∧
      replace start stop other (s, recorder) =
        recordOn "replace" [String.ofList cut.middle, other.value] (t, recorder)) ∨
    ∃ t fault, replace start stop other (s, recorder) =
      { state := (t, recorder), fault := some fault } := by
  cases taken : s.cut start stop with
  | error fault =>
    have fails : replace start stop other (s, recorder) = Edit.fail fault (s, recorder) :=
      congrFun (Edit.given_of_error taken) (s, recorder)
    exact .inr ⟨s, fault, fails⟩
  | ok cut =>
    have steps : replace start stop other (s, recorder) =
        ((Edit.within Prod.fst (fun state s => (s, state.2))
            (substitute cut start stop other)).andThen
          (recordOn "replace" [String.ofList cut.middle, other.value])) (s, recorder) :=
      congrFun (Edit.given_of_ok taken) (s, recorder)
    rcases ended : substitute cut start stop other s with ⟨t, _ | fault⟩
    · refine .inl ⟨cut, t, ended, steps.trans (Edit.andThen_of_done ?_)⟩
      simp only [Edit.within, ended]
    · refine .inr ⟨t, fault, steps.trans (Edit.andThen_of_stopped ?_)⟩
      simp only [Edit.within, ended]

/-! ## Copied taint -/

/-- Taint that has been moved was cut out and put behind nothing, all within the positions. -/
theorem exists_of_movedWindow {offset : Nat} {moved : Taint}
    (ok : source.movedWindow start stop offset = .ok moved) :
    stop ≤ Position.last ∧ start + offset ≤ Position.last ∧
      ∃ window, source.taint.subtaint start stop = .ok window ∧
        Taint.concatOf .untainted (start + offset) window = .ok moved := by
  rcases bind_eq_ok_iff.mp ok with ⟨lo, first, ok⟩
  rcases bind_eq_ok_iff.mp ok with ⟨hi, second, ok⟩
  rcases bind_eq_ok_iff.mp ok with ⟨window, cutOut, ok⟩
  rcases bind_eq_ok_iff.mp ok with ⟨target, sum, ok⟩
  rcases bind_eq_ok_iff.mp ok with ⟨position, third, joined⟩
  rcases Position.of_ofOffset first with ⟨rfl, -⟩
  rcases Position.of_ofOffset second with ⟨rfl, stops⟩
  rcases Position.of_ofOffset third with ⟨rfl, lands⟩
  have reached : start + offset = target := by
    unfold Offset.sum at sum
    split at sum
    · exact Except.ok.inj sum
    · cases sum
  exact ⟨stops, reached ▸ lands, window, cutOut, reached ▸ joined⟩

end Text

end TextProvenance
