import TextProvenance.Proofs.Edit
import TextProvenance.Proofs.Taint.Record
import TextProvenance.Proofs.Utf8

/-!
# Truncated arguments

A recorder keeps the first characters of every argument, as many as its settings say.  The cut is
found as an offset into the bytes, where the first character that is left out starts.  That offset is
between two characters for any limit and any mixture of characters (`Recorder.truncateAtOffset_eq`).

`Recorder.Truncated` says what is left of an argument, and `Recorder.operation_truncates` that all
arguments of all operations are left so.
-/

namespace TextProvenance.Recorder

open Utf8 (Boundary byteLength)

variable {limit larger : Nat} {text : String}

/-- `kept` is `text` up to its first `limit` characters: its bytes are those in front of an offset
between two characters. -/
structure Truncated (limit : Nat) (text kept : String) : Prop where
  characters : kept.toList = text.toList.take (min limit text.toList.length)
  bytes : ∃ offset, Boundary text.toList offset ∧
    kept.toByteArray.data.toList = text.toByteArray.data.toList.take offset
  isPrefix : kept.toList <+: text.toList
  length_le : kept.toList.length ≤ limit
  whole : text.toList.length ≤ limit → kept = text

theorem toList_truncate (limit : Nat) (text : String) :
    (truncate limit text).toList = text.toList.take limit :=
  String.toList_ofList

theorem truncate_of_length_le (short : text.toList.length ≤ limit) : truncate limit text = text := by
  rw [truncate, List.take_of_length_le short, String.ofList_toList]

/-- The offset where the character number `limit` starts is the length of those in front of it. -/
theorem truncateAtOffset_eq (limit : Nat) (text : String) :
    truncateAtOffset limit text = .ok (truncate limit text) := by
  unfold truncateAtOffset
  rw [Utf8.getElem?_placed, Nat.zero_add]
  rcases Nat.lt_or_ge limit text.toList.length with longer | short
  · have cut := Utf8.truncate?_append (text.toList.take limit) (text.toList.drop limit)
    rw [List.take_append_drop] at cut
    rw [List.getElem?_eq_getElem longer, Option.map_some]
    dsimp only
    rw [cut]
    rfl
  · rw [List.getElem?_eq_none short, truncate_of_length_le short]
    rfl

theorem truncated_truncate (limit : Nat) (text : String) :
    Truncated limit text (truncate limit text) where
  characters := by rw [toList_truncate, ← List.take_eq_take_min]
  bytes := by
    have parts := List.take_append_drop limit text.toList
    refine ⟨byteLength (text.toList.take limit), ⟨_, _, parts.symm, rfl⟩, ?_⟩
    rw [Utf8.bytes_eq_encode, Utf8.bytes_eq_encode, toList_truncate, ← Utf8.length_encode]
    conv_rhs => rw [← parts, Utf8.encode_append]
    rw [parts, List.take_left]
  isPrefix := by
    rw [toList_truncate]
    exact List.take_prefix limit text.toList
  length_le := by
    rw [toList_truncate]
    exact List.length_take_le limit text.toList
  whole := truncate_of_length_le

/-- What has been truncated fits every limit that is not smaller. -/
theorem truncate_truncate (le : limit ≤ larger) (text : String) :
    truncate larger (truncate limit text) = truncate limit text :=
  truncate_of_length_le (Nat.le_trans (truncated_truncate limit text).length_le le)

/-! ## Arguments of operations -/

theorem arguments_operation (recorder : Recorder) (name : String) (native : Bool)
    (arguments : List String) :
    (recorder.operation name native arguments).1.arguments = arguments.map recorder.shortened := by
  rw [operation_eq]

/-- **Operations have truncated arguments.**  Truncating at an offset never fails and gives the
first characters, and truncating again with no smaller limit changes nothing.  So an operation has as
many arguments as were given, in their order and each truncated, and it keeps them where an operation
is made of them again. -/
theorem operation_truncates :
    (∀ limit text, truncateAtOffset limit text = .ok (truncate limit text) ∧
      Truncated limit text (truncate limit text) ∧
      ∀ larger, limit ≤ larger → truncate larger (truncate limit text) = truncate limit text) ∧
    ∀ (recorder : Recorder) name native arguments,
      let made := (recorder.operation name native arguments).1
      let limit := recorder.config.maxArgumentLength.toNat
      arguments.mapM (truncateAtOffset limit) = .ok made.arguments ∧
      made.arguments.length = arguments.length ∧
      List.Forall₂ (Truncated limit) arguments made.arguments ∧
      ∀ again : Recorder, recorder.config.maxArgumentLength ≤ again.config.maxArgumentLength →
        (again.operation name native made.arguments).1.arguments = made.arguments := by
  constructor
  · intro limit text
    exact ⟨truncateAtOffset_eq limit text, truncated_truncate limit text,
      fun larger le => truncate_truncate le text⟩
  · intro recorder name native arguments made limit
    have same : made.arguments = arguments.map (truncate limit) :=
      arguments_operation recorder name native arguments
    have atOffset : arguments.mapM (truncateAtOffset limit) = .ok (arguments.map (truncate limit)) :=
      mapM_eq_ok fun text _ => truncateAtOffset_eq limit text
    have each : List.Forall₂ (Truncated limit) arguments (arguments.map (truncate limit)) := by
      rw [List.forall₂_map_right_iff, List.forall₂_same]
      exact fun text _ => truncated_truncate limit text
    rw [same]
    refine ⟨atOffset, List.length_map .., each, ?_⟩
    intro again le
    rw [arguments_operation, List.map_map]
    exact List.map_congr_left fun text _ => truncate_truncate (UInt64.le_iff_toNat_le.mp le) text

/-- Characters of one to four bytes, cut in front of the third of them, and arguments that are cut,
left as they are and empty. -/
theorem operation_truncates_wide :
    let recorder : Recorder := { config := { maxArgumentLength := 2 } }
    let made := (recorder.operation "replace" false ["aä€😀", "ab", ""]).1
    truncateAtOffset 2 "aä€😀" = .ok "aä" ∧ Truncated 2 "aä€😀" "aä" ∧
      2 ≤ 3 ∧ truncate 3 "aä" = "aä" ∧
      made.arguments = ["aä", "ab", ""] ∧
      List.Forall₂ (Truncated 2) ["aä€😀", "ab", ""] made.arguments ∧
      recorder.config.maxArgumentLength ≤ ({} : Recorder).config.maxArgumentLength ∧
      (({} : Recorder).operation "replace" false made.arguments).1.arguments = made.arguments := by
  intro recorder made
  have cut : truncate 2 "aä€😀" = "aä" := by decide
  obtain ⟨atOffset, truncated, again⟩ := operation_truncates.1 2 "aä€😀"
  obtain ⟨-, -, each, remade⟩ :=
    operation_truncates.2 recorder "replace" false ["aä€😀", "ab", ""]
  rw [cut] at atOffset truncated again
  have larger : recorder.config.maxArgumentLength ≤ ({} : Recorder).config.maxArgumentLength := by
    decide
  exact ⟨atOffset, truncated, by decide, again 3 (by decide), by decide, each, larger,
    remade {} larger⟩

end TextProvenance.Recorder
