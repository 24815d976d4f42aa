import TextProvenance.Proofs.Taint.Labels
import TextProvenance.Proofs.Utf8
import TextProvenance.Text.Basic

/-!
# Texts as lists of labelled bytes

`Text.labelled` pairs every byte of a text with its chain.  `labelledBy` does so for any bytes and
any labels; a list of labelled bytes is taken apart like the list of its bytes.
-/

namespace TextProvenance

/-- Every byte with its label. -/
def labelledBy (label : Nat → Option Chain) (bytes : List UInt8) : List (UInt8 × Option Chain) :=
  bytes.mapIdx fun i byte => (byte, label i)

section labelledBy

variable {label label' : Nat → Option Chain} {front back : List UInt8} {n : Nat}

theorem labelledBy_append (label : Nat → Option Chain) (front back : List UInt8) :
    labelledBy label (front ++ back) =
      labelledBy label front ++ labelledBy (fun i => label (i + front.length)) back :=
  List.mapIdx_append

theorem labelledBy_congr {bytes : List UInt8} (same : ∀ i, i < bytes.length → label i = label' i) :
    labelledBy label bytes = labelledBy label' bytes := by
  refine List.mapIdx_eq_mapIdx_iff.mpr fun i inside => ?_
  rw [same i inside]

theorem length_labelledBy (label : Nat → Option Chain) (bytes : List UInt8) :
    (labelledBy label bytes).length = bytes.length :=
  List.length_mapIdx

theorem map_labelledBy (extension : Chain → Chain) (bytes : List UInt8) :
    labelledBy (fun i => (label i).map extension) bytes =
      (labelledBy label bytes).map fun (byte, c) => (byte, c.map extension) := by
  rw [labelledBy, labelledBy, List.mapIdx_eq_zipIdx_map, List.mapIdx_eq_zipIdx_map, List.map_map]
  rfl

theorem take_labelledBy (length : front.length = n) :
    (labelledBy label (front ++ back)).take n = labelledBy label front := by
  rw [labelledBy_append, List.take_left' (by rw [length_labelledBy, length])]

theorem drop_labelledBy (length : front.length = n) :
    (labelledBy label (front ++ back)).drop n = labelledBy (fun i => label (i + n)) back := by
  rw [labelledBy_append, List.drop_left' (by rw [length_labelledBy, length]), length]

end labelledBy

namespace Text

variable {s : Text}

/-- The bytes of the value. -/
def bytes (s : Text) : List UInt8 := s.value.toByteArray.data.toList

/-- Every byte of the value with its chain. -/
def labelled (s : Text) : List (UInt8 × Option Chain) := labelledBy s.taint.chainAt s.bytes

theorem bytes_eq_encode (s : Text) : s.bytes = Utf8.encode s.characters :=
  Utf8.bytes_eq_encode s.value

theorem length_bytes (s : Text) : s.bytes.length = s.length := by
  rw [bytes_eq_encode, Utf8.length_encode, length]

/-- The taint stops at the end of the value, or in front of it. -/
def Within (s : Text) : Prop := s.taint.stop ≤ s.length

instance (s : Text) : Decidable s.Within := inferInstanceAs (Decidable (_ ≤ _))

end Text

end TextProvenance
