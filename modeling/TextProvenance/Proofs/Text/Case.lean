import TextProvenance.Proofs.Text.Within

/-!
# Case mappings carry taint along

A character may map to more or fewer bytes than it has, so the offsets of a text and of its image
drift apart, and several ranges may meet in one character.  `Text.images` says which labelled bytes
a mapping should give: all bytes of an image are labelled by the first tainted byte of the character.
`Text.caseMapping_carries_taint` has the mappings of the model give these, recorded.

The ranges of an image are built while the offsets run.  `LabelsFrom` is what is said of them at any
offset: it holds of one image, and of two of them one behind the other.
-/

namespace TextProvenance

open Utf8 (byteLength encode placed)

/-- The first label of the positions `[lo, hi)`. -/
def firstIn (label : Nat → Option Chain) (lo hi : Nat) : Option Chain :=
  (List.range' lo (hi - lo)).findSome? label

theorem firstIn_ne_none_iff {label : Nat → Option Chain} {lo hi : Nat} :
    firstIn label lo hi ≠ none ↔ ∃ p, lo ≤ p ∧ p < hi ∧ label p ≠ none := by
  unfold firstIn
  rw [ne_eq, List.findSome?_eq_none_iff]
  constructor
  · intro found
    by_contra clean
    refine found fun p mem => ?_
    have inside := List.mem_range'_1.mp mem
    by_contra tainted
    exact clean ⟨p, by omega, by omega, tainted⟩
  · rintro ⟨p, late, early, tainted⟩ clean
    exact tainted (clean p (List.mem_range'_1.mpr ⟨late, by omega⟩))

/-! ## Ranges of labelled bytes -/

/-- The ranges are in order and give the bytes from `done` on their labels. -/
structure LabelsFrom (done : Nat) (bytes : List (UInt8 × Option Chain)) (ranges : List Range) :
    Prop where
  inOrder : InOrder ranges
  within : ∀ r ∈ ranges, done ≤ r.start ∧ r.stop ≤ done + bytes.length
  labelled : labelledBy (fun i => labelIn ranges (done + i)) (bytes.map Prod.fst) = bytes

section LabelsFrom

variable {done : Nat} {front back : List (UInt8 × Option Chain)} {ranges ranges' : List Range}

theorem LabelsFrom.label_eq_none (labels : LabelsFrom done front ranges) {p : Nat}
    (outside : p < done ∨ done + front.length ≤ p) : labelIn ranges p = none := by
  refine labelIn_eq_none_iff.mpr fun r mem covers => ?_
  have bounds := labels.within r mem
  have first := covers.1
  have last := covers.2
  omega

theorem labelsFrom_nil (done : Nat) : LabelsFrom done [] [] := ⟨inOrder_nil, by simp, rfl⟩

theorem LabelsFrom.append (labels : LabelsFrom done front ranges)
    (labels' : LabelsFrom (done + front.length) back ranges') :
    LabelsFrom done (front ++ back) (ranges ++ ranges') := by
  have length : (front.map Prod.fst).length = front.length := List.length_map ..
  refine ⟨inOrder_append.mpr ⟨labels.inOrder, labels'.inOrder, fun a memA b memB => ?_⟩,
    fun r mem => ?_, ?_⟩
  · have stops := (labels.within a memA).2
    have starts := (labels'.within b memB).1
    omega
  · rw [List.length_append]
    rcases List.mem_append.mp mem with mem | mem
    · have bounds := labels.within r mem
      omega
    · have bounds := labels'.within r mem
      omega
  · rw [List.map_append, labelledBy_append]
    congr 1
    · refine .trans (labelledBy_congr fun i inside => ?_) labels.labelled
      rw [labelIn_append, labels'.label_eq_none (.inl (by omega)), Option.or_none]
    · refine .trans (labelledBy_congr fun i inside => ?_) labels'.labelled
      have moved : done + (i + front.length) = done + front.length + i := by omega
      rw [length, labelIn_append, moved, labels.label_eq_none (.inr (by omega)), Option.none_or]

theorem labelledBy_same (label : Option Chain) (bytes : List UInt8) :
    labelledBy (fun _ => label) bytes = bytes.map (·, label) := by
  induction bytes with
  | nil => rfl
  | cons byte rest ih => rw [labelledBy, List.mapIdx_cons, List.map_cons, ← ih, labelledBy]

/-- Bytes that all have one label are labelled by one range, or by none. -/
theorem labelsFrom_same {bytes : List UInt8} {label : Option Chain} (order : InOrder ranges)
    (within : ∀ r ∈ ranges, done ≤ r.start ∧ r.stop ≤ done + bytes.length)
    (same : ∀ i, i < bytes.length → labelIn ranges (done + i) = label) :
    LabelsFrom done (bytes.map (·, label)) ranges := by
  have length : (bytes.map (·, label)).length = bytes.length := List.length_map ..
  have values : (bytes.map (·, label)).map Prod.fst = bytes := by
    rw [List.map_map]
    exact List.map_id bytes
  refine ⟨order, length.symm ▸ within, ?_⟩
  rw [values, labelledBy_congr same, labelledBy_same]

end LabelsFrom

namespace Text

variable {s r : Text} {recorder recorder' : Recorder} {map : Char → List Char} {name : String}
  {t : Taint} {offset : Nat}

/-! ## Images -/

/-- The labelled bytes of the image of a character between two offsets: all of them carry the first
label between these. -/
def image (map : Char → List Char) (label : Nat → Option Chain) :
    Char × Nat × Nat → List (UInt8 × Option Chain)
  | (c, start, stop) => (encode (map c)).map (·, firstIn label start stop)

/-- The labelled bytes of the images of all characters. -/
def images (map : Char → List Char) (s : Text) : List (UInt8 × Option Chain) :=
  (placed 0 s.characters).flatMap (image map s.taint.chainAt)

theorem fst_image (map : Char → List Char) (c : Char) (label : Nat → Option Chain) (start stop : Nat) :
    (image map label (c, start, stop)).map Prod.fst = encode (map c) := by
  rw [image, List.map_map]
  exact List.map_id _

theorem fst_images (map : Char → List Char) (label : Nat → Option Chain) (offset : Nat)
    (chars : List Char) :
    ((placed offset chars).flatMap (image map label)).map Prod.fst = encode (chars.flatMap map) := by
  induction chars generalizing offset with
  | nil => rfl
  | cons c rest ih =>
    rw [placed, List.flatMap_cons, List.map_append, ih, List.flatMap_cons, Utf8.encode_append,
      fst_image]

theorem exists_labelled_image_iff {c : Char} (filled : map c ≠ []) (label : Nat → Option Chain)
    (start stop : Nat) :
    (∃ entry ∈ image map label (c, start, stop), entry.2 ≠ none) ↔
      ∃ p, start ≤ p ∧ p < stop ∧ label p ≠ none := by
  rw [← firstIn_ne_none_iff, image]
  constructor
  · rintro ⟨entry, mem, tainted⟩
    obtain ⟨byte, -, rfl⟩ := List.mem_map.mp mem
    exact tainted
  · intro tainted
    have encoded : encode (map c) ≠ [] := fun nothing => by
      have length := Utf8.length_encode (map c)
      rw [nothing] at length
      exact filled (Utf8.eq_nil_of_byteLength length.symm)
    obtain ⟨byte, mem⟩ := List.exists_mem_of_ne_nil _ encoded
    exact ⟨_, List.mem_map_of_mem mem, tainted⟩

/-- Some byte of the images is labelled exactly if some byte of the characters is. -/
theorem exists_labelled_images_iff {label : Nat → Option Chain} {chars : List Char}
    (filled : ∀ c ∈ chars, map c ≠ []) :
    (∃ entry ∈ (placed offset chars).flatMap (image map label), entry.2 ≠ none) ↔
      ∃ p, offset ≤ p ∧ p < offset + byteLength chars ∧ label p ≠ none := by
  induction chars generalizing offset with
  | nil => simp [placed, byteLength]; omega
  | cons c rest ih =>
    have positive := c.utf8Size_pos
    have own := exists_labelled_image_iff (filled c List.mem_cons_self) label offset
      (offset + c.utf8Size)
    rw [placed, List.flatMap_cons, byteLength]
    simp only [List.mem_append, or_and_right, exists_or]
    rw [own, ih fun c mem => filled c (List.mem_cons_of_mem _ mem)]
    constructor
    · rintro (⟨p, late, early, tainted⟩ | ⟨p, late, early, tainted⟩)
      · exact ⟨p, late, by omega, tainted⟩
      · exact ⟨p, by omega, by omega, tainted⟩
    · rintro ⟨p, late, early, tainted⟩
      rcases Nat.lt_or_ge p (offset + c.utf8Size) with inside | behind
      · exact .inl ⟨p, late, inside, tainted⟩
      · exact .inr ⟨p, behind, by omega, tainted⟩

theorem length_image (c : Char) (label : Nat → Option Chain) (start stop : Nat) :
    (image map label (c, start, stop)).length = byteLength (map c) := by
  rw [← Utf8.length_encode, ← fst_image map c label start stop, List.length_map]

/-- The ranges of the images label them.  The induction is on the characters, for any offset of the
first of them and any offset of its image. -/
theorem exists_imageRanges (wf : t.WellFormed) {chars : List Char} (offset done : Nat)
    (bounded : offset + byteLength chars ≤ Position.last)
    (fits : done + byteLength (chars.flatMap map) ≤ Position.last) :
    ∃ ranges, imageRanges map t done (placed offset chars) = .ok ranges ∧
      LabelsFrom done ((placed offset chars).flatMap (image map t.chainAt)) ranges := by
  induction chars generalizing offset done with
  | nil => exact ⟨[], rfl, labelsFrom_nil done⟩
  | cons c rest ih =>
    have positive := c.utf8Size_pos
    rw [byteLength] at bounded
    rw [List.flatMap_cons, Utf8.byteLength_append] at fits
    have first : t.firstChainIn offset (offset + c.utf8Size) =
        firstIn t.chainAt offset (offset + c.utf8Size) :=
      Taint.firstChainIn_eq wf (by omega)
    have length := Utf8.length_encode (map c)
    obtain ⟨others, built, labels⟩ :=
      ih (offset + c.utf8Size) (done + byteLength (map c)) (by omega) (by omega)
    rw [← length_image c t.chainAt offset (offset + c.utf8Size)] at labels
    rw [placed, imageRanges, List.flatMap_cons, Position.ofOffset_eq_ok (by omega),
      Position.ofOffset_eq_ok (by omega)]
    simp only [bind, Except.bind, built, first]
    cases found : firstIn t.chainAt offset (offset + c.utf8Size) with
    | none =>
      have front : LabelsFrom done (image map t.chainAt (c, offset, offset + c.utf8Size)) [] := by
        rw [image, found]
        exact labelsFrom_same inOrder_nil (by simp) fun i _ => labelIn_nil
      exact ⟨_, rfl, front.append labels⟩
    | some chain =>
      have stops : done + byteLength (map c) ≤ Position.last := by omega
      have front : LabelsFrom done (image map t.chainAt (c, offset, offset + c.utf8Size))
          [⟨done, done + byteLength (map c), chain, Nat.le_add_right .., stops⟩] := by
        rw [image, found]
        refine labelsFrom_same (inOrder_of_length_le_one (Nat.le_refl 1)) (by simp [length])
          fun i inside => labelIn_cons_of_covers ⟨Nat.le_add_right .., ?_⟩
        change done + i < done + byteLength (map c)
        omega
      refine ⟨_, ?_, front.append labels⟩
      rw [Position.ofOffset_eq_ok (by omega), Position.ofOffset_eq_ok stops]
      dsimp only
      rw [Range.ofBounds_eq_ok (Nat.le_add_right ..) stops]
      rfl

/-! ## Mapped texts -/

/-- Recording changes chains and leaves untainted bytes alone. -/
theorem Recorded.exists_tainted_iff {arguments : List String}
    {before after : List (UInt8 × Option Chain)}
    (recorded : Recorded recorder name arguments before after) :
    (∃ entry ∈ after, entry.2 ≠ none) ↔ ∃ entry ∈ before, entry.2 ≠ none := by
  obtain ⟨number, -, rfl⟩ := recorded
  simp

/-- A text with taint within its value is tainted exactly if some labelled byte is. -/
theorem Sound.isTainted_iff (sound : s.Sound) :
    s.isTainted = true ↔ ∃ entry ∈ s.labelled, entry.2 ≠ none := by
  have mapped : s.labelled.map Prod.snd = (List.range s.length).map s.taint.chainAt := by
    refine List.ext_getElem ?_ fun i _ _ => ?_
    · simp [labelled, labelledBy, length_bytes]
    · simp [labelled, labelledBy]
  have tainted := Taint.WellFormed.isTainted_iff sound.wellFormed
  rw [isTainted, tainted]
  constructor
  · rintro ⟨p, tainted⟩
    have inside := Nat.lt_of_lt_of_le (Taint.WellFormed.lt_stop sound.wellFormed tainted)
      sound.within
    have mem : s.taint.chainAt p ∈ s.labelled.map Prod.snd :=
      mapped ▸ List.mem_map_of_mem (List.mem_range.mpr inside)
    obtain ⟨entry, mem, label⟩ := List.mem_map.mp mem
    exact ⟨entry, mem, label ▸ tainted⟩
  · rintro ⟨entry, mem, tainted⟩
    have mem : entry.2 ∈ (List.range s.length).map s.taint.chainAt :=
      mapped ▸ List.mem_map_of_mem mem
    obtain ⟨p, -, label⟩ := List.mem_map.mp mem
    exact ⟨p, label ▸ tainted⟩

/-- `r` has the images of the characters of `s`, with a built-in operation recorded on them. -/
structure Mapped (map : Char → List Char) (name : String) (recorder : Recorder) (s r : Text) :
    Prop where
  characters : r.characters = s.characters.flatMap map
  sound : r.Sound
  labelled : Recorded recorder name [] (images map s) r.labelled
  tainted : r.isTainted = true ↔ ∃ p, p < s.length ∧ s.taint.chainAt p ≠ none

theorem exists_mapCharacters (wf : s.WellFormed) (bounded : s.length ≤ Position.last)
    (recorder : Recorder) (name : String) (filled : ∀ c ∈ s.characters, map c ≠ [])
    (fits : byteLength (s.characters.flatMap map) ≤ Position.last) :
    ∃ r recorder', s.mapCharacters map name recorder = .ok (r, recorder') ∧
      Mapped map name recorder s r := by
  have inPositions : 0 + byteLength s.characters ≤ Position.last := by rwa [Nat.zero_add]
  obtain ⟨ranges, built, labelsFrom⟩ :=
    exists_imageRanges wf 0 0 inPositions (by rwa [Nat.zero_add])
  obtain ⟨mapped, made, labels⟩ := Taint.ofRanges_spec labelsFrom.inOrder
  have bytes := fst_images map s.taint.chainAt 0 s.characters
  have labelled : labelled ⟨String.ofList (s.characters.flatMap map), mapped⟩ = images map s := by
    unfold Text.labelled
    rw [bytes_eq_encode, characters_ofList, ← bytes]
    refine .trans (labelledBy_congr fun i _ => ?_) labelsFrom.labelled
    rw [labels.chainAt, Nat.zero_add]
  have sound : Sound ⟨String.ofList (s.characters.flatMap map), mapped⟩ := by
    refine ⟨labels.wellFormed, Taint.stop_le_of_ofRanges made fun r mem => ?_⟩
    have within := (labelsFrom.within r mem).2
    rw [length_ofList, ← Utf8.length_encode, ← bytes, List.length_map]
    omega
  obtain ⟨-, recorded⟩ := recorded_record sound.wellFormed sound.within recorder name []
  have soundLast := sound_record sound recorder name []
  rw [labelled] at recorded
  refine ⟨_, (recorder.record mapped name []).2, ?_, characters_ofList .., soundLast, recorded, ?_⟩
  · unfold mapCharacters
    rw [built]
    simp only [bind, Except.bind, made]
    rfl
  · refine soundLast.isTainted_iff.trans (recorded.exists_tainted_iff.trans ?_)
    rw [images, exists_labelled_images_iff filled]
    simp only [Nat.zero_le, true_and, Nat.zero_add, length]

/-! ## Upper and lower case -/

theorem mapCase_ne_nil {expansions : List (Nat × List Nat)} {runs : List Unicode.CaseRun}
    (filled : ∀ entry ∈ expansions, entry.2 ≠ []) (c : Char) :
    Unicode.mapCase expansions runs c ≠ [] := by
  unfold Unicode.mapCase
  cases found : expansions.lookup c.toNat with
  | none =>
    dsimp only
    split
    · exact List.cons_ne_nil _ _
    · exact List.cons_ne_nil _ _
  | some codes =>
    obtain ⟨front, back, same, -⟩ := List.lookup_eq_some_iff.mp found
    have entry := filled (c.toNat, codes) (by simp [same])
    exact mt List.map_eq_nil_iff.mp entry

theorem toLower_ne_nil (c : Char) : Unicode.toLower c ≠ [] := mapCase_ne_nil (by decide) c

theorem toUpper_ne_nil (c : Char) : Unicode.toUpper c ≠ [] := mapCase_ne_nil (by decide) c

/-- **Case mappings carry taint along.**  For a text whose value and image stay within the positions,
any mapping of every character to one or more characters gives the images of all characters, and
every byte of an image carries the chain of the first tainted byte of its character, with one
built-in operation recorded on all chains if recording is on.  The mappings to lower and to upper
case are such mappings. -/
theorem caseMapping_carries_taint (wf : s.WellFormed) (bounded : s.length ≤ Position.last)
    (recorder : Recorder) :
    (∀ map name, (∀ c ∈ s.characters, map c ≠ []) →
      byteLength (s.characters.flatMap map) ≤ Position.last →
      ∃ r recorder', s.mapCharacters map name recorder = .ok (r, recorder') ∧
        Mapped map name recorder s r) ∧
    (byteLength (s.characters.flatMap Unicode.toLower) ≤ Position.last →
      ∃ r recorder', s.lower recorder = .ok (r, recorder') ∧
        Mapped Unicode.toLower "toLowerCase" recorder s r) ∧
    (byteLength (s.characters.flatMap Unicode.toUpper) ≤ Position.last →
      ∃ r recorder', s.upper recorder = .ok (r, recorder') ∧
        Mapped Unicode.toUpper "toUpperCase" recorder s r) :=
  ⟨fun _ name filled fits => exists_mapCharacters wf bounded recorder name filled fits,
    exists_mapCharacters wf bounded recorder _ fun c _ => toLower_ne_nil c,
    exists_mapCharacters wf bounded recorder _ fun c _ => toUpper_ne_nil c⟩

/-- The last byte of a character is enough to taint the image, which is longer. -/
theorem caseMapping_carries_taint_longer :
    ∃ r recorder', upper
        ⟨"aɐc", ⟨some [⟨2, 3, .ofSource { name := "read" } 0, by decide, by decide⟩]⟩⟩ {} =
          .ok (r, recorder') ∧
      r.characters = ['A', 'Ɐ', 'C'] ∧
      Recorded {} "toUpperCase" []
        [(65, none), (226, some (.ofSource { name := "read" } 0)),
          (177, some (.ofSource { name := "read" } 0)),
          (175, some (.ofSource { name := "read" } 0)), (67, none)] r.labelled := by
  obtain ⟨r, recorder', done, mapped⟩ := (caseMapping_carries_taint
    (s := ⟨"aɐc", ⟨some [⟨2, 3, .ofSource { name := "read" } 0, by decide, by decide⟩]⟩⟩)
    (by decide) (by decide) {}).2.2 (by decide)
  exact ⟨r, recorder', done, mapped.characters, mapped.labelled⟩

end Text

end TextProvenance
