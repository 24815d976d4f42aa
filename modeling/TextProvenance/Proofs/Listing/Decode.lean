import TextProvenance.Proofs.Listing.Grammar
import TextProvenance.Proofs.Session.Keeps
import TextProvenance.Proofs.Taint.Builder

/-!
# Taint from listings

A session makes taint from exactly the texts that are listings (`Session.decodes_iff_isListing`).

The ranges of entries are never joined, also where they touch and name one source: every entry has a
number of its own (`serials_ranges`), so no two of them share a chain.
-/

namespace TextProvenance

namespace Listing

variable {entry : Entry} {entries : List Entry} {previousStop nextSerial : Nat} {t : Taint}

/-- The taint of entries: the ranges of those that are not empty, in order, each under a chain that
is one node for the source of the entry.  No two chains are the same, and all their numbers are from
the supply that starts with `nextSerial`, one for each entry. -/
structure IsTaintOf (entries : List Entry) (nextSerial : Nat) (t : Taint) : Prop where
  wellFormed : t.WellFormed
  listed : t.ranges.map (fun r => (r.start, r.stop, r.chain.operations)) =
    (entries.filter fun e => e.start < e.stop).map
      fun e => (e.start, e.stop, [{ name := e.source }])
  own : (t.chains.map Chain.serial).Nodup
  new : ∀ c ∈ t.chains, nextSerial ≤ c.serial ∧ c.serial < nextSerial + entries.length

/-! ## The ranges of entries -/

/-- The ranges of entries, numbered from `nextSerial`. -/
def ranges (entries : List Entry) (nextSerial : Nat) : List Range :=
  entries.mapIdx fun index entry => entry.range (nextSerial + index)

theorem ranges_cons :
    ranges (entry :: entries) nextSerial =
      entry.range nextSerial :: ranges entries (nextSerial + 1) := by
  simp only [ranges, List.mapIdx_cons, Nat.add_zero, Nat.add_comm, Nat.add_left_comm]

theorem serials_ranges (entries : List Entry) (nextSerial : Nat) :
    (ranges entries nextSerial).map (·.chain.serial) =
      List.range' nextSerial entries.length := by
  induction entries generalizing nextSerial with
  | nil => rfl
  | cons entry entries ih =>
    rw [ranges_cons, List.map_cons, ih, List.length_cons, List.range'_succ]
    rfl

/-- Entries in order have ranges in order. -/
theorem inOrder_ranges (ascending : Ascending previousStop entries) (nextSerial : Nat) :
    InOrder (ranges entries nextSerial) ∧
      ∀ r ∈ ranges entries nextSerial, previousStop ≤ r.start := by
  induction entries generalizing previousStop nextSerial with
  | nil => exact ⟨inOrder_nil, nofun⟩
  | cons entry entries ih =>
    rcases ih ascending.2 (nextSerial + 1) with ⟨order, later⟩
    rw [ranges_cons]
    refine ⟨inOrder_cons.mpr ⟨later, order⟩, List.forall_mem_cons.mpr ⟨ascending.1, ?_⟩⟩
    intro r mem
    exact Nat.le_trans ascending.1 (Nat.le_trans entry.start_le_stop (later r mem))

/-- Ranges of entries may stand next to each other, since their numbers differ. -/
theorem separated_ranges (ascending : Ascending previousStop entries) (nextSerial : Nat) :
    Taint.Separated ((ranges entries nextSerial).filter fun r => ¬ r.IsEmpty) := by
  have distinct : (ranges entries nextSerial).Pairwise fun a b => a.chain.serial ≠ b.chain.serial :=
    List.pairwise_map.mp (serials_ranges entries nextSerial ▸ List.nodup_range')
  have apart : (ranges entries nextSerial).Pairwise Range.Precedes :=
    (List.Pairwise.and (inOrder_ranges ascending nextSerial).1 distinct).imp
      fun ⟨order, differ⟩ => ⟨order, fun _ same => differ (congrArg Chain.serial same)⟩
  exact Taint.separated_iff_isChain.mpr (apart.sublist List.filter_sublist).isChain

theorem not_isEmpty_range : ¬ (entry.range nextSerial).IsEmpty ↔ entry.start < entry.stop :=
  (Nat.lt_iff_le_and_ne.trans (and_iff_right entry.start_le_stop)).symm

theorem listed_ranges (entries : List Entry) (nextSerial : Nat) :
    ((ranges entries nextSerial).filter fun r => ¬ r.IsEmpty).map
        (fun r => (r.start, r.stop, r.chain.operations)) =
      (entries.filter fun e => e.start < e.stop).map
        fun e => (e.start, e.stop, [{ name := e.source }]) := by
  induction entries generalizing nextSerial with
  | nil => rfl
  | cons entry entries ih =>
    rw [ranges_cons, List.filter_cons, List.filter_cons]
    simp only [not_isEmpty_range]
    split
    · rw [List.map_cons, List.map_cons, ih]
      rfl
    · exact ih (nextSerial + 1)

/-- Entries in order have taint. -/
theorem exists_taint (ascending : Ascending previousStop entries) (nextSerial : Nat) :
    ∃ t, taint entries nextSerial = .ok t ∧ IsTaintOf entries nextSerial t := by
  have separated := separated_ranges ascending nextSerial
  have filled : ∀ r ∈ (ranges entries nextSerial).filter fun r => ¬ r.IsEmpty, ¬ r.IsEmpty :=
    fun r mem => by simpa using (List.mem_filter.mp mem).2
  have sublist : (((ranges entries nextSerial).filter fun r => ¬ r.IsEmpty).map
      (·.chain.serial)).Sublist (List.range' nextSerial entries.length) :=
    serials_ranges entries nextSerial ▸ List.filter_sublist.map _
  refine ⟨_, Taint.ofRanges_of_separated separated, Taint.wellFormed_ofList filled separated,
    ?_, ?_, ?_⟩
  · rw [Taint.ranges_ofList]
    exact listed_ranges entries nextSerial
  · rw [Taint.chains, Taint.ranges_ofList, List.map_map]
    exact sublist.nodup List.nodup_range'
  · intro c mem
    rw [Taint.chains, Taint.ranges_ofList] at mem
    have numbered := sublist.subset (List.map_map ▸ List.mem_map_of_mem (f := Chain.serial) mem)
    simpa using numbered

end Listing

namespace Session

open Listing SessionM

theorem ends_taintOfEntries {entries : List Entry} {s : Session} {t : Taint}
    (made : Listing.taint entries s.recorder.nextSerial = .ok t) :
    (taintOfEntries entries).ends s =
      (.ok t, { s with recorder := s.recorder.advance entries.length }) := by
  rw [taintOfEntries, ends_recordingOrFault, made]
  rfl

theorem ends_listing {text : String} {entries : List Entry} {s : Session} {t : Taint}
    (found : Listing.read text = .ok entries)
    (made : Listing.taint entries s.recorder.nextSerial = .ok t) :
    (Maker.listing text).eval.ends s =
      (.ok (.taint t), { s with recorder := s.recorder.advance entries.length }) := by
  simp only [Maker.eval, found]
  rw [ends_bind, ends_taintOfEntries made]
  rfl

theorem ends_listingOrUntainted {text : String} {s : Session} {t : Taint}
    (made : Listing.taint (readLenient text) s.recorder.nextSerial = .ok t) :
    (Maker.listingOrUntainted text).eval.ends s =
      (.ok (.taint t), { s with recorder := s.recorder.advance (readLenient text).length }) := by
  rw [Maker.eval, ends_bind, ends_taintOfEntries made]
  rfl

/-- **Texts are decoded if they are listings.**  What a listing is decoded to is the taint of its
entries.  A text that is none is rejected, or taken for no taint where nothing may be rejected. -/
theorem decodes_iff_isListing (text : String) (s : Session) :
    ((∃ value, ((Maker.listing text).eval.ends s).1 = .ok value) ↔
      ∃ entries, IsListing text.toList entries) ∧
    (∀ entries, IsListing text.toList entries →
      ∃ t, IsTaintOf entries s.recorder.nextSerial t ∧
        (Maker.listing text).eval.ends s =
          (.ok (.taint t), { s with recorder := s.recorder.advance entries.length }) ∧
        (Maker.listingOrUntainted text).eval.ends s =
          (.ok (.taint t), { s with recorder := s.recorder.advance entries.length })) ∧
    ((¬ ∃ entries, IsListing text.toList entries) →
      (∃ reason, (Maker.listing text).eval.ends s = (.error (.rejected reason), s)) ∧
        (Maker.listingOrUntainted text).eval.ends s = (.ok (.taint .untainted), s)) := by
  cases found : Listing.read text with
  | ok entries =>
    have isListing := read_eq_ok_iff.mp found
    obtain ⟨t, made, isTaint⟩ := exists_taint isListing.ascending s.recorder.nextSerial
    have lenient : readLenient text = entries := by rw [readLenient, found]
    refine ⟨⟨fun _ => ⟨entries, isListing⟩, fun _ => ⟨.taint t, ?_⟩⟩, ?_, fun unlisted =>
      absurd ⟨entries, isListing⟩ unlisted⟩
    · rw [ends_listing found made]
    · intro others isListingOthers
      cases (read_eq_ok_iff.mpr isListingOthers).symm.trans found
      exact ⟨t, isTaint, ends_listing found made,
        lenient ▸ ends_listingOrUntainted (lenient.symm ▸ made)⟩
  | error reason =>
    have unlisted : ¬ ∃ entries, IsListing text.toList entries := by
      rintro ⟨entries, isListing⟩
      cases (read_eq_ok_iff.mpr isListing).symm.trans found
    have rejected : (Maker.listing text).eval.ends s = (.error (.rejected reason), s) := by
      simp only [Maker.eval, found]
      rfl
    have lenient : readLenient text = [] := by rw [readLenient, found]
    have made : Listing.taint (readLenient text) s.recorder.nextSerial = .ok .untainted := by
      rw [lenient]
      rfl
    refine ⟨⟨?_, fun listed => absurd listed unlisted⟩, fun entries isListing =>
      absurd ⟨entries, isListing⟩ unlisted, fun _ => ⟨⟨reason, rejected⟩, ?_⟩⟩
    · rw [rejected]
      exact fun ⟨_, same⟩ => nomatch same
    · rw [ends_listingOrUntainted made, lenient]
      rfl

/-- Two ranges that touch and name one source stay two ranges, and a range that is empty is left
out.  Nothing is decoded if a comma stands behind the last entry. -/
theorem decodes_iff_isListing_touching :
    ∃ text entries t,
      text = "[{begin:0,end:2,source:a}, {end:9,source:a,begin:2,end:4},{begin:4,end:4,source:b}]" ∧
      IsListing text.toList entries ∧
      t.ranges.map (fun r => (r.start, r.stop, r.chain.operations)) =
        [(0, 2, [{ name := "a" }]), (2, 4, [{ name := "a" }])] ∧
      (Maker.listing text).eval.ends {} = (.ok (.taint t), { recorder := { nextSerial := 3 } }) ∧
      (¬ ∃ entries, IsListing "[{begin:0,end:2,source:a},]".toList entries) ∧
      (Maker.listingOrUntainted "[{begin:0,end:2,source:a},]").eval.ends {} =
        (.ok (.taint .untainted), {}) := by
  have unlisted : ¬ ∃ entries, IsListing "[{begin:0,end:2,source:a},]".toList entries := by
    rintro ⟨entries, isListing⟩
    have rejected : (Listing.read "[{begin:0,end:2,source:a},]").toOption.isNone = true := by
      decide +kernel
    rw [read_eq_ok_iff.mpr isListing] at rejected
    cases rejected
  obtain ⟨text, same⟩ : ∃ text, text =
      "[{begin:0,end:2,source:a}, {end:9,source:a,begin:2,end:4},{begin:4,end:4,source:b}]" :=
    ⟨_, rfl⟩
  have accepted : (Listing.read text).toOption.map (·.map fun e => (e.start, e.stop, e.source)) =
      some [(0, 2, "a"), (2, 4, "a"), (4, 4, "b")] := by
    rw [same]
    decide +kernel
  cases found : Listing.read text with
  | error reason =>
    rw [found] at accepted
    cases accepted
  | ok entries =>
    rw [found] at accepted
    have listed := Option.some.inj accepted
    have three : entries.length = 3 := by simpa using congrArg List.length listed
    have filled := congrArg (fun items => (items.filter fun e => e.1 < e.2.1).map
      fun e => (e.1, e.2.1, [({ name := e.2.2 } : Operation)])) listed
    have isListing := read_eq_ok_iff.mp found
    obtain ⟨t, isTaint, decoded, -⟩ := (decodes_iff_isListing text {}).2.1 entries isListing
    refine ⟨text, entries, t, same, isListing, isTaint.listed.trans ?_, ?_, unlisted,
      ((decodes_iff_isListing _ {}).2.2 unlisted).2⟩
    · simpa [List.filter_map, Function.comp_def] using filled
    · rw [decoded, three]
      rfl

end Session

end TextProvenance
