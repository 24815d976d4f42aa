import TextProvenance.Proofs.Text.Within

/-!
# Copied taint, position by position

Taint is copied in three coordinate systems: the window of the source, the window counted from 0,
and the window counted from where it lands.  Every one of them can leave the positions, and all
checks come before the target is touched, so a copy fails exactly if one of them does
(`Text.CopyRefused`) and then leaves the target as it was.  Otherwise the tainted bytes of the window
replace the taint where they land, and untainted ones leave it (`Text.copyTaint_moves_window`).
-/

namespace TextProvenance

namespace Text

variable {s source : Text} {start stop offset : Nat}

/-- The bytes `[start, stop)` of a text have no place `offset` further right: the window or its
place leaves the positions, or a tainted byte of it would land on the last position or behind. -/
def CopyRefused (source : Text) (start stop offset : Nat) : Prop :=
  Position.last < stop ∨ Position.last < start + offset ∨
    ∃ p, start ≤ p ∧ p < stop ∧ source.taint.chainAt p ≠ none ∧ Position.last ≤ p + offset

/-- The chain of position `p` after a window has been copied: that of the byte that lands there if
it is tainted, and the one from before elsewhere. -/
def copiedLabel (start stop offset : Nat) (copied label : Nat → Option Chain) (p : Nat) :
    Option Chain :=
  if start + offset ≤ p ∧ p < stop + offset then (copied (p - offset)).or (label p) else label p

/-! ## The moved window -/

/-- Moved taint leaves the positions exactly if one of its tainted positions does. -/
theorem exists_leaving_iff {window : Taint} {label : Nat → Option Chain} (ordered : start < stop)
    (labels : window.HasLabels (Taint.windowLabel start stop label))
    (bounded : start + offset ≤ Position.last) :
    Position.last < window.stop + (start + offset) ↔
      ∃ p, start ≤ p ∧ p < stop ∧ label p ≠ none ∧ Position.last ≤ p + offset := by
  constructor
  · intro leaves
    have tainted := labels.wellFormed.chainAt_stop (by omega)
    have stops : window.stop ≤ stop - start := labels.stop_le_of_window
    rw [labels.chainAt, Taint.windowLabel, if_pos (by omega)] at tainted
    exact ⟨start + (window.stop - 1), by omega, by omega, tainted, by omega⟩
  · rintro ⟨p, late, early, tainted, lands⟩
    have inWindow : window.chainAt (p - start) ≠ none := by
      rwa [labels.chainAt, Taint.windowLabel, if_pos (by omega), Nat.add_sub_cancel' late]
    have := labels.wellFormed.lt_stop inWindow
    omega

theorem movedWindow_eq_error (wf : source.WellFormed) (ordered : start < stop)
    (refused : source.CopyRefused start stop offset) :
    ∃ fault, source.movedWindow start stop offset = .error fault := by
  cases moves : source.movedWindow start stop offset with
  | error fault => exact ⟨fault, rfl⟩
  | ok moved =>
    -- The checks of the bounds have passed, so it is the taint that leaves the positions.
    obtain ⟨stops, lands, window, cutOut, joined⟩ := exists_of_movedWindow moves
    have tainted := (refused.resolve_left (by omega)).resolve_left (by omega)
    have labels := Taint.labels_of_subtaint wf cutOut
    have leaves := (exists_leaving_iff ordered labels lands).mpr tainted
    obtain ⟨fault, fails⟩ := Taint.concat_eq_error (t := .untainted) lands (.inr leaves)
    rw [done_of_concatOf joined] at fails
    cases fails

theorem exists_movedWindow (wf : source.WellFormed) (ordered : start < stop)
    (accepted : ¬ source.CopyRefused start stop offset) :
    ∃ moved, source.movedWindow start stop offset = .ok moved := by
  unfold CopyRefused at accepted
  have stops : stop ≤ Position.last := by omega
  have lands : start + offset ≤ Position.last := by omega
  have inWord : start + offset ≤ Offset.last := Nat.le_trans lands (by decide)
  obtain ⟨window, cutOut, labels⟩ := Taint.subtaint_spec wf (Nat.le_of_lt ordered)
  have stays := mt (exists_leaving_iff ordered labels lands).mp fun leaves =>
    accepted (.inr (.inr leaves))
  obtain ⟨moved, joined, -⟩ := Taint.concatOf_spec Taint.wellFormed_untainted labels.wellFormed
    (Nat.zero_le _) (Nat.le_of_not_lt stays)
  refine ⟨moved, ?_⟩
  unfold movedWindow
  rw [Position.ofOffset_eq_ok (by omega), Position.ofOffset_eq_ok stops, Offset.sum_eq_ok inWord]
  simp only [bind, Except.bind, cutOut, Position.ofOffset_eq_ok lands]
  exact joined

/-! ## Copying -/

theorem copyTaint_of_empty {stop : Option Nat} (nothing : stop.getD source.length ≤ start) :
    copyTaint source start offset stop s = { state := s } := by
  simp only [copyTaint]
  rw [if_pos nothing, Edit.nothing]

theorem copyTaint_of_moved {stop : Option Nat} (filled : start < stop.getD source.length)
    {moved : Taint} (moves : source.movedWindow start (stop.getD source.length) offset = .ok moved)
    (wf : s.WellFormed) (wfSource : source.WellFormed) :
    ∃ taint, copyTaint source start offset stop s = { state := s.withTaint taint } ∧
      taint.HasLabels
        (copiedLabel start (stop.getD source.length) offset source.taint.chainAt
          s.taint.chainAt) := by
  have movedLabels := labels_of_movedWindow wfSource moves
  obtain ⟨taint, done, labels⟩ := Taint.addTaint_spec wf movedLabels.wellFormed
  refine ⟨taint, ?_, labels.wellFormed, fun p => ?_⟩
  · simp only [copyTaint]
    rw [if_neg (Nat.not_le_of_lt filled), Edit.given_of_ok moves, onTaint_of_done done]
  · rw [labels.chainAt, movedLabels.chainAt, copiedLabel]
    split
    · rfl
    · exact Option.none_or

theorem copyTaint_of_refused {stop : Option Nat} (wfSource : source.WellFormed)
    (filled : start < stop.getD source.length)
    (refused : source.CopyRefused start (stop.getD source.length) offset) :
    ∃ fault, copyTaint source start offset stop s = { state := s, fault := some fault } := by
  obtain ⟨fault, fails⟩ := movedWindow_eq_error wfSource filled refused
  refine ⟨fault, ?_⟩
  simp only [copyTaint]
  rw [if_neg (Nat.not_le_of_lt filled), Edit.given_of_error fails, Edit.fail]

/-- **Copying moves a window of taint.**  A copy fails exactly if there is a window and it has no
place where it should land, and then the target is as it was.  Otherwise the value stays, every
tainted byte of the window gives its chain to the position where it lands, and all other positions
keep theirs; without a window nothing changes. -/
theorem copyTaint_moves_window (wf : s.WellFormed) (wfSource : source.WellFormed)
    (start offset : Nat) (stop : Option Nat) :
    ((copyTaint source start offset stop).Fails s ↔
      start < stop.getD source.length ∧
        source.CopyRefused start (stop.getD source.length) offset) ∧
    ((copyTaint source start offset stop).Fails s →
      (copyTaint source start offset stop s).state = s) ∧
    (¬ (copyTaint source start offset stop).Fails s →
      ∃ r, copyTaint source start offset stop s = { state := r } ∧ r.value = s.value ∧
        r.taint.HasLabels
          (copiedLabel start (stop.getD source.length) offset source.taint.chainAt
            s.taint.chainAt)) ∧
    (stop.getD source.length ≤ start →
      copyTaint source start offset stop s = { state := s }) := by
  by_cases filled : start < stop.getD source.length
  · by_cases refused : source.CopyRefused start (stop.getD source.length) offset
    · obtain ⟨fault, stopped⟩ := copyTaint_of_refused (s := s) wfSource filled refused
      have fails := Edit.fails_of_stopped stopped
      exact ⟨iff_of_true fails ⟨filled, refused⟩, fun _ => by rw [stopped],
        fun succeeds => absurd fails succeeds, fun empty => absurd filled (by omega)⟩
    · obtain ⟨moved, moves⟩ := exists_movedWindow wfSource filled refused
      obtain ⟨taint, done, labels⟩ := copyTaint_of_moved filled moves wf wfSource
      have succeeds := Edit.not_fails_of_done done
      exact ⟨iff_of_false succeeds fun both => refused both.2, fun fails => absurd fails succeeds,
        fun _ => ⟨_, done, rfl, labels⟩, fun empty => absurd filled (by omega)⟩
  · have done : copyTaint source start offset stop s = { state := s } :=
      copyTaint_of_empty (Nat.le_of_not_lt filled)
    have succeeds := Edit.not_fails_of_done done
    refine ⟨iff_of_false succeeds fun both => filled both.1, fun fails => absurd fails succeeds,
      fun _ => ⟨s, done, rfl, wf, fun p => ?_⟩, fun _ => done⟩
    rw [copiedLabel, if_neg (by omega)]

/-- Of a window that goes on behind its source, what is tainted replaces part of a range; moved
further, the last byte would land on the last position. -/
theorem copyTaint_moves_window_over :
    (∃ r, copyTaint ⟨"xyz", ⟨some [⟨0, 2, .ofSource { name := "file" } 1, by decide, by decide⟩]⟩⟩
        0 2 (some 9)
        ⟨"abcdef", ⟨some [⟨1, 5, .ofSource { name := "read" } 0, by decide, by decide⟩]⟩⟩ =
          { state := r } ∧
      (List.range 6).map r.taint.chainAt =
        [none, some (.ofSource { name := "read" } 0), some (.ofSource { name := "file" } 1),
          some (.ofSource { name := "file" } 1), some (.ofSource { name := "read" } 0), none]) ∧
    (copyTaint ⟨"xyz", ⟨some [⟨0, 2, .ofSource { name := "file" } 1, by decide, by decide⟩]⟩⟩
        0 4294967294 none
        ⟨"abcdef", ⟨some [⟨1, 5, .ofSource { name := "read" } 0, by decide, by decide⟩]⟩⟩).state =
      ⟨"abcdef", ⟨some [⟨1, 5, .ofSource { name := "read" } 0, by decide, by decide⟩]⟩⟩ := by
  have wfSource : WellFormed
      ⟨"xyz", ⟨some [⟨0, 2, .ofSource { name := "file" } 1, by decide, by decide⟩]⟩⟩ := by decide
  have copies := copyTaint_moves_window
    (s := ⟨"abcdef", ⟨some [⟨1, 5, .ofSource { name := "read" } 0, by decide, by decide⟩]⟩⟩)
    (by decide) wfSource
  constructor
  · obtain ⟨r, done, -, labels⟩ := (copies 0 2 (some 9)).2.2.1 fun fails => by
      obtain ⟨-, stops | lands | ⟨p, -, early, -, lands⟩⟩ := (copies 0 2 (some 9)).1.mp fails
      · exact absurd stops (by decide)
      · exact absurd lands (by decide)
      · change p < 9 at early
        change 4294967295 ≤ p + 2 at lands
        omega
    refine ⟨r, done, ?_⟩
    rw [funext labels.chainAt]
    decide
  · exact (copies 0 4294967294 none).2.1 ((copies 0 4294967294 none).1.mpr
      ⟨by decide, .inr (.inr ⟨1, by decide, by decide, by decide, by decide⟩)⟩)

end Text

end TextProvenance
