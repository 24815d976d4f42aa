import TextProvenance.Proofs.Text.Questions

/-!
# Marked arguments

A call is recorded on its tainted arguments one after the other, on each of them by the recorder
that the arguments in front of it have left (`Recorder.behind`).  So what a call does is one map
over its arguments, with their indices (`Text.markFrom_eq`).

`Text.markArguments_marks_tainted` says what becomes of every argument, and that no two arguments
share a new head.
-/

namespace TextProvenance

namespace Recorder

/-- The recorder after a call has been recorded on some texts: it has asked once for each tainted
one, and set a number aside for each range. -/
def behind (recorder : Recorder) (texts : List Text) : Recorder :=
  { recorder with
    asked := recorder.asked +
      if recorder.config.recordLocations then (texts.filter Text.isTainted).length else 0
    nextSerial := recorder.nextSerial + (texts.flatMap fun s => s.taint.ranges).length }

theorem behind_nil (recorder : Recorder) : recorder.behind [] = recorder := by
  simp [behind]

theorem behind_cons (recorder : Recorder) (s : Text) (texts : List Text) :
    recorder.behind (s :: texts) = (recorder.behind [s]).behind texts := by
  have tainted : ((s :: texts).filter Text.isTainted).length =
      ([s].filter Text.isTainted).length + (texts.filter Text.isTainted).length := by
    rw [← List.length_append, ← List.filter_append, List.singleton_append]
  simp only [behind, tainted, List.flatMap_cons, List.flatMap_nil, List.length_append,
    List.length_nil]
  congr 1
  · split <;> omega
  · omega

theorem location_behind (recorder : Recorder) (texts : List Text) :
    (recorder.behind texts).location =
      recorder.locationAt (texts.filter Text.isTainted).length := by
  unfold location locationAt behind
  split <;> rfl

end Recorder

namespace Text

variable {s s' : Text} {recorder : Recorder} {function sourceInfo : String} {arguments : List Text}

/-- A text with the call of a function recorded on it, as the argument `index`. -/
def markedBy (recorder : Recorder) (function sourceInfo : String) (index : Nat) (s : Text) : Text :=
  s.withTaint (s.taint.extend
    (recorder.operation function false [function, sourceInfo, toString index]).1
    recorder.nextSerial)

theorem markedBy_of_not_isTainted (clean : ¬ s.isTainted = true) (index : Nat) :
    markedBy recorder function sourceInfo index s = s := by
  rcases s with ⟨value, ⟨_ | ranges⟩⟩
  · rfl
  · exact absurd rfl clean

/-- One argument is marked, and then the others by the recorder that it leaves. -/
theorem markFrom_cons (index : Nat) (recorder : Recorder) (s : Text) (rest : List Text) :
    markFrom function sourceInfo index recorder (s :: rest) =
      (markedBy recorder function sourceInfo index s ::
          (markFrom function sourceInfo (index + 1) (recorder.behind [s]) rest).1,
        (markFrom function sourceInfo (index + 1) (recorder.behind [s]) rest).2) := by
  rw [markFrom]
  by_cases tainted : s.isTainted = true
  · have left : (((recorder.operation function false
        [function, sourceInfo, toString index]).2).advance s.taint.rangeCount) =
          recorder.behind [s] := by
      have one : [s].filter isTainted = [s] := List.filter_cons_of_pos tainted
      simp only [Recorder.behind, one, Recorder.operation, Recorder.advance, Taint.rangeCount]
      split <;> simp
    simp only [if_pos tainted, Recorder.extend, left, Recorder.nextSerial_operation]
    rfl
  · have left : recorder.behind [s] = recorder := by
      have none : [s].filter isTainted = [] := List.filter_cons_of_neg tainted
      simp [Recorder.behind, none, Taint.ranges_eq_nil tainted]
    simp only [if_neg tainted, left, markedBy_of_not_isTainted tainted]

/-- What becomes of the arguments of a call is one map over them.  The induction is on the
arguments; the recorder that those in front have left carries it. -/
theorem markFrom_eq (index : Nat) (recorder : Recorder) (arguments : List Text) :
    (markFrom function sourceInfo index recorder arguments).1 =
      arguments.mapIdx fun i s =>
        markedBy (recorder.behind (arguments.take i)) function sourceInfo (index + i) s := by
  induction arguments generalizing index recorder with
  | nil => rfl
  | cons s rest ih =>
    have later : ∀ i, recorder.behind ((s :: rest).take (i + 1)) =
        (recorder.behind [s]).behind (rest.take i) := fun i => recorder.behind_cons s _
    rw [markFrom_cons, ih, List.mapIdx_cons, List.take_zero, recorder.behind_nil]
    simp only [later, Nat.add_assoc, Nat.add_comm 1]
    rfl

/-! ## Heads -/

theorem heads_markedBy (recorder : Recorder) (index : Nat) (s : Text) :
    (markedBy recorder function sourceInfo index s).taint.heads =
      s.taint.chains.map fun c => recorder.nextSerial + s.taint.chains.idxOf c :=
  s.taint.heads_extend _ _

/-- The heads of a marked argument are numbered in front of the recorder that it leaves. -/
theorem lt_nextSerial_of_mem_heads {index number : Nat}
    (mem : number ∈ (markedBy recorder function sourceInfo index s).taint.heads) :
    number < (recorder.behind [s]).nextSerial := by
  rw [heads_markedBy] at mem
  obtain ⟨c, memC, rfl⟩ := List.mem_map.mp mem
  have place := List.idxOf_lt_length_of_mem memC
  rw [Taint.chains, List.length_map] at place
  rw [Recorder.behind, List.flatMap_singleton]
  exact Nat.add_lt_add_left place _

theorem nextSerial_le_of_mem_heads {serial number index : Nat} {arguments : List Text}
    (le : serial ≤ recorder.nextSerial)
    (mem : s ∈ (markFrom function sourceInfo index recorder arguments).1)
    (head : number ∈ s.taint.heads) : serial ≤ number := by
  obtain ⟨c, memC, rfl⟩ := List.mem_map.mp head
  exact Taint.under_iff.mp (markFrom_since index le s mem) c memC

/-- No two marked arguments have a head in common, also where they were under one chain. -/
theorem pairwise_disjoint_heads_markFrom (index : Nat) (recorder : Recorder)
    (arguments : List Text) :
    ((markFrom function sourceInfo index recorder arguments).1.map fun s =>
      s.taint.heads).Pairwise List.Disjoint := by
  induction arguments generalizing index recorder with
  | nil => exact .nil
  | cons s rest ih =>
    rw [markFrom_cons, List.map_cons]
    refine .cons (fun heads mem number first later => ?_) (ih _ _)
    obtain ⟨marked, memMarked, rfl⟩ := List.mem_map.mp mem
    have before := lt_nextSerial_of_mem_heads first
    have behind := nextSerial_le_of_mem_heads (Nat.le_refl _) memMarked later
    omega

/-! ## What a call records -/

/-- What is recorded on the argument at the index `i`, if it is tainted. -/
def callOn (recorder : Recorder) (function sourceInfo : String) (arguments : List Text) (i : Nat) :
    Operation where
  name := function
  native := false
  location := recorder.locationAt ((arguments.take i).filter isTainted).length
  arguments := [function, sourceInfo, toString i].map recorder.shortened

theorem operation_behind (recorder : Recorder) (function sourceInfo : String)
    (arguments : List Text) (i : Nat) :
    ((recorder.behind (arguments.take i)).operation function false
      [function, sourceInfo, toString i]).1 = callOn recorder function sourceInfo arguments i := by
  rw [Recorder.operation_eq, Recorder.location_behind]
  rfl

/-- `s'` is `s` with an operation recorded on it: on top of every chain, under numbers from `serial`
on, and under one number exactly where there was one chain. -/
structure Marks (operation : Operation) (serial : Nat) (s s' : Text) : Prop where
  value : s'.value = s.value
  extends_taint : s.taint.Extends operation s'.taint
  heads : ∀ i j : Nat, s'.taint.heads[i]? = s'.taint.heads[j]? ↔
    s.taint.chains[i]? = s.taint.chains[j]?
  new : ∀ number ∈ s'.taint.heads, serial ≤ number

/-- **A call is recorded on its tainted arguments.**  The texts are as they were, and so is every
argument that has no taint; if recording is off, all of them are.  If it is on, then a tainted
argument has the call on top of each of its chains, with the function, where that is defined and the
index of the argument, each cut to the longest length; the name of the operation is not cut.  The
index counts all the arguments, and the location is asked for once for each tainted one.  Within an
argument the ranges share their new chains as they shared the old ones, and no two arguments share
one. -/
theorem markArguments_marks_tainted {arguments : List Text} (wf : ∀ s ∈ arguments, s.WellFormed)
    (function sourceInfo : String) (recorder : Recorder) :
    let marked := (markArguments function sourceInfo arguments recorder).1
    marked.map Text.value = arguments.map Text.value ∧
    (∀ (i : Nat) (s : Text), arguments[i]? = some s → ¬ s.isTainted = true →
      marked[i]? = some s) ∧
    (recorder.config.enabled = false → marked = arguments) ∧
    (recorder.config.enabled = true →
      (∀ (i : Nat) (s : Text), arguments[i]? = some s → s.isTainted = true →
        ∃ s', marked[i]? = some s' ∧
          Marks (callOn recorder function sourceInfo arguments i) recorder.nextSerial s s') ∧
      (marked.map fun s => s.taint.heads).Pairwise List.Disjoint) := by
  intro marked
  cases on : recorder.config.enabled with
  | false =>
    have same : marked = arguments := by
      simp only [marked, markArguments, on]
      rfl
    rw [same]
    exact ⟨rfl, fun _ _ found _ => found, fun _ => rfl, fun enabled =>
      absurd enabled Bool.false_ne_true⟩
  | true =>
    have done : marked = (markFrom function sourceInfo 0 recorder arguments).1 := by
      simp only [marked, markArguments, on]
      rfl
    have each : ∀ (i : Nat) (s : Text), arguments[i]? = some s → marked[i]? =
        some (markedBy (recorder.behind (arguments.take i)) function sourceInfo i s) := by
      intro i s found
      rw [done, markFrom_eq, List.getElem?_mapIdx, found, Nat.zero_add]
      rfl
    refine ⟨?_, fun i s found clean => ?_, fun off => absurd off.symm Bool.false_ne_true,
      fun _ => ⟨fun i s found _ => ?_, ?_⟩⟩
    · refine List.ext_getElem? fun i => ?_
      rw [done, markFrom_eq, List.getElem?_map, List.getElem?_mapIdx, List.getElem?_map,
        Option.map_map]
      rfl
    · rw [each i s found, markedBy_of_not_isTainted clean]
    · refine ⟨_, each i s found, rfl, ?_, s.taint.heads_extend_eq_iff _ _, fun number head => ?_⟩
      · rw [← operation_behind]
        exact Taint.extends_extend (wf s (List.mem_of_getElem? found)) _ _
      · exact nextSerial_le_of_mem_heads (Nat.le_refl _)
          (done ▸ List.mem_of_getElem? (each i s found)) head
    · exact done ▸ pairwise_disjoint_heads_markFrom 0 recorder arguments

/-- Two arguments under one chain, around one that has no taint: each is marked under a number of
its own, and the last one with its index among all three. -/
theorem markArguments_marks_tainted_around :
    let s : Text := ⟨"ab", .ofList (Range.span 0 2 (.ofSource { name := "read" } 0))⟩
    let arguments : List Text := [s, ⟨"c", .untainted⟩, s]
    let recorder : Recorder := { config := { maxArgumentLength := 2 }, nextSerial := 1 }
    let marked := (markArguments "eval" "a.js" arguments recorder).1
    (∀ s ∈ arguments, s.WellFormed) ∧ recorder.config.enabled = true ∧ s.isTainted = true ∧
      (∃ s', marked[2]? = some s' ∧
        Marks { name := "eval", arguments := ["ev", "a.", "2"] } 1 s s') ∧
      marked[1]? = some ⟨"c", .untainted⟩ ∧
      marked.map (fun s => s.taint.heads) = [[1], [], [2]] ∧
      (marked.map fun s => s.taint.heads).Pairwise List.Disjoint := by
  intro s arguments recorder marked
  have wf : ∀ s ∈ arguments, s.WellFormed := by decide
  have on : recorder.config.enabled = true := rfl
  have heads : marked.map (fun s => s.taint.heads) = [[1], [], [2]] := by decide
  obtain ⟨-, untainted, -, recorded⟩ := markArguments_marks_tainted wf "eval" "a.js" recorder
  obtain ⟨marks, apart⟩ := recorded on
  exact ⟨wf, on, rfl, marks 2 s rfl rfl, untainted 1 _ rfl nofun, heads, apart⟩

end Text

end TextProvenance
