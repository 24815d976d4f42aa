import Mathlib.Data.List.Nodup
import TextProvenance.Chain

/-!
# Ledgers of chains

A ledger lists chains together with the chains below them, under numbers that have been used up, and
no two under one number: it is what makes a number stand for a node (`Ledger.unique`).

`Ledger.Continues` says that a ledger can be written on, without a change to what is listed, so that
it lists given chains too.  Chains that are numbered from the next number on, and stand on listed
chains, are such chains (`Ledger.continues_of_numbered`); everything that makes nodes is covered by
that one lemma.
-/

namespace TextProvenance

/-! ## Nodes below a node -/

namespace Chain

variable {c d p : Chain} {chains : List Chain}

/-- A chain of a node is the whole chain, or one of a node of its parent. -/
theorem mem_suffixes_iff :
    d ∈ c.suffixes ↔ d = c ∨ ∃ p, c.parent? = some p ∧ d ∈ p.suffixes := by
  rcases c with ⟨head, _ | ⟨next, rest⟩⟩
  · simp [suffixes, suffixes.go, parent?]
  · simp [suffixes, suffixes.go, parent?]

theorem mem_suffixes_self (c : Chain) : c ∈ c.suffixes := mem_suffixes_iff.mpr (.inl rfl)

theorem parent_mem_suffixes (mem : d ∈ c.suffixes) (parent : d.parent? = some p) :
    p ∈ c.suffixes := by
  rcases c with ⟨head, older⟩
  induction older generalizing head with
  | nil =>
    rcases mem_suffixes_iff.mp mem with rfl | ⟨q, next, _⟩
    · cases parent
    · cases next
  | cons node rest ih =>
    refine mem_suffixes_iff.mpr (.inr ⟨⟨node, rest⟩, rfl, ?_⟩)
    rcases mem_suffixes_iff.mp mem with rfl | ⟨q, next, below⟩
    · cases parent
      exact mem_suffixes_self _
    · cases next
      exact ih node below

/-- The chain is that of a node of one of the chains. -/
def ReachedFrom (chains : List Chain) (c : Chain) : Prop := ∃ held ∈ chains, c ∈ held.suffixes

theorem reachedFrom_of_mem (mem : c ∈ chains) : c.ReachedFrom chains :=
  ⟨c, mem, c.mem_suffixes_self⟩

end Chain

/-! ## Ledgers -/

/-- Chains that have been recorded, under numbers below `nextSerial`. -/
structure Ledger where
  Lists : Chain → Prop
  nextSerial : Nat
  numbered : ∀ c, Lists c → c.serial < nextSerial
  unique : ∀ c d, Lists c → Lists d → c.serial = d.serial → c = d
  parents : ∀ c p, Lists c → c.parent? = some p → Lists p

namespace Ledger

variable {L L' : Ledger} {c d : Chain} {chains others : List Chain} {next next' : Nat}

/-- A ledger that lists nothing. -/
def empty (nextSerial : Nat) : Ledger where
  Lists _ := False
  nextSerial := nextSerial
  numbered _ := nofun
  unique _ _ := nofun
  parents _ _ := nofun

/-- A listed chain is listed with the chains of all its nodes. -/
theorem lists_of_mem_suffixes (L : Ledger) (listed : L.Lists c) (mem : d ∈ c.suffixes) :
    L.Lists d := by
  rcases c with ⟨head, older⟩
  induction older generalizing head with
  | nil =>
    rcases Chain.mem_suffixes_iff.mp mem with rfl | ⟨p, parent, _⟩
    · exact listed
    · cases parent
  | cons node rest ih =>
    rcases Chain.mem_suffixes_iff.mp mem with rfl | ⟨p, parent, below⟩
    · exact listed
    · cases parent
      exact ih node (L.parents _ _ listed rfl) below

theorem lists_of_reachedFrom (L : Ledger) (listed : ∀ c ∈ chains, L.Lists c)
    (reached : c.ReachedFrom chains) : L.Lists c := by
  obtain ⟨held, mem, below⟩ := reached
  exact L.lists_of_mem_suffixes (listed held mem) below

/-- The ledger with nothing but what is reached from some of the listed chains. -/
def reachedFrom (L : Ledger) (chains : List Chain) (listed : ∀ c ∈ chains, L.Lists c) :
    Ledger where
  Lists c := c.ReachedFrom chains
  nextSerial := L.nextSerial
  numbered c reached := L.numbered c (L.lists_of_reachedFrom listed reached)
  unique c d reached reached' := L.unique c d (L.lists_of_reachedFrom listed reached)
    (L.lists_of_reachedFrom listed reached')
  parents := by
    rintro c p ⟨held, mem, below⟩ parent
    exact ⟨held, mem, Chain.parent_mem_suffixes below parent⟩

/-- The second ledger lists what the first one does, and otherwise only chains under new numbers. -/
structure WrittenOn (L L' : Ledger) : Prop where
  le : L.nextSerial ≤ L'.nextSerial
  keeps : ∀ c, L.Lists c → L'.Lists c
  new : ∀ c, L'.Lists c → L.Lists c ∨ L.nextSerial ≤ c.serial

theorem WrittenOn.refl (L : Ledger) : L.WrittenOn L := ⟨Nat.le_refl _, fun _ => id, fun _ => .inl⟩

theorem WrittenOn.trans {L'' : Ledger} (first : L.WrittenOn L') (second : L'.WrittenOn L'') :
    L.WrittenOn L'' := by
  refine ⟨Nat.le_trans first.le second.le, fun c listed => second.keeps c (first.keeps c listed),
    fun c listed => ?_⟩
  rcases second.new c listed with before | late
  · exact first.new c before
  · exact .inr (Nat.le_trans first.le late)

/-- The ledger can be written on, up to the number `next`, so that it lists the chains. -/
def Continues (L : Ledger) (next : Nat) (chains : List Chain) : Prop :=
  ∃ L' : Ledger, L.WrittenOn L' ∧ L'.nextSerial = next ∧ ∀ c ∈ chains, L'.Lists c

/-- The chain is listed, or one of those that are added. -/
def ListsWith (L : Ledger) (added : List Chain) (c : Chain) : Prop := L.Lists c ∨ c ∈ added

/-- Chains that are numbered from the next number on, and stand on listed chains, are listed in
addition. -/
def write (L : Ledger) (added : List Chain)
    (numbered : added.map Chain.serial = List.range' L.nextSerial added.length)
    (parents : ∀ c ∈ added, ∀ p, c.parent? = some p → L.Lists p) : Ledger where
  Lists := L.ListsWith added
  nextSerial := L.nextSerial + added.length
  numbered c listed := by
    rcases listed with before | mem
    · exact Nat.lt_add_right _ (L.numbered c before)
    · have inRange := numbered ▸ List.mem_map_of_mem (f := Chain.serial) mem
      exact (List.mem_range'_1.mp inRange).2
  unique c d listed listed' same := by
    have late {c : Chain} (mem : c ∈ added) : L.nextSerial ≤ c.serial :=
      (List.mem_range'_1.mp (numbered ▸ List.mem_map_of_mem (f := Chain.serial) mem)).1
    rcases listed with before | mem
    · rcases listed' with before' | mem'
      · exact L.unique c d before before' same
      · have := L.numbered c before
        have := late mem'
        omega
    · rcases listed' with before' | mem'
      · have := L.numbered d before'
        have := late mem
        omega
      · have distinct : (added.map Chain.serial).Nodup := numbered ▸ List.nodup_range'
        exact List.inj_on_of_nodup_map distinct mem mem' same
  parents c p listed parent := by
    rcases listed with before | mem
    · exact .inl (L.parents c p before parent)
    · exact .inl (parents c mem p parent)

theorem continues_self (listed : ∀ c ∈ chains, L.Lists c) : L.Continues L.nextSerial chains :=
  ⟨L, .refl L, rfl, listed⟩

theorem continues_nil : L.Continues L.nextSerial [] :=
  continues_self fun _ mem => absurd mem List.not_mem_nil

theorem continues_of_numbered (added : List Chain)
    (numbered : added.map Chain.serial = List.range' L.nextSerial added.length)
    (parents : ∀ c ∈ added, ∀ p, c.parent? = some p → L.Lists p)
    (listed : ∀ c ∈ chains, L.ListsWith added c) :
    L.Continues (L.nextSerial + added.length) chains := by
  refine ⟨L.write added numbered parents, ⟨Nat.le_add_right .., fun _ => .inl, ?_⟩, rfl, listed⟩
  rintro c (before | mem)
  · exact .inl before
  · exact .inr (List.mem_range'_1.mp (numbered ▸ List.mem_map_of_mem (f := Chain.serial) mem)).1

namespace Continues

theorem mono (continues : L.Continues next chains) (sub : others ⊆ chains) :
    L.Continues next others := by
  obtain ⟨L', written, same, listed⟩ := continues
  exact ⟨L', written, same, fun c mem => listed c (sub mem)⟩

/-- Numbers may be left out. -/
theorem skip (continues : L.Continues next chains) (le : next ≤ next') :
    L.Continues next' chains := by
  obtain ⟨L', written, rfl, listed⟩ := continues
  refine ⟨{ L' with
    nextSerial := next'
    numbered := fun c listed => Nat.lt_of_lt_of_le (L'.numbered c listed) le },
    ⟨Nat.le_trans written.le le, written.keeps, written.new⟩, rfl, listed⟩

theorem bind (first : L.Continues next chains)
    (second : ∀ L' : Ledger, L'.nextSerial = next → (∀ c, L.Lists c → L'.Lists c) →
      (∀ c ∈ chains, L'.Lists c) → L'.Continues next' others) :
    L.Continues next' others := by
  obtain ⟨L', written, same, listed⟩ := first
  obtain ⟨L'', written', same', listed'⟩ := second L' same written.keeps listed
  exact ⟨L'', written.trans written', same', listed'⟩

/-- What was listed stays listed. -/
theorem with_listed (continues : L.Continues next chains) (listed : ∀ c ∈ others, L.Lists c) :
    L.Continues next (chains ++ others) := by
  obtain ⟨L', written, same, listed'⟩ := continues
  refine ⟨L', written, same, fun c mem => ?_⟩
  rcases List.mem_append.mp mem with mem | mem
  · exact listed' c mem
  · exact written.keeps c (listed c mem)

end Continues

end Ledger

end TextProvenance
