import TextProvenance.Chain

/-!
# Walks over a chain

Two ways from the head of a chain to its source that see no more of a chain than its head and its
parent: a cursor, which gives one node after the other, and a loop from parent to parent.
-/

namespace TextProvenance.Chain

/-- A place in a chain, newest node first: the chain whose head comes next, or nothing behind the
source. -/
structure Cursor where
  current : Option Chain

/-- The cursor in front of the head. -/
def cursor (c : Chain) : Cursor := ⟨some c⟩

/-- The next node, and the cursor behind it. -/
def Cursor.next? (cursor : Cursor) : Option (Node × Cursor) := do
  let c ← cursor.current
  return (c.head, ⟨c.parent?⟩)

/-- Number of nodes to come. -/
def Cursor.remaining (cursor : Cursor) : Nat := (cursor.current.map depth).getD 0

theorem depth_parent? {c parent : Chain} (below : c.parent? = some parent) :
    parent.depth < c.depth := by
  obtain ⟨head, _ | ⟨node, rest⟩⟩ := c
  · cases below
  · obtain rfl := Option.some.inj below
    exact Nat.lt_succ_self _

theorem Cursor.remaining_next? {cursor later : Cursor} {node : Node}
    (more : cursor.next? = some (node, later)) : later.remaining < cursor.remaining := by
  obtain ⟨_ | c⟩ := cursor
  · cases more
  · obtain ⟨rfl, rfl⟩ := Prod.mk.inj (Option.some.inj more)
    cases below : c.parent? with
    | none => exact Nat.succ_pos _
    | some parent => exact depth_parent? below

/-- All nodes to come. -/
def Cursor.nodes (cursor : Cursor) : List Node :=
  match _more : cursor.next? with
  | none => []
  | some (node, later) => node :: later.nodes
termination_by cursor.remaining
decreasing_by exact remaining_next? _more

/-- The chain that has no parent: from parent to parent, as long as there is one. -/
def terminal (c : Chain) : Chain :=
  match _below : c.parent? with
  | none => c
  | some parent => parent.terminal
termination_by c.depth
decreasing_by exact depth_parent? _below

end TextProvenance.Chain
