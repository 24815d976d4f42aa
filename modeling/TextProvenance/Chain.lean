import TextProvenance.Operation

/-!
# Provenance chains

A chain is the history of a stretch of text: nodes from the newest operation back to the source.
Each node carries the serial number under which it was recorded, so nodes that were recorded apart
are different values even where their operations agree: equality of chains is identity.  Chains are
never changed; extending one shares all of it with the longer chain.

Serial numbers are drawn from a supply that the caller keeps.  The functions here take the number
to use.
-/

namespace TextProvenance

/-- One recorded operation. -/
structure Node where
  /-- The number under which the node was recorded. -/
  serial : Nat
  operation : Operation
deriving DecidableEq, Inhabited

/-- A history of operations, newest first; the last node is the source. -/
structure Chain where
  head : Node
  older : List Node
deriving Inhabited

namespace Chain

/-- Chains are equal if all their nodes are.  The nodes are looked at only where the chains are not
one object in memory, so a shared chain costs no more for being long. -/
instance : DecidableEq Chain := fun a b => withPtrEqDecEq a b fun _ =>
  decidable_of_iff (a.head = b.head ∧ a.older = b.older) (by cases a; cases b; simp)

/-- A new chain that starts at a source. -/
def ofSource (operation : Operation) (serial : Nat) : Chain := ⟨⟨serial, operation⟩, []⟩

/-- All nodes, newest first. -/
def nodes (c : Chain) : List Node := c.head :: c.older

/-- The chain with a newer operation on top. -/
def extend (c : Chain) (operation : Operation) (serial : Nat) : Chain :=
  ⟨⟨serial, operation⟩, c.nodes⟩

/-- The chain below the head; a source has none. -/
def parent? (c : Chain) : Option Chain :=
  match c.older with
  | [] => none
  | node :: rest => some ⟨node, rest⟩

/-- The number that tells the head from every other node. -/
def serial (c : Chain) : Nat := c.head.serial

/-- The newest operation. -/
def operation (c : Chain) : Operation := c.head.operation

/-- All operations, newest first. -/
def operations (c : Chain) : List Operation := c.nodes.map Node.operation

/-- The operation where the taint entered. -/
def source (c : Chain) : Operation := (c.nodes.getLast (List.cons_ne_nil _ _)).operation

/-- Number of nodes. -/
def depth (c : Chain) : Nat := c.nodes.length

/-- The chain of every node, from the newest down to the source. -/
def suffixes (c : Chain) : List Chain := go c.head c.older
where
  go (head : Node) : List Node → List Chain
    | [] => [⟨head, []⟩]
    | next :: rest => ⟨head, next :: rest⟩ :: go next rest

end Chain

end TextProvenance
