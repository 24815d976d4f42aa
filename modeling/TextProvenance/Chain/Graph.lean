import Std.Data.HashMap
import TextProvenance.Chain

/-!
# The graph of several chains

Chains share nodes.  A graph lists every node of some chains once, each with the place of its parent
in the list.  A node is known by its serial number.
-/

namespace TextProvenance

/-- The nodes of some chains. -/
structure Graph where
  /-- The operation of every node, and the place of its parent; a source has none. -/
  nodes : List (Operation × Option Nat)
  /-- The place of the head of every chain. -/
  heads : List Nat

namespace Graph

/-- Nodes listed so far. -/
structure Listed where
  /-- The chains that the nodes head, the latest first. -/
  latestFirst : List Chain := []
  /-- The place of every node, by its serial number. -/
  places : Std.HashMap Nat Nat := ∅

/-- Lists the head of a chain, unless it is listed already. -/
def Listed.add (listed : Listed) (c : Chain) : Listed :=
  if listed.places.contains c.serial then listed
  else
    { latestFirst := c :: listed.latestFirst
      places := listed.places.insert c.serial listed.places.size }

/-- The place of the head of a chain. -/
def Listed.place (listed : Listed) (c : Chain) : Nat := listed.places.getD c.serial 0

/-- The graph of chains.  Chain by chain, from the newest node to the source, every node that is not
listed yet is added to the list. -/
def ofChains (chains : List Chain) : Graph :=
  let listed := chains.foldl (fun listed c => c.suffixes.foldl Listed.add listed) {}
  { nodes := listed.latestFirst.reverse.map fun c =>
      (c.operation, c.parent?.map listed.place)
    heads := chains.map listed.place }

end Graph

end TextProvenance
