import TextProvenance.Quoted
import TextProvenance.Range

/-!
# Detailed descriptions

Chains and ranges with the names of all operations, newest first, for diagnosis.
-/

namespace TextProvenance

/-- The quoted names of all operations of a chain, as a list. -/
def Chain.inspect (c : Chain) : String :=
  "[" ++ String.intercalate ", " (c.operations.map fun o => Quoted.text o.name) ++ "]"

/-- The bounds of a range and the names of all operations of its chain. -/
def Range.inspect (r : Range) : String := s!"[{r.start}, {r.stop}) {r.chain.inspect}"

end TextProvenance
