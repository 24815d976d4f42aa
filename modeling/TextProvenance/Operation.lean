import TextProvenance.Location

/-!
# Operations

One event in the history of a text: a source, where taint entered, or a transformation after it.
-/

namespace TextProvenance

/-- One event in the history of a text. -/
structure Operation where
  name : String
  /-- Performed by a built-in function rather than by script code. -/
  native : Bool := false
  location : Option Location := none
  arguments : List String := []
deriving DecidableEq, Inhabited

namespace Operation

/-- The source of taint that is set by hand. -/
def manualSource : Operation := { name := "manual taint source" }

/-- The argument at `index`, if it was recorded. -/
def argument? (o : Operation) (index : Nat) : Option String := o.arguments[index]?

/-- The recorded arguments in parentheses; nothing if there are none. -/
def describeArguments (o : Operation) : String :=
  if o.arguments.isEmpty then "" else "(" ++ String.intercalate ", " o.arguments ++ ")"

/-- One-line description: `name(arguments) @ location`. -/
def describe (o : Operation) : String :=
  let place := match o.location with
    | some l => s!" @ {l.describe}"
    | none => ""
  s!"{o.name}{o.describeArguments}{place}"

end Operation

end TextProvenance
