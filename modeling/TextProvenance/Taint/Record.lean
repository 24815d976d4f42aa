import TextProvenance.Taint.Window

/-!
# Recording operations on taint

Extending chains with an operation.  Ranges that shared a chain share its extension, which is
numbered by the place where the chain is first listed.  Every function takes the first serial
number of a supply and says how many it uses.

`Taint.extendWithMemo` and `Taint.extendedWithMemo` are the same as `Taint.extend` and
`Taint.extended` in one pass, with the extensions made so far in a memo.

`Taint.extendedInWords` and `Taint.overlayInWords` are the same as `Taint.extended` and
`Taint.overlay` with the bounds of every range checked.
-/

namespace TextProvenance.Taint

/-- The chains of the ranges, in order. -/
def chains (t : Taint) : List Chain := t.ranges.map Range.chain

/-- Every chain of a list with its extension by an operation, numbered by its place. -/
def extensions (chains : List Chain) (operation : Operation) (nextSerial : Nat) :
    List (Chain × Chain) :=
  chains.mapIdx fun place c => (c, c.extend operation (nextSerial + place))

/-- The extension of a chain: the first one that is listed for it.  A chain that is not listed stays
as it is. -/
def follow (extensions : List (Chain × Chain)) (c : Chain) : Chain :=
  (extensions.lookup c).getD c

theorem lookup_mapIdx (f : Nat → Chain → Chain) {c : Chain} {chains : List Chain}
    (listed : c ∈ chains) :
    (chains.mapIdx fun place c => (c, f place c)).lookup c = some (f (chains.idxOf c) c) := by
  induction chains generalizing f with
  | nil => cases listed
  | cons d rest ih =>
    by_cases same : c = d
    · subst same
      simp
    · have inRest : c ∈ rest := by simpa [same] using listed
      have differs : (c == d) = false := beq_false_of_ne same
      have differs' : (d == c) = false := beq_false_of_ne (Ne.symm same)
      simp only [List.mapIdx_cons, List.lookup_cons, List.idxOf_cons, differs, differs']
      exact ih (fun place => f (place + 1)) inRest

/-- A listed chain is extended by the operation, under the number of its first place. -/
theorem follow_extensions {chains : List Chain} {c : Chain} (operation : Operation)
    (nextSerial : Nat) (listed : c ∈ chains) :
    follow (extensions chains operation nextSerial) c =
      c.extend operation (nextSerial + chains.idxOf c) := by
  rw [follow, extensions, lookup_mapIdx _ listed, Option.getD_some]

/-- Extends every chain with an operation, in place.  Uses `t.rangeCount` serial numbers. -/
def extend (t : Taint) (operation : Operation) (nextSerial : Nat) : Taint :=
  let extensions := extensions t.chains operation nextSerial
  ⟨t.ranges?.map fun ranges => ranges.map fun r => r.withChain (follow extensions r.chain)⟩

/-- A copy with every chain extended, built anew.  Uses `t.rangeCount` serial numbers. -/
def extended (t : Taint) (operation : Operation) (nextSerial : Nat) : Except Fault Taint :=
  ofRanges (t.extend operation nextSerial).ranges

/-- The ranges of an overlay of `[start, stop)`, of which everything before `cursor` is done: parts
outside the window as they are, parts inside with their chains extended, and the rest of the window
under the chain `gap`. -/
def overlaid (start stop : Nat) (gap : Chain) (extension : Chain → Chain) (cursor : Nat) :
    List Range → List Range
  | [] => Range.span cursor stop gap
  | r :: rest =>
    r.before start ++ Range.span cursor (min r.start stop) gap ++
      (r.part start stop).map (fun inside => inside.withChain (extension inside.chain)) ++
      r.after stop ++
      overlaid start stop gap extension (max cursor (min r.stop stop)) rest

/-- Records that an operation touched `[start, stop)`: tainted positions get their chain extended,
and the others get a new chain that starts with the operation.  Uses `t.rangeCount + 1` serial
numbers. -/
def overlay (t : Taint) (start stop : Nat) (operation : Operation) (nextSerial : Nat) :
    Except Fault Taint := do
  checkWindow .overlaying start stop
  if start = stop then return t
  else
    let gap := Chain.ofSource operation nextSerial
    let extensions := extensions t.chains operation (nextSerial + 1)
    ofRanges (overlaid start stop gap (follow extensions) start t.ranges)

/-! ## With a memo -/

/-- The extensions made so far, each under the number of the head that it stands on. -/
structure Memo where
  extensions : List (Nat × Chain) := []

/-- The extension of a chain, and the memo after it: the one that the memo has for the head of the
chain, or a new one under the number `number`, which is put into the memo. -/
def Memo.extend (memo : Memo) (operation : Operation) (number : Nat) (c : Chain) : Chain × Memo :=
  match memo.extensions.lookup c.serial with
  | some extension => (extension, memo)
  | none =>
    let extension := c.extend operation number
    (extension, { extensions := (c.serial, extension) :: memo.extensions })

/-- The ranges with their chains extended, one after the other.  A number is set aside for each of
them. -/
def memoized (operation : Operation) (memo : Memo) (number : Nat) : List Range → List Range
  | [] => []
  | r :: rest =>
    let (extension, memo) := memo.extend operation number r.chain
    r.withChain extension :: memoized operation memo (number + 1) rest

/-- Extends every chain with an operation, in place and in one pass. -/
def extendWithMemo (t : Taint) (operation : Operation) (nextSerial : Nat) : Taint :=
  ⟨t.ranges?.map (memoized operation {} nextSerial)⟩

/-- A copy with every chain extended, built anew in one pass, with the bounds of every range
checked. -/
def extendedWithMemo (t : Taint) (operation : Operation) (nextSerial : Nat) :
    Except Fault Taint := do
  let ranges ← (memoized operation {} nextSerial t.ranges).mapM fun r => r.withBounds r.start r.stop
  ofRanges ranges

/-! ## In machine words -/

/-- A copy with every chain extended, with the bounds of every range checked. -/
def extendedInWords (t : Taint) (operation : Operation) (nextSerial : Nat) :
    Except Fault Taint := do
  let extensions := extensions t.chains operation nextSerial
  let ranges ← t.ranges.mapM fun r => Range.ofBounds r.start r.stop (follow extensions r.chain)
  ofRanges ranges

/-- The ranges of an overlay of `[start, stop)`, of which everything before `cursor` is done, with
the bounds of every range checked. -/
def overlaidInWords (start stop : Nat) (gap : Chain) (extension : Chain → Chain) (cursor : Nat) :
    List Range → Except Fault (List Range)
  | [] => Range.spanInWords cursor stop gap
  | r :: rest =>
    if r.stop ≤ start then
      (r :: ·) <$> overlaidInWords start stop gap extension cursor rest
    else if stop ≤ r.start then do
      let between ← Range.spanInWords cursor stop gap
      let later ← overlaidInWords start stop gap extension (max cursor stop) rest
      return between ++ r :: later
    else do
      let inFront ← Range.spanInWords r.start start r.chain
      let between ← Range.spanInWords cursor (max r.start start) gap
      let covered ← Range.ofBounds (max r.start start) (min r.stop stop) (extension r.chain)
      let behind ← Range.spanInWords stop r.stop r.chain
      let later ← overlaidInWords start stop gap extension (min r.stop stop) rest
      return inFront ++ between ++ covered :: behind ++ later

/-- Records that an operation touched `[start, stop)`, in machine words. -/
def overlayInWords (t : Taint) (start stop : Nat) (operation : Operation) (nextSerial : Nat) :
    Except Fault Taint := do
  checkWindow .overlaying start stop
  if start = stop then return t
  else
    checkRoom t.rangeCount 2
    let gap := Chain.ofSource operation nextSerial
    let extensions := extensions t.chains operation (nextSerial + 1)
    let ranges ← overlaidInWords start stop gap (follow extensions) start t.ranges
    ofRanges ranges

end TextProvenance.Taint
