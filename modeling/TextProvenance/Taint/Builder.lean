import TextProvenance.Taint.Basic

/-!
# Building taint from ranges in order

A builder takes ranges in ascending order.  It leaves out empty ranges, joins a range to the last
one when they touch and share their chain, and refuses a range that starts before the last one
stops.  So what it has taken is always well formed.
-/

namespace TextProvenance

/-- The range that starts with `a` and goes on to the end of `b`, under the chain of `a`. -/
def Range.joined (a b : Range) (touching : a.stop = b.start) : Range where
  start := a.start
  stop := b.stop
  chain := a.chain
  start_le_stop := Nat.le_trans (touching ▸ a.start_le_stop) b.start_le_stop
  stop_le_last := b.stop_le_last

/-- Ranges taken so far, the latest first. -/
structure Builder where
  latestFirst : List Range

namespace Builder

/-- A builder that has taken no range. -/
def empty : Builder := ⟨[]⟩

/-- A builder that goes on after the ranges of `t`. -/
def ofTaint (t : Taint) : Builder := ⟨t.ranges.reverse⟩

/-- Where the last range taken stops; 0 if none was. -/
def stop (b : Builder) : Nat := (b.latestFirst.head?.map Range.stop).getD 0

/-- Takes a range. -/
def push (b : Builder) (r : Range) : Except Fault Builder :=
  if r.IsEmpty then .ok b
  else
    match b.latestFirst with
    | [] => .ok ⟨[r]⟩
    | last :: earlier =>
      if r.start < last.stop then .error (.appendedBeforeEnd r.start r.stop last.stop)
      else if joins : last.stop = r.start ∧ last.chain = r.chain then
        .ok ⟨last.joined r joins.1 :: earlier⟩
      else .ok ⟨r :: last :: earlier⟩

/-- Takes ranges one after the other. -/
def pushAll (b : Builder) (ranges : List Range) : Except Fault Builder := ranges.foldlM push b

/-- Takes a range.  Where it is joined to the last one, that one is resized in place, with the order
of its bounds checked. -/
def pushByResizing (b : Builder) (r : Range) : Except Fault Builder :=
  if r.IsEmpty then .ok b
  else
    match b.latestFirst with
    | [] => .ok ⟨[r]⟩
    | last :: earlier =>
      if r.start < last.stop then .error (.appendedBeforeEnd r.start r.stop last.stop)
      else if last.stop = r.start ∧ last.chain = r.chain then do
        let longer ← last.withBounds last.start r.stop
        return ⟨longer :: earlier⟩
      else .ok ⟨r :: last :: earlier⟩

/-- Takes ranges one after the other, each by resizing where it is joined. -/
def pushAllByResizing (b : Builder) (ranges : List Range) : Except Fault Builder :=
  ranges.foldlM pushByResizing b

/-- The taint of all ranges taken. -/
def finish (b : Builder) : Taint := .ofList b.latestFirst.reverse

end Builder

namespace Taint

/-- The taint of ranges given in order. -/
def ofRanges (ranges : List Range) : Except Fault Taint :=
  Builder.finish <$> Builder.empty.pushAll ranges

/-- Room is made for `count` ranges and `more` before a list is built; the number of all of them is
worked out in a machine word. -/
def checkRoom (count more : Nat) : Except Fault Unit := do
  let _ ← Offset.sum count more

/-- The taint of one range. -/
def ofRange (r : Range) : Except Fault Taint := ofRanges [r]

/-- The taint with one more range at its end. -/
def append (t : Taint) (r : Range) : Except Fault Taint :=
  if r.IsEmpty then .ok t else Builder.finish <$> (Builder.ofTaint t).push r

end Taint

end TextProvenance
