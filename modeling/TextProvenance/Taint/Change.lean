import TextProvenance.Taint.BaseConversion
import TextProvenance.Taint.Overwrite
import TextProvenance.Taint.Record

/-!
# Changes of taint

Every way to change taint in place, as data.
-/

namespace TextProvenance.Taint

/-- A change of taint in place, with its arguments. -/
inductive Change
  | append (range : Range)
  | addRange (range : Range)
  | addTaint (other : Taint)
  | clearBetween (start stop : Nat)
  | clearAt (index : Nat)
  | clear
  | concat (other : Taint) (offset : Nat)
  | shift (index : Nat) (amount : Int)
  | insert (index : Nat) (other : Taint)
  | set (index : Nat) (chain : Chain)
  | overlay (start stop : Nat) (operation : Operation)
  | extend (operation : Operation)
  | convertBase (direction : BaseDirection) (unitWidth encodedWidth : Nat)

namespace Change

/-- How many serial numbers a change of `t` uses at most. -/
def serials (t : Taint) : Change → Nat
  | overlay .. => t.rangeCount + 1
  | extend _ => t.rangeCount
  | _ => 0

/-- The change as an edit; new nodes are numbered from `nextSerial`. -/
def edit (nextSerial : Nat) : Change → Edit Taint
  | append range => Edit.step (·.append range)
  | addRange range => Edit.step (·.addRange range)
  | addTaint other => Taint.addTaint other
  | clearBetween start stop => Edit.step (·.clearBetween start stop)
  | clearAt index => Edit.step (·.clearAt index)
  | clear => Edit.step fun _ => .ok untainted
  | concat other offset => Taint.concat other offset
  | shift index amount => Edit.step (·.shift index amount)
  | insert index other => Edit.step (·.insert index other)
  | set index chain => Taint.set index chain
  | overlay start stop operation => Edit.step (·.overlay start stop operation nextSerial)
  | extend operation => Edit.step fun t => .ok (t.extend operation nextSerial)
  | convertBase direction unitWidth encodedWidth =>
    Edit.step (·.convertBase direction unitWidth encodedWidth)

/-- The change as an edit in machine words, where every bound, sum and product is checked. -/
def editInWords (nextSerial : Nat) : Change → Edit Taint
  | append range => Edit.step (·.append range)
  | addRange range => Edit.step (·.addRangeInWords range)
  | addTaint other => addTaintInWords other
  | clearBetween start stop => Edit.step (·.clearBetweenInWords start stop)
  | clearAt index => Edit.step (·.clearAtInWords index)
  | clear => Edit.step fun _ => .ok untainted
  | concat other offset => Taint.concat other offset
  | shift index amount => Edit.step (·.shiftInWords index amount)
  | insert index other => Edit.step (·.insertInWords index other)
  | set index chain => setInWords index chain
  | overlay start stop operation => Edit.step (·.overlayInWords start stop operation nextSerial)
  | extend operation => Edit.step fun t => .ok (t.extend operation nextSerial)
  | convertBase direction unitWidth encodedWidth =>
    Edit.step (·.convertBaseInWords direction unitWidth encodedWidth)

end Change

end TextProvenance.Taint
