import TextProvenance.Taint.Builder

/-!
# Base conversion

Taint follows a text into units of another width, for instance from bytes to base-64 digits.  Every
range grows to whole units: its start is rounded down and its stop is rounded up.  A unit that two
ranges share goes to the first of them.

`Taint.convertBaseInWords` is the same with all arithmetic in machine words, where a product or a
sum may be too large.
-/

namespace TextProvenance.Taint

/-- The direction of a base conversion. -/
inductive BaseDirection
  /-- From units to encoded units. -/
  | encode
  /-- From encoded units back to units. -/
  | decode
deriving DecidableEq

namespace BaseDirection

variable (unitWidth encodedWidth : Nat)

/-- The width of the units that positions count before the conversion. -/
def widthBefore : BaseDirection → Nat
  | encode => unitWidth
  | decode => encodedWidth

/-- The width of the units that positions count after the conversion. -/
def widthAfter : BaseDirection → Nat
  | encode => encodedWidth
  | decode => unitWidth

end BaseDirection

/-- A quotient rounded up. -/
def ceilDiv (a b : Nat) : Nat := (a + b - 1) / b

/-- The ranges with positions multiplied by `n / m`, from position `done` on. -/
def scaled (n m : Nat) (done : Nat) : List Range → List Range
  | [] => []
  | r :: rest =>
    match Range.span (max (r.start * n / m) done) (ceilDiv (r.stop * n) m) r.chain with
    | [] => scaled n m done rest
    | unit :: _ => unit :: scaled n m unit.stop rest

/-- The taint after a conversion between units of `unitWidth` and `encodedWidth` bits. -/
def convertBase (t : Taint) (direction : BaseDirection) (unitWidth encodedWidth : Nat) :
    Except Fault Taint :=
  if unitWidth = 0 ∨ encodedWidth = 0 then .error .zeroWidth
  else
    match direction with
    | .encode => ofRanges (scaled unitWidth encodedWidth 0 t.ranges)
    | .decode => ofRanges (scaled encodedWidth unitWidth 0 t.ranges)

/-! ## In machine words -/

/-- A quotient rounded up, in a machine word. -/
def ceilDivInWord (a b : Nat) : Except Fault Nat :=
  if a % b = 0 then .ok (a / b) else Offset.sum (a / b) 1

/-- The ranges with positions multiplied by `n / m`, in machine words. -/
def scaledInWords (n m done : Nat) : List Range → Except Fault (List Range)
  | [] => .ok []
  | r :: rest => do
    let start ← Offset.product r.start n
    let stop ← Offset.product r.stop n
    let stop ← ceilDivInWord stop m
    match Range.span (max (start / m) done) stop r.chain with
    | [] => scaledInWords n m done rest
    | unit :: _ => (unit :: ·) <$> scaledInWords n m unit.stop rest

/-- The taint after a conversion that is worked out in machine words. -/
def convertBaseInWords (t : Taint) (direction : BaseDirection) (unitWidth encodedWidth : Nat) :
    Except Fault Taint :=
  if unitWidth = 0 ∨ encodedWidth = 0 then .error .zeroWidth
  else do
    let n := direction.widthBefore unitWidth encodedWidth
    let m := direction.widthAfter unitWidth encodedWidth
    ofRanges (← scaledInWords n m 0 t.ranges)

end TextProvenance.Taint
