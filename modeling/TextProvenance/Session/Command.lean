import TextProvenance.Taint.BaseConversion

/-!
# Commands

What can be asked of a session.  Commands refer to values by name; operations and ranges may also be
written out.
-/

namespace TextProvenance.Session

/-- An operation, as it is written in a command. -/
inductive OperationTerm
  | given (operation : Operation)
  /-- Made by the recorder. -/
  | made (name : String) (native : Bool) (arguments : List String)

/-- A range, as it is written in a command. -/
inductive RangeTerm
  | named (name : String)
  /-- Under the chain of a name. -/
  | along (start stop : Nat) (chain : String)
  /-- Under a new chain. -/
  | fresh (start stop : Nat) (source : OperationTerm)

/-- How a value is made. -/
inductive Maker
  | chain (source : OperationTerm)
  | chainOf (chain : String)
  | extendedChain (chain : String) (operation : OperationTerm)
  | chainOfRange (range : RangeTerm)
  | range (range : RangeTerm)
  | shiftedRange (range : RangeTerm) (amount : Int)
  | rangeWithBounds (range : RangeTerm) (start stop : Nat)
  | untainted
  | taintOf (taint : String)
  | taintOfRange (range : RangeTerm)
  | taintOfRanges (ranges : List RangeTerm)
  | taintOfSource (start stop : Nat) (source : OperationTerm)
  | taintOfChain (chain : String) (length : Nat)
  | listing (text : String)
  | listingOrUntainted (text : String)
  | subtaint (taint : String) (start stop : Nat)
  | concatTaint (left : String) (leftLength : Nat) (right : String)
  | extendedTaint (taint : String) (operation : OperationTerm)
  | text (value : String)
  | textOf (text : String)
  | taintedText (value : String) (source : OperationTerm)
  | textWithTaint (value : String) (taint : String)
  | substring (text : String) (start stop : Nat)
  | concatText (left right : String)
  | lower (text : String)
  | upper (text : String)

/-- How the taint of a name is changed. -/
inductive TaintChange
  | append (range : RangeTerm)
  | addRange (range : RangeTerm)
  | addTaint (other : String)
  | clearBetween (start stop : Nat)
  | clearAt (index : Nat)
  | clear
  | concat (other : String) (offset : Nat)
  | shift (index : Nat) (amount : Int)
  | insert (index : Nat) (other : String)
  | set (index : Nat) (chain : String)
  | overlay (start stop : Nat) (operation : OperationTerm)
  | extend (operation : OperationTerm)
  | convertBase (direction : Taint.BaseDirection) (unitWidth encodedWidth : Nat)

/-- How the value of a name is changed. -/
inductive Change
  | extendChain (operation : OperationTerm) (count : Nat)
  | resizeRange (start stop : Nat)
  | extendRange (operation : OperationTerm)
  /-- Changes taint several times in the same way. -/
  | taint (change : TaintChange) (count : Nat)
  | markSource (start stop : Nat) (source : OperationTerm)
  | untaint
  | push (other : String)
  | insert (index : Nat) (other : String)
  | remove (start stop : Nat)
  | replace (start stop : Nat) (other : String)
  | copyTaint (source : String) (start offset : Nat) (stop : Option Nat)

/-- What can be asked of a session. -/
inductive Command
  /-- Makes a value and gives it a name. -/
  | make (name : String) (maker : Maker)
  /-- Changes the value of a name. -/
  | change (name : String) (change : Change)
  /-- Evaluates ranges without naming them. -/
  | look (ranges : List RangeTerm)
  /-- Splits a text; part `i` gets the name `target`, a point, and `i`. -/
  | split (text separator target : String)
  /-- Marks texts as the arguments of a call. -/
  | markArguments (texts : List String) (function sourceInfo : String)
  /-- Forgets a name. -/
  | drop (name : String)

end TextProvenance.Session
