import TextProvenance.Session.Basic
import TextProvenance.Session.Command
import TextProvenance.Taint.Change
import TextProvenance.Text.Arguments
import TextProvenance.Text.Case
import TextProvenance.Text.Edit
import TextProvenance.Text.Split

/-!
# Running commands

What a command does to a session.  Everything that a command refers to is evaluated before anything
is changed, from left to right; a value may be an operand of its own change.
-/

namespace TextProvenance.Session

open SessionM

/-- The operation that a term stands for. -/
def OperationTerm.eval : OperationTerm → SessionM Operation
  | given operation => return operation
  | made name native arguments => recording (·.operation name native arguments)

/-- A new chain that starts with an operation. -/
def newChain (source : OperationTerm) : SessionM Chain := do
  let operation ← source.eval
  recording (·.newChain operation)

/-- The range that a term stands for. -/
def RangeTerm.eval : RangeTerm → SessionM Range
  | named name => rangeNamed name
  | along start stop chain => do ofFault (Range.ofBounds start stop (← chainNamed chain))
  | fresh start stop source => do ofFault (Range.ofBounds start stop (← newChain source))

/-- The taint of entries, each under a new chain. -/
def taintOfEntries (entries : List Listing.Entry) : SessionM Taint :=
  recordingOrFault fun recorder => do
    return (← Listing.taint entries recorder.nextSerial, recorder.advance entries.length)

/-- The value that a maker makes. -/
def Maker.eval : Maker → SessionM Value
  | chain source => return .chain (← newChain source)
  | chainOf name => return .chain (← chainNamed name)
  | extendedChain name operation => do
    let c ← chainNamed name
    let operation ← operation.eval
    return .chain (← recording (·.extendChain c operation))
  | chainOfRange term => return .chain (← term.eval).chain
  | range term => return .range (← term.eval)
  | shiftedRange term amount => do return .range (← ofFault ((← term.eval).shifted amount))
  | rangeWithBounds term start stop => do
    return .range (← ofFault ((← term.eval).withBounds start stop))
  | untainted => return .taint .untainted
  | taintOf name => return .taint (← taintNamed name)
  | taintOfRange term => do return .taint (← ofFault (Taint.ofRange (← term.eval)))
  | taintOfRanges terms => do
    return .taint (← ofFault (Taint.ofRanges (← terms.mapM RangeTerm.eval)))
  | taintOfSource start stop source => do
    let window ← RangeTerm.eval (.fresh start stop source)
    return .taint (← ofFault (Taint.ofRange window))
  | taintOfChain name length => do
    let whole ← RangeTerm.eval (.along 0 length name)
    return .taint (← ofFault (Taint.ofRange whole))
  | listing content =>
    match Listing.read content with
    | .ok entries => return .taint (← taintOfEntries entries)
    | .error reason => throw (.rejected reason)
  | listingOrUntainted content => return .taint (← taintOfEntries (Listing.readLenient content))
  | subtaint name start stop => do
    return .taint (← ofFault ((← taintNamed name).subtaint start stop))
  | concatTaint left leftLength right => do
    let left ← taintNamed left
    let right ← taintNamed right
    return .taint (← ofFault (Taint.concatOf left leftLength right))
  | extendedTaint name operation => do
    let t ← taintNamed name
    let operation ← operation.eval
    return .taint (← recordingOrFault fun recorder => do
      return (← t.extended operation recorder.nextSerial, recorder.advance t.rangeCount))
  | text value => return .text { value }
  | textOf name => return .text (← textNamed name)
  | taintedText value source => do
    let chain ← newChain source
    return .text (← ofFault (Text.ofChain value chain))
  | textWithTaint value name => do
    return .text (← ofFault (Text.ofTaint value (← taintNamed name)))
  | substring name start stop => do
    let s ← textNamed name
    return .text (← recordingOrFault (s.substring start stop))
  | concatText left right => do
    let left ← textNamed left
    let right ← textNamed right
    return .text (← ofFault (left.concat right))
  | lower name => do return .text (← recordingOrFault (← textNamed name).lower)
  | upper name => do return .text (← recordingOrFault (← textNamed name).upper)

/-- The change with its operands. -/
def TaintChange.eval : TaintChange → SessionM Taint.Change
  | append range => return .append (← range.eval)
  | addRange range => return .addRange (← range.eval)
  | addTaint other => return .addTaint (← taintNamed other)
  | clearBetween start stop => return .clearBetween start stop
  | clearAt index => return .clearAt index
  | clear => return .clear
  | concat other offset => return .concat (← taintNamed other) offset
  | shift index amount => return .shift index amount
  | insert index other => return .insert index (← taintNamed other)
  | set index chain => return .set index (← chainNamed chain)
  | overlay start stop operation => return .overlay start stop (← operation.eval)
  | extend operation => return .extend (← operation.eval)
  | convertBase direction unitWidth encodedWidth =>
    return .convertBase direction unitWidth encodedWidth

/-- Changes the taint of a name; serial numbers are used up also by a change that fails. -/
def applyTaintChange (name : String) (change : Taint.Change) : SessionM Unit := do
  let t ← taintNamed name
  let nextSerial ← recording fun recorder =>
    (recorder.nextSerial, recorder.advance (change.serials t))
  editTaint name (change.edit nextSerial)

/-- Extends the chain of a name. -/
def extendNamed (name : String) (operation : Operation) : SessionM Unit := do
  let c ← chainNamed name
  assign name (.chain (← recording (·.extendChain c operation)))

/-- Changes the value of a name. -/
def Change.apply (name : String) : Change → SessionM Unit
  | extendChain operation count => do
    let operation ← operation.eval
    times count (extendNamed name operation)
  | resizeRange start stop => do
    assign name (.range (← ofFault ((← rangeNamed name).withBounds start stop)))
  | extendRange operation => do
    let operation ← operation.eval
    let r ← rangeNamed name
    assign name (.range (r.withChain (← recording (·.extendChain r.chain operation))))
  | taint term count => do
    let change ← term.eval
    times count (applyTaintChange name change)
  | markSource start stop source => do
    let chain ← newChain source
    editText name (Edit.step (·.markSource start stop chain))
  | untaint => editText name (Edit.step fun s => .ok s.untaint)
  | push other => do editText name (Text.push (← textNamed other))
  | insert index other => do editText name (Text.insert index (← textNamed other))
  | remove start stop => editText name (Text.remove start stop)
  | replace start stop other => do editRecorded name (Text.replace start stop (← textNamed other))
  | copyTaint source start offset stop => do
    editText name (Text.copyTaint (← textNamed source) start offset stop)

/-- Names the parts of a text, the first of which has the index `index`. -/
def nameParts (target : String) (index : Nat) : List Text → SessionM Unit
  | [] => return ()
  | part :: parts => do
    assign s!"{target}.{index}" (.text part)
    nameParts target (index + 1) parts

/-- Runs a command.  The result holds the values that it made or changed, in order. -/
def Command.run : Command → SessionM (List Value)
  | make name maker => do
    let value ← maker.eval
    assign name value
    return [value]
  | change name how => do
    how.apply name
    return [← named name]
  | look ranges => return (← ranges.mapM RangeTerm.eval).map .range
  | split name separator target => do
    let s ← textNamed name
    let inFront recorder := (s.splitInFront separator recorder).2
    let parts ← leaving inFront (recordingOrFault (s.split separator))
    nameParts target 0 parts
    return parts.map .text
  | markArguments texts function sourceInfo => do
    let arguments ← texts.mapM textNamed
    let marked ← recording (Text.markArguments function sourceInfo arguments)
    (texts.zip marked).forM fun (name, s) => assign name (.text s)
    return marked.map .text
  | drop name => do
    modify (·.unbind name)
    return []

/-- The session after a command, whether it fails or not. -/
def step (s : Session) (command : Command) : Session := (command.run.run s).run.2

/-- The session after commands, one after the other; one that fails does not stop the others. -/
def after (s : Session) (commands : List Command) : Session := commands.foldl step s

end TextProvenance.Session
