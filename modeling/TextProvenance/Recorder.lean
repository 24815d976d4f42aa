import TextProvenance.Config
import TextProvenance.Taint.Record
import TextProvenance.Utf8

/-!
# Recorders

A recorder makes operations and chains.  It knows the settings, asks the embedding for the location
of a call, and keeps the supply of serial numbers.

The embedding answers the `n`-th question, counted from 0, with `callSite n`; `asked` counts the
questions, so that how often it was asked is part of the state.
-/

namespace TextProvenance

/-- Makes operations and chains. -/
structure Recorder where
  config : Config := {}
  /-- The answers of the embedding to questions for the current location. -/
  callSite : Nat → Option Location := fun _ => none
  /-- Number of questions asked. -/
  asked : Nat := 0
  /-- The next serial number. -/
  nextSerial : Nat := 0

namespace Recorder

/-- The first `limit` characters of an argument. -/
def truncate (limit : Nat) (argument : String) : String :=
  String.ofList (argument.toList.take limit)

/-- An argument without the character number `limit` and what is behind it, found by the offset of
that character. -/
def truncateAtOffset (limit : Nat) (argument : String) : Except Fault String :=
  match (Utf8.placed 0 argument.toList)[limit]? with
  | none => .ok argument
  | some (_, offset, _) =>
    match Utf8.truncate? offset argument.toList with
    | some chars => .ok (String.ofList chars)
    | none => .error .offCharacters

/-- An operation at the current location, with its arguments cut to the longest length. -/
def operation (recorder : Recorder) (name : String) (native : Bool) (arguments : List String) :
    Operation × Recorder :=
  let arguments := arguments.map (truncate recorder.config.maxArgumentLength.toNat)
  if recorder.config.recordLocations then
    ({ name, native, arguments, location := recorder.callSite recorder.asked },
      { recorder with asked := recorder.asked + 1 })
  else ({ name, native, arguments }, recorder)

/-- The recorder after serial numbers have been used. -/
def advance (recorder : Recorder) (used : Nat) : Recorder :=
  { recorder with nextSerial := recorder.nextSerial + used }

/-- A new chain that starts with an operation. -/
def newChain (recorder : Recorder) (operation : Operation) : Chain × Recorder :=
  (.ofSource operation recorder.nextSerial, recorder.advance 1)

/-- A chain extended by an operation. -/
def extendChain (recorder : Recorder) (c : Chain) (operation : Operation) : Chain × Recorder :=
  (c.extend operation recorder.nextSerial, recorder.advance 1)

/-- Taint with every chain extended by an operation. -/
def extend (recorder : Recorder) (t : Taint) (operation : Operation) : Taint × Recorder :=
  (t.extend operation recorder.nextSerial, recorder.advance t.rangeCount)

/-- Records a built-in operation on taint.  Nothing is recorded, and nothing asked, if recording is
off or there is no taint. -/
def record (recorder : Recorder) (t : Taint) (name : String) (arguments : List String) :
    Taint × Recorder :=
  if recorder.config.enabled && t.isTainted then
    let (operation, recorder) := recorder.operation name true arguments
    recorder.extend t operation
  else (t, recorder)

end Recorder

end TextProvenance
