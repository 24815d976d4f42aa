import TextProvenance.Text.Basic

/-!
# Tainted arguments

The arguments of a call are marked with the function they were passed to.
-/

namespace TextProvenance.Text

/-- Marks the tainted ones of some arguments, the first of which has the index `index`. -/
def markFrom (function sourceInfo : String) (index : Nat) (recorder : Recorder) :
    List Text → List Text × Recorder
  | [] => ([], recorder)
  | argument :: rest =>
    if argument.isTainted then
      let (operation, recorder) :=
        recorder.operation function false [function, sourceInfo, toString index]
      let (taint, recorder) := recorder.extend argument.taint operation
      let (arguments, recorder) := markFrom function sourceInfo (index + 1) recorder rest
      (argument.withTaint taint :: arguments, recorder)
    else
      let (arguments, recorder) := markFrom function sourceInfo (index + 1) recorder rest
      (argument :: arguments, recorder)

/-- Records on every tainted argument that it was passed to a function; `sourceInfo` tells where
that is defined. -/
def markArguments (function sourceInfo : String) (arguments : List Text) (recorder : Recorder) :
    List Text × Recorder :=
  if recorder.config.enabled then markFrom function sourceInfo 0 recorder arguments
  else (arguments, recorder)

end TextProvenance.Text
