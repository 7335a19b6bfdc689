import TestProgram.Number.Layout

/-!
# Misuse of statements

What can be wrong with a statement that is well formed as text: arguments
that are missing or of the wrong kind, blocks where there are none or none
where there are some, and unknown names.
-/

namespace TestProgram

/-- What a statement wants at a place among its arguments. -/
inductive Wanted where
  | timesetName
  | pinName
  | labelName
  | subroutineName
  | loopLabel
  | threadName
  | enableWord
  | clockAction
  | inhibited
  | count
  | time
  deriving DecidableEq, Repr

namespace Wanted

/-- What is asked for where there is no argument. -/
def missing : Wanted → String
  | timesetName => "a timeset name"
  | pinName => "a pin name"
  | labelName => "a label name"
  | subroutineName => "a subroutine name"
  | loopLabel => "a loop label"
  | threadName => "a thread name"
  | enableWord => "a flow enable word"
  | clockAction => "enable, start, stop, pause or resume"
  | inhibited => "'vectors' or 'comments'"
  | count => "a count"
  | time => "a time"

/-- What is asked for where there is an argument of another kind. -/
def instead : Wanted → String
  | count => "a number"
  | time => "a time such as 10ms"
  | w => w.missing

end Wanted

/-- The bodies that statements stand in. -/
inductive BodyKind where
  | pattern | flow | thread
  deriving DecidableEq, Repr

def BodyKind.text : BodyKind → String
  | pattern => "pattern"
  | flow => "flow"
  | thread => "thread"

inductive Misuse where
  | missing (statement : String) (wanted : Wanted)
  | unfit (statement : String) (wanted : Wanted) (found : String)
  | notWhole (statement : String) (value : Float)
  /-- A count above the whole numbers that have no gaps. -/
  | tooLarge (statement : String) (value : Float)
  | notBit (statement : String) (value : Nat)
  | noPins (statement : String)
  | needsBlock (statement : String)
  | takesNoBlock (statement : String)
  | unknownStatement (body : BodyKind) (name : String)
  /-- An edge of a wave that is neither `drive` nor `compare`. -/
  | unknownEdge
  | needsFormula (edge : String)
  | cycleArgument (found : String)
  | storeArgument
  | inhibitArgument
  | notFrequency (found : String)
  | needsFrequency
  | unknownClockAction (name : String)
  | notThread (found : String)
  | secondParameter (statement : String)
  | unnamedAttribute
  deriving DecidableEq

def Misuse.message : Misuse → String
  | missing statement wanted => s!"'{statement}' expects {wanted.missing}"
  | unfit statement wanted found => s!"'{statement}' expects {wanted.instead}, found '{found}'"
  | notWhole statement value =>
    "'" ++ statement ++ "' expects a whole number, found " ++ Layout.plain.text value
  | tooLarge statement value =>
    "'" ++ statement ++ "' count " ++ Layout.plain.text value ++ " is too large to represent exactly"
  | notBit statement value => s!"'{statement}' expects 0 or 1, found {value}"
  | noPins statement => s!"'{statement}' expects at least one pin"
  | needsBlock statement => s!"'{statement}' needs a \x7b ... \x7d block"
  | takesNoBlock statement => s!"'{statement}' does not take a block"
  | unknownStatement body name => s!"unknown {body.text} statement '{name}'"
  | unknownEdge => "expected 'drive' or 'compare'"
  | needsFormula edge => s!"'{edge}' needs a formula"
  | cycleArgument found => s!"unexpected 'cycle' argument '{found}'"
  | storeArgument => "expected 'store' or 'store offset N'"
  | inhibitArgument => "expected 'inhibit vectors' or 'inhibit comments'"
  | notFrequency found => s!"expected a frequency such as 2MHz, found '{found}'"
  | needsFrequency => "'clock enable' needs a frequency"
  | unknownClockAction name => s!"unknown clock action '{name}'"
  | notThread found => s!"only 'thread' blocks may appear in 'threads', found '{found}'"
  | secondParameter statement =>
    s!"'{statement}' takes one parameter; write further values as key=value"
  | unnamedAttribute => "instance attributes must be written as key=value"

end TestProgram
