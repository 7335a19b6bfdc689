/-!
# Pin states

What a pin applies to the device or expects from it during one cycle.
-/

namespace TestProgram

inductive PinState where
  | drive0
  | drive1
  /-- Neither driven nor compared. -/
  | dontCare
  | compare0
  | compare1
  | compareX
  /-- Driven with data from the pattern memory. -/
  | driveMemory
  /-- Compared with data from the pattern memory. -/
  | expectMemory
  deriving DecidableEq, Repr, Inhabited

/-- Whether a pin stimulates the device or observes it. -/
inductive PinRole where
  | drive
  | compare
  deriving DecidableEq, Repr

namespace PinState

def role : PinState → PinRole
  | drive0 | drive1 | dontCare | driveMemory => .drive
  | compare0 | compare1 | compareX | expectMemory => .compare

def drive (high : Bool) : PinState := if high then drive1 else drive0

def compare (high : Bool) : PinState := if high then compare1 else compare0

/-- The state after a clock edge. A pin that drives no level starts with the
high one. -/
def toggled : PinState → PinState
  | drive1 => drive0
  | _ => drive1

/-- The state with any comparison taken out. -/
def masked (s : PinState) : PinState :=
  match s.role with
  | .compare => compareX
  | .drive => s

/-- Whether the pin drives a fixed level. -/
def isLevel : PinState → Bool
  | drive0 | drive1 => true
  | _ => false

/-- The state in vector tables. -/
def symbol : PinState → Char
  | drive0 => '0'
  | drive1 => '1'
  | dontCare => 'X'
  | compare0 => 'L'
  | compare1 => 'H'
  | compareX => 'X'
  | driveMemory => 'D'
  | expectMemory => 'E'

/-- The state in data documents. -/
def name : PinState → String
  | drive0 => "Drive0"
  | drive1 => "Drive1"
  | dontCare => "DontCare"
  | compare0 => "Compare0"
  | compare1 => "Compare1"
  | compareX => "CompareX"
  | driveMemory => "DriveMem"
  | expectMemory => "ExpectMem"

theorem toggled_isLevel (s : PinState) : s.toggled.isLevel = true := by cases s <;> rfl

theorem masked_masked (s : PinState) : s.masked.masked = s.masked := by cases s <;> rfl

end PinState

end TestProgram
