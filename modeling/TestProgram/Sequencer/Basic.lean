import TestProgram.Config
import TestProgram.Pattern.Tape
import TestProgram.Text.Names

/-!
# The sequencer

A `Sequencer` builds one pattern. It owns the pins, clocks, timesets and the
tape, and adds what belongs to patterns as a whole: store marks and labels
for the next vector, subroutines, hardware loops, masks, inhibition and
vector groups.

An operation answers with a value or a fault and leaves the sequencer in its
next state. Most operations are settled as a whole (`Sequencer.settle`): a
fault leaves nothing of them behind but that the pattern has begun.
-/

namespace TestProgram

structure Sequencer where
  name : String
  config : Config
  timing : Timing
  bench : Bench
  /-- Whether the pattern has begun. -/
  started : Bool
  /-- Whether the next vector is to be stored. -/
  pendingStore : Bool
  /-- The label of the next vector. -/
  pendingLabel : Option String
  group : Nat
  /-- The depth of scopes that record neither vectors nor comments. -/
  inhibitVectors : Nat
  /-- The depth of scopes that record no comments. -/
  inhibitComments : Nat
  /-- How often the tester executes the present cycle. -/
  loopFactor : Nat
  executed : Nat
  called : List String
  defined : List String
  /-- The timesets of the vectors in order of first use. -/
  usedTimesets : List String
  warnings : List Warning

/-- What a pattern is doing at the moment. -/
inductive Phase where
  | idle
  | generating
  | suspended (vectors comments : Nat)
  deriving DecidableEq, Repr

namespace Sequencer

/-- A sequencer for a new pattern over declared pins. -/
def new (name : String) (pins : Pinout) (config : Config) : Sequencer where
  name := name
  config := config
  timing := .empty
  bench := ⟨pins, .empty, .blank config.ceiling⟩
  started := false
  pendingStore := false
  pendingLabel := none
  group := max config.group 1
  inhibitVectors := 0
  inhibitComments := 0
  loopFactor := 1
  executed := 0
  called := []
  defined := []
  usedTimesets := []
  warnings := []

/-! ## Views -/

def pins (c : Sequencer) : Pinout := c.bench.pins

def clocks (c : Sequencer) : ClockBank := c.bench.clocks

def items (c : Sequencer) : List Item := c.bench.tape.items

/-- The cycle at which the next vector begins. -/
def cycle (c : Sequencer) : Nat := c.bench.tape.cycle

def phase (c : Sequencer) : Phase :=
  if 0 < c.inhibitVectors ∨ 0 < c.inhibitComments then .suspended c.inhibitVectors c.inhibitComments
  else if c.started then .generating
  else .idle

/-- The subroutines that are called and not defined. -/
def imported (c : Sequencer) : List String := Names.difference c.called c.defined

/-! ## Parts of operations -/

/-- Notes that the pattern has begun. -/
def touch (c : Sequencer) : Sequencer := { c with started := true }

def warn (c : Sequencer) (w : Warning) : Sequencer := { c with warnings := c.warnings ++ [w] }

def withPins (c : Sequencer) (pins : Pinout) : Sequencer := { c with bench := { c.bench with pins } }

def withClocks (c : Sequencer) (clocks : ClockBank) : Sequencer :=
  { c with bench := { c.bench with clocks } }

def withTape (c : Sequencer) (tape : Tape) : Sequencer := { c with bench := { c.bench with tape } }

/-- Ends an operation: in its result, or after a fault in the state `c`. -/
def settle (c : Sequencer) : Except Fault Sequencer → Except Fault Unit × Sequencer
  | .ok c' => (.ok (), c')
  | .error e => (.error e, c)

/-- The result of a clock operation on a named pin. -/
def onPin (pin : String) : Except ClockFault α → Except Fault α
  | .ok a => .ok a
  | .error e => .error (e.onPin pin)

end Sequencer

end TestProgram
