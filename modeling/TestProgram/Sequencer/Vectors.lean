import TestProgram.Sequencer.Setup

/-!
# Recording vectors

Operations that hold the present vector, and the marks that go with vectors:
stores, labels, comments and subroutines. All vectors are recorded by `emit`.
-/

namespace TestProgram

namespace Sequencer

/-- Adds a timeset to those in use. -/
def use (c : Sequencer) (timeset : String) : Sequencer :=
  if c.usedTimesets.contains timeset then c
  else { c with usedTimesets := c.usedTimesets ++ [timeset] }

/-- Records the present vector for `count` cycles, with the marks that are
pending. -/
def emit (c : Sequencer) (count : Nat) (timeset call : Option String) : Except Fault Unit × Sequencer :=
  let c := c.touch
  match c.timing.resolve timeset "cycle" with
  | .error e => (.error e, c)
  | .ok t =>
    if 0 < c.inhibitVectors then (.ok (), c)
    else
      let c := c.use t.name
      c.settle do
        let bench ← c.bench.hold t count ⟨c.pendingStore, c.pendingLabel, call, c.group⟩
        pure { c with
          bench
          pendingStore := false
          pendingLabel := none
          executed := Word.add c.executed (Word.mul count c.loopFactor) }

/-- Rounds a count up to whole vector groups, with a warning if it was not. -/
def align (c : Sequencer) (count : Nat) : Nat × Sequencer :=
  if c.group ≤ 1 ∨ count % c.group = 0 then (count, c)
  else
    let rounded := Word.ceilDiv count c.group * c.group
    (rounded, c.warn (.repeatRounded count rounded c.group))

/-- Holds the present vector, for one cycle unless a count is given and under
the active timeset unless one is named. -/
def hold (c : Sequencer) (count : Option Nat) (timeset : Option String) : Except Fault Unit × Sequencer :=
  let count := count.getD 1
  if count = 0 then (.error (.invalidRepeat 0), c)
  else
    let (count, c) := c.align count
    c.emit count timeset none

/-- Holds the present vector for a number of cycles, which may be zero. -/
def delay (c : Sequencer) (count : Nat) : Except Fault Unit × Sequencer :=
  if count = 0 then (.ok (), c.touch) else c.hold (some count) none

/-- Holds the present vector for a duration. -/
def wait (c : Sequencer) (d : Duration) : Except Fault Unit × Sequencer :=
  let c := c.touch
  match c.timing.cyclesFor d c.config.rounding with
  | .error e => (.error e, c)
  | .ok count => c.delay count

/-- Marks a vector for capture: with offset zero the next one, else the one
that many records back. -/
def store (c : Sequencer) (offset : Nat) : Except Fault Unit × Sequencer :=
  let c := c.touch
  if offset = 0 then (.ok (), { c with pendingStore := true })
  else if 0 < c.inhibitVectors then (.ok (), c)
  else c.settle do
    let tape ← c.bench.tape.markStore offset
    pure (c.withTape tape)

/-- Labels the next vector. -/
def label (c : Sequencer) (name : String) : Sequencer := { c.touch with pendingLabel := some name }

def comment (c : Sequencer) (text : String) : Sequencer :=
  let c := c.touch
  if c.inhibitVectors = 0 ∧ c.inhibitComments = 0 then c.withTape (c.bench.tape.push (.comment text))
  else c

/-- Holds the present vector for the one cycle in which a subroutine is
called. -/
def call (c : Sequencer) (name : String) : Except Fault Unit × Sequencer :=
  { c with called := Names.insert name c.called }.emit 1 none (some name)

/-- Defines a subroutine that begins with the next vector. -/
def define (c : Sequencer) (name : String) : Sequencer :=
  { c with defined := Names.insert name c.defined }.label name

end Sequencer

end TestProgram
