import TestProgram.Sequencer.Basic

/-!
# Setting up the next vectors

Operations that record nothing: they set pins and timesets, control the
clocks, and choose the size of vector groups. Clock edges may fall only
between vector groups, so a clock and a group size have to suit each other
(`checkGroup`).
-/

namespace TestProgram

namespace Sequencer

/-! ## Pins -/

def setPin (c : Sequencer) (pin : String) (s : PinState) : Except Fault Unit × Sequencer :=
  let c := c.touch
  c.settle do
    let i ← c.pins.id pin
    pure (c.withPins (c.pins.set i s))

def pinState (c : Sequencer) (pin : String) : Except Fault PinState := do
  let i ← c.pins.id pin
  pure (c.pins.state i)

/-! ## Timesets -/

def setTimeset (c : Sequencer) (name : String) (period : Option Duration) : Except Fault Unit × Sequencer :=
  let c := c.touch
  c.settle do
    let timing ← c.timing.select name period
    pure { c with timing }

def addWave (c : Sequencer) (timeset pin : String) (drive compare : Option String) :
    Except Fault Unit × Sequencer :=
  c.settle do
    let i ← c.pins.id pin
    let timing ← c.timing.addWave timeset ⟨i, drive, compare⟩
    pure { c with timing }

/-! ## Clocks -/

/-- Warns of a half period that had to be rounded. -/
def noteRounding (c : Sequencer) (pin : String) (f : Frequency) (half : HalfPeriod) : Sequencer :=
  if half.exact then c else c.warn (.clockRounded pin f half c.timing.currentPeriod?)

def enableClock (c : Sequencer) (pin : String) (f : Frequency) : Except Fault Unit × Sequencer :=
  let c := c.touch
  c.settle do
    let i ← c.pins.id pin
    let period ← c.timing.currentPeriod
    let (half, clocks) ← onPin pin (c.clocks.enable i f period)
    pure ((c.withClocks clocks).noteRounding pin f half)

/-- A clock's edges may only fall between vector groups. -/
def checkGroup (c : Sequencer) (pin : PinId) (group : Nat) : Except Fault Unit :=
  match c.clocks.find? pin with
  | some clock =>
    if 1 < group ∧ clock.half % group ≠ 0 then
      .error (.clockGroupMismatch (c.pins.name pin) clock.half group)
    else .ok ()
  | none => .ok ()

/-- Starts a clock. A pin that drives no level starts with the low one. -/
def startClock (c : Sequencer) (pin : String) : Except Fault Unit × Sequencer :=
  let c := c.touch
  c.settle do
    let i ← c.pins.id pin
    c.checkGroup i c.group
    let clocks ← onPin pin (c.clocks.start i c.cycle)
    let pins := if (c.pins.state i).isLevel then c.pins else c.pins.set i .drive0
    pure ((c.withClocks clocks).withPins pins)

def stopClock (c : Sequencer) (pin : String) : Except Fault Unit × Sequencer :=
  let c := c.touch
  c.settle do
    let i ← c.pins.id pin
    let clocks ← onPin pin (c.clocks.stop i)
    pure (c.withClocks clocks)

def pauseClock (c : Sequencer) (pin : String) : Except Fault Unit × Sequencer :=
  let c := c.touch
  c.settle do
    let i ← c.pins.id pin
    let clocks ← onPin pin (c.clocks.pause i c.cycle)
    pure (c.withClocks clocks)

/-- The new tuning of a clock under the present period. -/
def retuning (c : Sequencer) : Option Frequency → Except Fault (Option (Frequency × Duration))
  | none => .ok none
  | some f => do
    let period ← c.timing.currentPeriod
    pure (some (f, period))

/-- Lets a paused clock go on, with a frequency in a new phase. -/
def resumeClock (c : Sequencer) (pin : String) (frequency : Option Frequency) :
    Except Fault Unit × Sequencer :=
  let c := c.touch
  c.settle do
    let i ← c.pins.id pin
    let retune ← c.retuning frequency
    let (half, clocks) ← onPin pin (c.clocks.resume i c.cycle retune)
    let c := c.withClocks clocks
    match half, frequency with
    | some half, some f => pure (c.noteRounding pin f half)
    | _, _ => pure c

/-! ## Vector groups -/

/-- Checks a list of clocks against a group size. -/
def checkGroups (c : Sequencer) (group : Nat) : List PinId → Except Fault Unit
  | [] => .ok ()
  | pin :: pins => do
    c.checkGroup pin group
    c.checkGroups group pins

/-- Sets the number of cycles of a vector group. -/
def setGroup (c : Sequencer) (group : Nat) : Except Fault Unit × Sequencer :=
  if group = 0 then (.error (.invalidGroupSize 0), c)
  else
    let c := c.touch
    c.settle do
      c.checkGroups group c.clocks.runningPins
      pure { c with group }

end Sequencer

end TestProgram
