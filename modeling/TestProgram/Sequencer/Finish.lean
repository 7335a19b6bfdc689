import TestProgram.Sequencer.Basic

/-!
# Finished patterns

What a sequencer has recorded as a pattern (`Sequencer.pattern`), and the
sequencer after it, which keeps its pins and timesets.
-/

namespace TestProgram

namespace Sequencer

/-- The pattern as it stands. -/
def pattern (c : Sequencer) : Pattern where
  name := c.name
  pins := c.pins.names
  items := c.items
  timesets := c.usedTimesets.filterMap c.timing.get?
  imported := c.imported
  defined := c.defined
  cycles := c.cycle
  executed := c.executed
  warnings := c.warnings

/-- Closes the pattern. The sequencer is ready for the next one. -/
def finish (c : Sequencer) : Pattern × Sequencer :=
  (c.pattern, { c with
    bench := ⟨c.pins, .empty, .blank c.config.ceiling⟩
    started := false
    pendingStore := false
    pendingLabel := none
    executed := 0
    called := []
    defined := []
    usedTimesets := []
    warnings := [] })

end Sequencer

end TestProgram
