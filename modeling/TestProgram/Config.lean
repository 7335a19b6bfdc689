import TestProgram.Platform
import TestProgram.Timing.Duration

/-!
# Settings

The settings that all patterns of a run share.
-/

namespace TestProgram

structure Config where
  platform : Platform
  /-- Replaces the platform's largest repeat count. -/
  maxRepeat : Option Nat
  rounding : Rounding
  /-- The size of vector groups at the start of a pattern. -/
  group : Nat

namespace Config

/-- The settings of a platform that nothing else was asked for. -/
def standard (platform : Platform) : Config := ⟨platform, none, .ceil, 1⟩

/-- The largest repeat count of a record. -/
def ceiling (c : Config) : Option Nat := c.maxRepeat.or c.platform.maxRepeat

end Config

end TestProgram
