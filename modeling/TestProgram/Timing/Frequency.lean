import TestProgram.Timing.Duration

/-!
# Frequencies

A frequency is a floating-point number of hertz. A clock of a given frequency
toggles every half period; `Frequency.quantize` expresses that half period in
whole tester cycles.
-/

namespace TestProgram

structure Frequency where
  hertz : Float
  deriving DecidableEq

namespace Frequency

def ofMegahertz (x : Float) : Frequency := ⟨x * 1000000⟩

/-- Whether a clock can run at this frequency. -/
def isValid (f : Frequency) : Bool := f.hertz.isFinite && f.hertz > 0

/-- The length of one period in picoseconds. -/
def periodPicoseconds (f : Frequency) : Float := 1000000000000 / f.hertz

/-- The frequency in the largest of Hz, kHz, MHz and GHz of which it is at
least one. -/
def text (f : Frequency) : String :=
  let hz := f.hertz
  if hz ≥ 1000000000 then Layout.plain.text (hz / 1000000000) ++ "GHz"
  else if hz ≥ 1000000 then Layout.plain.text (hz / 1000000) ++ "MHz"
  else if hz ≥ 1000 then Layout.plain.text (hz / 1000) ++ "kHz"
  else Layout.plain.text hz ++ "Hz"

end Frequency

/-- A half period in tester cycles. -/
structure HalfPeriod where
  /-- The whole number of cycles that is used. -/
  cycles : Nat
  /-- The number of cycles that the frequency asks for. -/
  requested : Float
  /-- Whether the two agree up to rounding errors. -/
  exact : Bool

/-- The half period of a frequency in cycles of the given period: the nearest
whole number, a half going up, and at least one. None if the frequency cannot
drive a clock or the period is zero. -/
def Frequency.quantize (f : Frequency) (period : Duration) : Option HalfPeriod :=
  if !f.isValid || period.isZero then none
  else
    let requested := f.periodPicoseconds / 2 / Float.ofNat period.picoseconds
    let cycles := max (Word.truncate (requested + 0.5)) 1
    some ⟨cycles, requested, (requested - Float.ofNat cycles).abs < 1e-9⟩

theorem Frequency.one_le_cycles {f : Frequency} {period : Duration} {h : HalfPeriod}
    (hq : f.quantize period = some h) : 1 ≤ h.cycles := by
  unfold Frequency.quantize at hq
  split at hq
  · simp at hq
  · cases hq; exact Nat.le_max_right _ _

end TestProgram
