import TestProgram.Fault
import TestProgram.Pin.Pinout

/-!
# Timesets

A timeset is a named timing: a period, and for some pins a wave, the formulas
of its drive and compare edges. A `Timing` holds the timesets of a pattern in
order of first mention; at most one of them is active. A timeset exists from
its first mention on, and its period, once set, can change but not go away.
-/

namespace TestProgram

/-- The edges of one pin within a period, as formulas. -/
structure Wave where
  pin : PinId
  drive : Option String
  compare : Option String
  deriving DecidableEq, Repr

structure Timeset where
  name : String
  period : Option Duration
  waves : List Wave
  deriving DecidableEq, Repr

/-- The value of an edge formula, or the fault it has. -/
def edgeTime (period : Duration) (formula : String) : Except Fault Float :=
  match Formula.evaluate formula period with
  | .ok x => .ok x
  | .error cause => .error (.invalidFormula formula cause)

/-- The value of an edge formula where there is one. -/
def edgeTime? (period : Duration) : Option String → Except Fault (Option Float)
  | none => .ok none
  | some formula => do
    let x ← edgeTime period formula
    pure (some x)

/-- The edge times of one pin in nanoseconds. -/
structure WaveEdges where
  pin : PinId
  drive : Option Float
  compare : Option Float

namespace Timeset

/-- The edge times of every wave. -/
def edges (t : Timeset) : Except Fault (List WaveEdges) :=
  match t.period with
  | none => .error (.noActiveTimeset ("evaluating waves of timeset '" ++ t.name ++ "'"))
  | some period => t.waves.mapM fun w => do
    let drive ← edgeTime? period w.drive
    let compare ← edgeTime? period w.compare
    pure ⟨w.pin, drive, compare⟩

/-- Gives a pin a wave, instead of the one it had. -/
def withWave (t : Timeset) (w : Wave) : Timeset :=
  { t with waves := (t.waves.filter fun v => v.pin ≠ w.pin) ++ [w] }

end Timeset

structure Timing where
  sets : List Timeset
  /-- The position of the active timeset. -/
  active : Option Nat
  deriving DecidableEq, Repr

namespace Timing

def empty : Timing := ⟨[], none⟩

def index? (t : Timing) (name : String) : Option Nat := t.sets.findIdx? fun s => s.name == name

def get? (t : Timing) (name : String) : Option Timeset := t.sets.find? fun s => s.name == name

def current? (t : Timing) : Option Timeset := t.active.bind fun i => t.sets[i]?

def currentPeriod? (t : Timing) : Option Duration := t.current?.bind Timeset.period

/-- The timing with a timeset of this name, and the position it has. -/
def mention (t : Timing) (name : String) : Nat × Timing :=
  match t.index? name with
  | some i => (i, t)
  | none => (t.sets.length, { t with sets := t.sets ++ [⟨name, none, []⟩] })

/-- Activates a timeset. Without a period it keeps its own, or takes over the
period of the timeset active before if it has none yet. -/
def select (t : Timing) (name : String) (period : Option Duration) : Except Fault Timing :=
  if (period.map Duration.isZero).getD false then .error (.zeroPeriod name)
  else
    let inherited := t.currentPeriod?
    let (i, t) := t.mention name
    .ok {
      sets := t.sets.modify i fun s => { s with period := (period.or s.period).or inherited }
      active := some i }

/-- Activates the timeset at a position that was active before. -/
def restore (t : Timing) (active : Option Nat) : Timing := { t with active }

/-- The timeset an operation works under: the named one, or else the active
one. It has to have a period. -/
def resolve (t : Timing) (name : Option String) (operation : String) : Except Fault Timeset := do
  let s ← match name with
    | some n => match t.get? n with
      | some s => pure s
      | none => throw (.unknownTimeset n)
    | none => match t.current? with
      | some s => pure s
      | none => throw (.noActiveTimeset operation)
  if s.period.isSome then pure s else throw (.noActiveTimeset operation)

/-- The period of the active timeset. -/
def currentPeriod (t : Timing) : Except Fault Duration :=
  match t.currentPeriod? with
  | some p => .ok p
  | none => .error (.noActiveTimeset "period lookup")

/-- The number of cycles a duration takes under the active timeset. -/
def cyclesFor (t : Timing) (d : Duration) (rounding : Rounding) : Except Fault Nat := do
  let period ← t.currentPeriod
  pure (cyclesIn d period rounding)

/-- A period to try formulas on. -/
def trialPeriod : Duration := ⟨1000⟩

/-- Gives a pin a wave in a timeset. Both formulas have to have a value. -/
def addWave (t : Timing) (name : String) (w : Wave) : Except Fault Timing := do
  let _ ← edgeTime? trialPeriod w.drive
  let _ ← edgeTime? trialPeriod w.compare
  let (i, t) := t.mention name
  pure { t with sets := t.sets.modify i fun s => s.withWave w }

end Timing

end TestProgram
