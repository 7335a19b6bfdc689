import TestProgram.Fault
import TestProgram.Pin.Pinout
import TestProgram.Timing.Frequency

/-!
# Free-running clocks

A clock toggles its pin every half period while it runs. A `ClockBank` holds
the clocks of a pattern in the order of their pins. It only counts cycles: a
running clock knows the cycle of its next edge, a paused one how many cycles
are left until it.
-/

namespace TestProgram

inductive ClockStatus where
  /-- Enabled and not toggling. -/
  | stopped
  | running (next : Nat)
  /-- Frozen, with this many cycles left until the next edge. -/
  | paused (remaining : Nat)
  deriving DecidableEq, Repr

structure Clock where
  pin : PinId
  frequency : Frequency
  /-- Half a period in cycles. -/
  half : Nat
  status : ClockStatus
  deriving DecidableEq

namespace Clock

/-- The cycle of the next edge of a running clock. -/
def next? (c : Clock) : Option Nat :=
  match c.status with
  | .running next => some next
  | _ => none

def isRunning (c : Clock) : Bool := c.next?.isSome

/-- The clock after its next edge. -/
def advance (c : Clock) : Clock :=
  match c.status with
  | .running next => { c with status := .running (next + c.half) }
  | _ => c

theorem pin_advance (c : Clock) : c.advance.pin = c.pin := by
  unfold advance
  split <;> rfl

/-- Clocks in ascending order of their pins, at most one on a pin. -/
def Ordered (clocks : List Clock) : Prop := clocks.Pairwise fun c d => c.pin < d.pin

/-- Puts a clock in its place, instead of the clock on the same pin. -/
def insert (c : Clock) : List Clock → List Clock
  | [] => [c]
  | d :: ds =>
    if d.pin < c.pin then d :: insert c ds
    else if d.pin = c.pin then c :: ds
    else c :: d :: ds

theorem mem_of_mem_insert {c d : Clock} : ∀ {clocks : List Clock}, d ∈ insert c clocks → d = c ∨ d ∈ clocks
  | [], h => .inl (List.mem_singleton.mp h)
  | e :: es, h => by
    unfold insert at h
    split at h
    · rcases List.mem_cons.mp h with rfl | h
      · exact .inr List.mem_cons_self
      · exact (mem_of_mem_insert h).imp_right (List.mem_cons_of_mem e)
    · split at h
      · exact (List.mem_cons.mp h).imp_right (List.mem_cons_of_mem e)
      · exact List.mem_cons.mp h

theorem Ordered.insert {c : Clock} : ∀ {clocks : List Clock}, Ordered clocks → Ordered (insert c clocks)
  | [], _ => List.pairwise_singleton _ c
  | d :: ds, h => by
    obtain ⟨hd, hds⟩ := List.pairwise_cons.mp h
    unfold Clock.insert
    split
    · rename_i hlt
      refine List.pairwise_cons.mpr ⟨fun e he => ?_, Ordered.insert hds⟩
      rcases mem_of_mem_insert he with rfl | he
      · exact hlt
      · exact hd e he
    · rename_i hge
      split
      · rename_i heq
        exact List.pairwise_cons.mpr ⟨fun e he => heq ▸ hd e he, hds⟩
      · rename_i hne
        refine List.pairwise_cons.mpr ⟨fun e he => ?_, h⟩
        have hlt : c.pin < d.pin := Nat.lt_of_le_of_ne (Nat.le_of_not_lt hge) (Ne.symm hne)
        rcases List.mem_cons.mp he with rfl | he
        · exact hlt
        · exact Nat.lt_trans hlt (hd e he)

/-- A change that leaves the pins of clocks alone leaves their order alone. -/
theorem Ordered.map {f : Clock → Clock} (hf : ∀ c, (f c).pin = c.pin) {clocks : List Clock}
    (h : Ordered clocks) : Ordered (clocks.map f) :=
  List.pairwise_map.mpr (List.Pairwise.imp (fun {c d} hlt => by rw [hf c, hf d]; exact hlt) h)

end Clock

/-- Why a clock cannot do what it is asked to. -/
inductive ClockFault where
  | notEnabled
  | notRunning
  | notPaused
  | invalidFrequency (hertz : Float)
  deriving DecidableEq

/-- The fault of the clock on a named pin. -/
def ClockFault.onPin (pin : String) : ClockFault → Fault
  | notEnabled => .clockNotEnabled pin
  | notRunning => .clockNotRunning pin
  | notPaused => .clockNotPaused pin
  | invalidFrequency hertz => .invalidFrequency pin hertz

/-- The clocks of a pattern. -/
structure ClockBank where
  clocks : List Clock
  ordered : Clock.Ordered clocks
  deriving DecidableEq

namespace ClockBank

def empty : ClockBank := ⟨[], List.Pairwise.nil⟩

def find? (b : ClockBank) (pin : PinId) : Option Clock := b.clocks.find? fun c => c.pin == pin

/-- Puts a clock in its place, instead of the clock on the same pin. -/
def put (b : ClockBank) (c : Clock) : ClockBank := ⟨Clock.insert c b.clocks, b.ordered.insert⟩

/-- The enabled clock on a pin. -/
def get (b : ClockBank) (pin : PinId) : Except ClockFault Clock :=
  match b.find? pin with
  | some c => .ok c
  | none => .error .notEnabled

def quantize (f : Frequency) (period : Duration) : Except ClockFault HalfPeriod :=
  match f.quantize period with
  | some half => .ok half
  | none => .error (.invalidFrequency f.hertz)

/-- Gives a pin a clock, or its clock a new frequency. A running clock keeps
its next edge; the new half period counts from there on. -/
def enable (b : ClockBank) (pin : PinId) (f : Frequency) (period : Duration) :
    Except ClockFault (HalfPeriod × ClockBank) := do
  let half ← quantize f period
  let status := match b.find? pin with
    | some c => c.status
    | none => .stopped
  pure (half, b.put ⟨pin, f, half.cycles, status⟩)

/-- Starts a clock at the cycle `now`, half a period before its first edge. -/
def start (b : ClockBank) (pin : PinId) (now : Nat) : Except ClockFault ClockBank := do
  let c ← b.get pin
  pure (b.put { c with status := .running (now + c.half) })

/-- Stops a clock, whether it is running or not. -/
def stop (b : ClockBank) (pin : PinId) : Except ClockFault ClockBank := do
  let c ← b.get pin
  pure (b.put { c with status := .stopped })

/-- Freezes a running clock. At least one cycle is left to the next edge. -/
def pause (b : ClockBank) (pin : PinId) (now : Nat) : Except ClockFault ClockBank := do
  let c ← b.get pin
  match c.status with
  | .running next => pure (b.put { c with status := .paused (max (next - now) 1) })
  | _ => throw .notRunning

/-- Lets a paused clock go on. Without a new frequency it finishes the half
period it was in; with one it begins a new half period. -/
def resume (b : ClockBank) (pin : PinId) (now : Nat) (retune : Option (Frequency × Duration)) :
    Except ClockFault (Option HalfPeriod × ClockBank) := do
  let c ← b.get pin
  match c.status, retune with
  | .paused remaining, none => pure (none, b.put { c with status := .running (now + remaining) })
  | .paused _, some (f, period) =>
    let half ← quantize f period
    pure (some half, b.put ⟨pin, f, half.cycles, .running (now + half.cycles)⟩)
  | _, _ => throw .notPaused

/-- The cycle of the next edge on a pin with a running clock. -/
def next? (b : ClockBank) (pin : PinId) : Option Nat := (b.find? pin).bind Clock.next?

/-- The clocks that are running. -/
def running (b : ClockBank) : List Clock := b.clocks.filter Clock.isRunning

def runningPins (b : ClockBank) : List PinId := b.running.map Clock.pin

def anyRunning (b : ClockBank) : Bool := b.clocks.any Clock.isRunning

/-- Commits one edge of a running clock. -/
def advance (b : ClockBank) (pin : PinId) : ClockBank where
  clocks := b.clocks.map fun c => if c.pin = pin then c.advance else c
  ordered := b.ordered.map fun c => by split <;> simp only [Clock.pin_advance]

end ClockBank

end TestProgram
