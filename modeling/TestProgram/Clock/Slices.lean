import TestProgram.Clock.Basic

/-!
# Cutting a run at clock edges

A run of cycles is cut wherever a running clock has an edge, so that no pin
changes inside a slice (`ClockBank.slices`). An edge at the very end of the
run belongs to the last slice. Edges at or before the start are over and cut
nothing.
-/

namespace TestProgram

/-- A part of a run with no clock edge inside. -/
structure Slice where
  count : Nat
  /-- The pins that toggle at its end. -/
  toggles : List PinId
  deriving DecidableEq, Repr

namespace Slice

/-- The first edge strictly between two cycles. -/
def firstEdge? (clocks : List Clock) (now stop : Nat) : Option Nat :=
  ((clocks.filterMap Clock.next?).filter fun e => decide (now < e ∧ e < stop)).min?

theorem firstEdge?_bounds {clocks : List Clock} {now stop e : Nat}
    (h : firstEdge? clocks now stop = some e) : now < e ∧ e < stop := by
  have hm := List.min?_mem h
  simpa using (List.mem_filter.mp hm).2

/-- The pins with an edge at a cycle. -/
def togglesAt (clocks : List Clock) (cycle : Nat) : List PinId :=
  (clocks.filter fun c => c.next? == some cycle).map Clock.pin

/-- Moves the clocks with an edge at a cycle on to their next one. -/
def pass (clocks : List Clock) (cycle : Nat) : List Clock :=
  clocks.map fun c => if c.next? = some cycle then c.advance else c

/-- The slices of the run from `now` to `stop`. -/
def cut (clocks : List Clock) (now stop : Nat) : List Slice :=
  match _h : firstEdge? clocks now stop with
  | some e => ⟨e - now, togglesAt clocks e⟩ :: cut (pass clocks e) e stop
  | none => [⟨stop - now, togglesAt clocks stop⟩]
termination_by stop - now
decreasing_by have := firstEdge?_bounds _h; omega

end Slice

/-- The slices of a run of `n` cycles that begins at the cycle `now`. -/
def ClockBank.slices (b : ClockBank) (n now : Nat) : List Slice := Slice.cut b.running now (now + n)

end TestProgram
