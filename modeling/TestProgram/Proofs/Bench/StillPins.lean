import TestProgram.Proofs.Bench.SquareWave

/-!
# Pins that keep still

A pin on which no clock runs is changed by nothing but the operations that set
it. While cycles go by it stays in its state (`Still.iterate`), and if no mask
is on it every cycle shows this state (`Still.film`).
-/

namespace TestProgram

namespace Moment

/-- A clock that is not running does not start by itself. -/
theorem next?_next {s : Moment} {pin : PinId} (h : s.clocks.next? pin = none) : s.next.clocks.next? pin = none := by
  rw [ClockBank.next?_eq_none_iff] at h ⊢
  intro k hk hpin
  rw [clocks_next] at hk
  obtain ⟨d, hd, hdpin, -, hrunning⟩ := Slice.exists_of_mem_pass hk
  exact hrunning.symm.trans (h d hd (hdpin.trans hpin))

end Moment

/-- What a pin shows, cycle by cycle. -/
def pinTrace (pin : PinId) (cycles : List TesterCycle) : List (Nat × Option PinState) :=
  cycles.map fun t => (t.cycle, t.states[pin]?)

theorem pinTrace_append (pin : PinId) (cycles cycles' : List TesterCycle) :
    pinTrace pin (cycles ++ cycles') = pinTrace pin cycles ++ pinTrace pin cycles' := List.map_append

/-- A pin in a state, without a mask and without a running clock. -/
structure Still (pin : PinId) (state : PinState) (s : Moment) : Prop where
  clock : s.clocks.next? pin = none
  state : s.pins.state pin = state
  masks : s.pins.masks pin = 0
  pin : pin < s.pins.pins.length

namespace Still

variable {pin : PinId} {state : PinState} {s : Moment}

theorem next (h : Still pin state s) : Still pin state s.next where
  clock := Moment.next?_next h.clock
  state := by
    rw [Moment.state_next h.pin, h.clock, if_neg (Option.some_ne_none _).symm]
    exact h.state
  masks := by
    have hdepths : s.next.pins.depths = s.pins.depths := s.depths_iterate 1
    rw [Pinout.masks_eq, hdepths, ← Pinout.masks_eq]
    exact h.masks
  pin := by
    have hlength : s.next.pins.pins.length = s.pins.pins.length := Pinout.length_of_names (s.names_iterate 1)
    rw [hlength]
    exact h.pin

theorem iterate (h : Still pin state s) : ∀ n : Nat, Still pin state (Moment.next^[n] s)
  | 0 => h
  | n + 1 => by
    rw [Function.iterate_succ_apply']
    exact (h.iterate n).next

theorem snapshot (h : Still pin state s) : s.pins.snapshot[pin]? = some state := by
  rw [Pinout.snapshot_of_masks_eq_zero h.pin h.masks, h.state]

/-- Every cycle of a run shows the state of the pin. -/
theorem film (h : Still pin state s) (timeset : String) (group n : Nat) :
    pinTrace pin (s.film timeset group n) = (List.range n).map fun k => (s.cycle + k, some state) := by
  rw [pinTrace, Moment.film, List.map_map]
  refine List.map_congr_left fun k _ => ?_
  exact Prod.ext (s.cycle_iterate k) (h.iterate k).snapshot

/-- Setting a pin sets this pin and no other. -/
theorem set (h : Still pin state s) (i : PinId) (state' : PinState) :
    Still pin (if i = pin then state' else state) { s with pins := s.pins.set i state' } where
  clock := h.clock
  state := by
    split
    · rename_i hi
      subst hi
      exact Pinout.state_set_self s.pins h.pin state'
    · rename_i hi
      exact (Pinout.state_set_ne s.pins hi state').trans h.state
  masks := by
    rw [Pinout.masks_eq, Pinout.depths_set, ← Pinout.masks_eq]
    exact h.masks
  pin := by
    rw [Pinout.length_of_names (Pinout.names_set s.pins i state')]
    exact h.pin

end Still

end TestProgram
