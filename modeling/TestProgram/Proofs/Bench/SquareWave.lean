import TestProgram.Proofs.Bench.Emission
import TestProgram.Proofs.Clock.Operations

/-!
# The wave of a clock

A `SquareWave` is a clock as one sees it on its pin: from a level on, the pin is
inverted every half period that the clock has run. `SquareWave.Swing` ties the clock
and its pin to the number of cycles for which it has run. A cycle of a running
clock takes the number up by one, whether it ends with an edge or not, and a
cycle of a paused one leaves it (`Swing.next`); hence every cycle of a run
shows the level that belongs to its number (`Swing.film`).
-/

namespace TestProgram

structure SquareWave where
  pin : PinId
  half : Nat
  half_pos : 0 < half
  /-- The level at the start. -/
  initial : PinState
  isLevel : initial.isLevel = true

namespace SquareWave

variable (w : SquareWave)

/-- The level when the clock has run for `ran` cycles. -/
def levelAt (ran : Nat) : PinState := PinState.toggled^[ran / w.half] w.initial

theorem isLevel_levelAt (ran : Nat) : (w.levelAt ran).isLevel = true := by
  rw [SquareWave.levelAt]
  cases ran / w.half with
  | zero => exact w.isLevel
  | succ k =>
    rw [Function.iterate_succ_apply']
    exact PinState.toggled_isLevel _

/-- The cycles that are left of the half period. -/
def left (ran : Nat) : Nat := w.half - ran % w.half

theorem left_pos (ran : Nat) : 0 < w.left ran := Nat.sub_pos_of_lt (Nat.mod_lt ran w.half_pos)

theorem levelAt_zero : w.levelAt 0 = w.initial := by
  rw [levelAt, Nat.zero_div]
  rfl

theorem left_zero : w.left 0 = w.half := by rw [left, Nat.zero_mod, Nat.sub_zero]

/-- The status of the clock at a cycle. -/
def status (run : Bool) (cycle ran : Nat) : ClockStatus :=
  if run then .running (cycle + w.left ran) else .paused (w.left ran)

/-- A half period is over. -/
theorem succ_of_left_eq_one {ran : Nat} (h : w.left ran = 1) :
    w.left (ran + 1) = w.half ∧ w.levelAt (ran + 1) = (w.levelAt ran).toggled := by
  have hlt := Nat.mod_lt ran w.half_pos
  have hran := Nat.div_add_mod ran w.half
  rw [left] at h
  have hnext : 0 + w.half * (ran / w.half + 1) = ran + 1 := by
    rw [Nat.mul_succ]
    omega
  obtain ⟨hdiv, hmod⟩ := (Nat.div_mod_unique w.half_pos).mpr ⟨hnext, w.half_pos⟩
  rw [left, hmod, SquareWave.levelAt, hdiv, Function.iterate_succ_apply']
  exact ⟨rfl, rfl⟩

/-- A half period goes on. -/
theorem succ_of_left_ne_one {ran : Nat} (h : w.left ran ≠ 1) :
    w.left (ran + 1) + 1 = w.left ran ∧ w.levelAt (ran + 1) = w.levelAt ran := by
  have hlt := Nat.mod_lt ran w.half_pos
  have hran := Nat.div_add_mod ran w.half
  rw [left] at h
  have hnext : ran % w.half + 1 + w.half * (ran / w.half) = ran + 1 := by omega
  have hgoes : ran % w.half + 1 < w.half := by omega
  obtain ⟨hdiv, hmod⟩ := (Nat.div_mod_unique w.half_pos).mpr ⟨hnext, hgoes⟩
  rw [left, hmod, SquareWave.levelAt, hdiv, left]
  exact ⟨by omega, rfl⟩

end SquareWave

/-! ## One cycle -/

namespace Moment

theorem find?_next {s : Moment} {pin : PinId} {k : Clock} (hk : s.clocks.find? pin = some k) :
    s.next.clocks.find? pin = some (if k.next? = some (s.cycle + 1) then k.advance else k) :=
  ClockBank.find?_of_map (fun c => c.pin_passed (s.cycle + 1)) s.clocks_next hk

theorem state_next {s : Moment} {pin : PinId} (hpin : pin < s.pins.pins.length) :
    s.next.pins.state pin =
      if s.clocks.next? pin = some (s.cycle + 1) then (s.pins.state pin).toggled else s.pins.state pin := by
  have hnodup : s.edges.Nodup := Slice.nodup_togglesAt s.clocks (s.cycle + 1)
  rw [next, Pinout.state_foldl_toggle hnodup hpin]
  exact if_congr (Slice.mem_togglesAt_iff s.clocks) rfl rfl

end Moment

namespace SquareWave

/-- The clock of the wave and its pin when it has run for `ran` cycles, and
whether it is running now. -/
structure Swing (w : SquareWave) (run : Bool) (ran : Nat) (s : Moment) : Prop where
  clock : ∃ k, s.clocks.find? w.pin = some k ∧ k.half = w.half ∧ k.status = w.status run s.cycle ran
  state : s.pins.state w.pin = w.levelAt ran
  pin : w.pin < s.pins.pins.length

/-- The number of cycles run after `n` more cycles. -/
def count (run : Bool) (ran n : Nat) : Nat := if run then ran + n else ran

variable {w : SquareWave} {run : Bool} {ran : Nat} {s : Moment}

theorem Swing.next (h : w.Swing run ran s) : w.Swing run (count run ran 1) s.next := by
  obtain ⟨⟨k, hk, hhalf, hstatus⟩, hstate, hpin⟩ := h
  have hlength : s.next.pins.pins.length = s.pins.pins.length := Pinout.length_of_names (s.names_iterate 1)
  have hpin' : w.pin < s.next.pins.pins.length := by rwa [hlength]
  have hclock' := Moment.find?_next hk
  have hstate' := Moment.state_next hpin
  have hnext : s.clocks.next? w.pin = k.next? := by rw [ClockBank.next?, hk, Option.bind_some]
  rw [hnext] at hstate'
  cases run with
  | false =>
    have hstatus : k.status = .paused (w.left ran) := hstatus
    have hnone : k.next? ≠ some (s.cycle + 1) := by rw [Clock.next?, hstatus]; exact (Option.some_ne_none _).symm
    rw [if_neg hnone] at hclock' hstate'
    exact ⟨⟨k, hclock', hhalf, hstatus⟩, hstate'.trans hstate, hpin'⟩
  | true =>
    have hstatus : k.status = .running (s.cycle + w.left ran) := hstatus
    have hsome : k.next? = some (s.cycle + w.left ran) := Clock.next?_eq_some_iff.mpr hstatus
    by_cases hedge : w.left ran = 1
    · obtain ⟨hleft, hat⟩ := w.succ_of_left_eq_one hedge
      rw [hedge] at hsome hstatus
      rw [if_pos hsome] at hclock' hstate'
      refine ⟨⟨k.advance, hclock', k.half_advance.trans hhalf, ?_⟩, ?_, hpin'⟩
      · show k.advance.status = .running (s.cycle + 1 + w.left (ran + 1))
        rw [Clock.advance, hstatus, hleft, ← hhalf]
      · rw [hstate', hstate]
        exact hat.symm
    · obtain ⟨hleft, hat⟩ := w.succ_of_left_ne_one hedge
      have hnone : k.next? ≠ some (s.cycle + 1) := by
        rw [hsome]
        intro heq
        exact hedge (Nat.add_left_cancel (Option.some.inj heq))
      rw [if_neg hnone] at hclock' hstate'
      refine ⟨⟨k, hclock', hhalf, ?_⟩, (hstate'.trans hstate).trans hat.symm, hpin'⟩
      show k.status = .running (s.cycle + 1 + w.left (ran + 1))
      rw [hstatus, ← hleft, ← Nat.add_assoc, Nat.add_right_comm]

theorem Swing.iterate (h : w.Swing run ran s) : ∀ n : Nat, w.Swing run (count run ran n) (Moment.next^[n] s)
  | 0 => by
    have hcount : count run ran 0 = ran := by rw [count, Nat.add_zero, ite_self]
    rw [hcount]
    exact h
  | n + 1 => by
    have hcount : count run ran (n + 1) = count run (count run ran n) 1 := by
      cases run <;> rfl
    rw [Function.iterate_succ_apply', hcount]
    exact (h.iterate n).next

/-- The pin shows its level. -/
theorem Swing.snapshot (h : w.Swing run ran s) : s.pins.snapshot[w.pin]? = some (w.levelAt ran) := by
  have hlevel : (s.pins.state w.pin).isLevel = true := by rw [h.state]; exact w.isLevel_levelAt ran
  rw [Pinout.snapshot_of_isLevel h.pin hlevel, h.state]

/-- The cycles of a run, each with the level that belongs to it. -/
theorem Swing.film (h : w.Swing run ran s) {timeset : String} {group n : Nat} {t : TesterCycle}
    (ht : t ∈ s.film timeset group n) :
    ∃ k < n, t.cycle = s.cycle + k ∧ t.states[w.pin]? = some (w.levelAt (count run ran k)) := by
  obtain ⟨k, hk, rfl⟩ := List.mem_map.mp ht
  exact ⟨k, List.mem_range.mp hk, s.cycle_iterate k, (h.iterate k).snapshot⟩

end SquareWave

end TestProgram
