import TestProgram.Proofs.Bench.SquareWave
import TestProgram.Proofs.Clock.Ahead

/-!
# When pins toggle

Going through the slices of a run toggles a pin at the ends of some of them
(`Slice.togglings`), which are the cycles of the run after which the clock of
the pin has an edge (`togglings_slices`). These are all edges of the clock that
fall into the run, none left out and none taken twice (`mem_togglings`,
`pairwise_togglings`). The pin has the state after as
many of them as are over, in every cycle of the run and after it
(`state_iterate`, `shown_iterate`), and the clock goes on with the edge after
the last of them (`find?_iterate`).
-/

namespace TestProgram

/-- The cycles at which a pin toggles when slices are gone through from the
cycle `now` on, each one as often as the pin does so. -/
def Slice.togglings (pin : PinId) : (now : Nat) → List Slice → List Nat
  | _, [] => []
  | now, s :: slices =>
    List.replicate (s.toggles.count pin) (now + s.count) ++ togglings pin (now + s.count) slices

namespace Moment

/-- The cycles at which a pin toggles in the next `n` cycles. -/
def togglings (pin : PinId) : Nat → Moment → List Nat
  | 0, _ => []
  | n + 1, s => List.replicate (s.edges.count pin) (s.cycle + 1) ++ togglings pin n s.next

variable {s : Moment} {pin : PinId}

theorem togglings_add (pin : PinId) : ∀ (a b : Nat) (s : Moment),
    s.togglings pin (a + b) = s.togglings pin a ++ (next^[a] s).togglings pin b
  | 0, b, s => by rw [Nat.zero_add, togglings, List.nil_append, Function.iterate_zero, id]
  | a + 1, b, s => by
    rw [Nat.add_right_comm, togglings, togglings_add pin a b s.next, togglings, List.append_assoc,
      Function.iterate_succ_apply]

/-! ## By slices and by cycles -/

/-- Where only the end of a run has edges, only they toggle pins. -/
theorem Quiet.togglings {k : Nat} (hk : 0 < k) (h : s.Quiet k) : s.togglings pin k =
    List.replicate ((Slice.togglesAt s.clocks.running (s.cycle + k)).count pin) (s.cycle + k) := by
  induction k generalizing s with
  | zero => exact absurd hk (Nat.lt_irrefl 0)
  | succ k ih =>
    rw [Moment.togglings]
    rcases Nat.eq_zero_or_pos k with rfl | hk
    · rw [Moment.togglings, List.append_nil]
      rfl
    · -- the first cycle is over without an edge
      have hedges : s.edges = [] := h (s.cycle + 1) (by omega) (by omega)
      have hnext : s.next.Quiet k := by
        rw [next_of_edges_eq_nil hedges]
        intro e h₁ h₂
        dsimp only at h₁ h₂
        exact h e (by omega) (by omega)
      have hcycle : s.cycle + 1 + k = s.cycle + (k + 1) := by omega
      rw [hedges, List.count_nil, List.replicate_zero, List.nil_append, ih hk hnext, next_of_edges_eq_nil hedges]
      simp only [hcycle]

/-- The slices of a run toggle a pin when its cycles do. -/
theorem togglings_slices (pin : PinId) (s : Moment) {n : Nat} (hn : 0 < n) :
    Slice.togglings pin s.cycle (s.slices n) = s.togglings pin n := by
  refine (slices_induction (motive := fun s n slices => Slice.togglings pin s.cycle slices = s.togglings pin n)
    ?_ ?_ s hn).2
  · intro s n hn hq
    rw [hq.togglings hn, Slice.togglings, Slice.togglings, List.append_nil]
  · intro s k n hk _ hq _ _ ih
    rw [togglings_add, hq.togglings hk, Slice.togglings, ← ih, cycle_iterate]

/-! ## Every edge once -/

theorem count_edges (s : Moment) (pin : PinId) :
    s.edges.count pin = if s.clocks.next? pin = some (s.cycle + 1) then 1 else 0 := by
  have hnodup : s.edges.Nodup := Slice.nodup_togglesAt s.clocks (s.cycle + 1)
  rw [hnodup.count]
  exact if_congr (Slice.mem_togglesAt_iff s.clocks) rfl rfl

theorem togglings_bounds : ∀ {n : Nat} {s : Moment} {e : Nat}, e ∈ s.togglings pin n →
    s.cycle < e ∧ e ≤ s.cycle + n
  | n + 1, s, e, h => by
    rcases List.mem_append.mp h with h | h
    · obtain rfl := List.eq_of_mem_replicate h
      omega
    · have hbounds := togglings_bounds h
      have hcycle : s.next.cycle = s.cycle + 1 := rfl
      omega

/-- No pin toggles twice at a cycle. -/
theorem pairwise_togglings (pin : PinId) : ∀ (n : Nat) (s : Moment), (s.togglings pin n).Pairwise (· < ·)
  | 0, _ => List.Pairwise.nil
  | n + 1, s => by
    rw [togglings, count_edges]
    have hrest := pairwise_togglings pin n s.next
    split
    · refine List.pairwise_cons.mpr ⟨fun e he => ?_, hrest⟩
      exact (togglings_bounds he).1
    · exact hrest

/-- The edges that are over after some of the cycles are those that came up in
them. -/
theorem countP_togglings (pin : PinId) (s : Moment) {i n : Nat} (hi : i ≤ n) :
    (s.togglings pin n).countP (fun e => decide (e ≤ s.cycle + i)) = (s.togglings pin i).length := by
  obtain ⟨m, rfl⟩ := Nat.exists_eq_add_of_le hi
  have hover : (s.togglings pin i).countP (fun e => decide (e ≤ s.cycle + i)) = (s.togglings pin i).length :=
    List.countP_eq_length.mpr fun e he => by
      have hbounds := togglings_bounds he
      simpa using hbounds.2
  have hahead : ((next^[i] s).togglings pin m).countP (fun e => decide (e ≤ s.cycle + i)) = 0 :=
    List.countP_eq_zero.mpr fun e he => by
      have hbounds := togglings_bounds he
      rw [cycle_iterate] at hbounds
      simp only [decide_eq_true_eq]
      omega
  rw [togglings_add, List.countP_append, hover, hahead, Nat.add_zero]

/-! ## A running clock -/

section

variable {k : Clock} {first : Nat}

theorem count_edges_of_find? (hk : s.clocks.find? pin = some k) (hstatus : k.status = .running first) :
    s.edges.count pin = if first = s.cycle + 1 then 1 else 0 := by
  rw [count_edges, ClockBank.next?, hk, Option.bind_some, Clock.next?_eq_some_iff.mpr hstatus]
  simp only [Option.some.injEq]

/-- The clock one cycle later. -/
theorem find?_next_of_running (hk : s.clocks.find? pin = some k) (hstatus : k.status = .running first) :
    s.next.clocks.find? pin =
      some { k with status := .running (if first = s.cycle + 1 then first + k.half else first) } := by
  rw [find?_next hk, Clock.next?_eq_some_iff.mpr hstatus]
  by_cases hedge : first = s.cycle + 1
  · rw [if_pos (congrArg some hedge), if_pos hedge, Clock.advance, hstatus]
  · rw [if_neg (fun h => hedge (Option.some.inj h)), if_neg hedge, ← hstatus]

/-- The pin of a clock toggles at the edges of the clock that fall into the run. -/
theorem mem_togglings : ∀ {n : Nat} {s : Moment} {k : Clock}, s.clocks.find? pin = some k → ∀ {e : Nat},
    e ∈ s.togglings pin n ↔ k.Comes s.cycle e ∧ e ≤ s.cycle + n
  | 0, s, k, _, e => by
    constructor
    · exact fun h => absurd h List.not_mem_nil
    · rintro ⟨hcomes, hle⟩
      exact absurd hcomes.lt (Nat.not_lt.mpr hle)
  | n + 1, s, k, hk, e => by
    have hcycle : s.next.cycle = s.cycle + 1 := rfl
    have hnext : s.clocks.next? pin = k.next? := by rw [ClockBank.next?, hk, Option.bind_some]
    have hle : e ≤ s.cycle + 1 + n ↔ e ≤ s.cycle + (n + 1) := by rw [Nat.add_assoc, Nat.add_comm 1]
    rw [togglings, count_edges, hnext, List.mem_append, List.mem_replicate, mem_togglings (find?_next hk), hcycle, hle]
    constructor
    · rintro (⟨hedge, rfl⟩ | ⟨hcomes, hle⟩)
      · have hdue : k.next? = some (s.cycle + 1) := by
          by_contra hnot
          exact hedge (if_neg hnot)
        exact ⟨Clock.comes_succ_iff.mpr hdue, by omega⟩
      · exact ⟨(Clock.comes_pass hcomes.lt).mp hcomes, hle⟩
    · rintro ⟨hcomes, hle⟩
      -- an edge of the clock is the one in the next cycle or a later one
      rcases Nat.eq_or_lt_of_le hcomes.lt with heq | hlt
      · obtain rfl : e = s.cycle + 1 := heq.symm
        exact .inl ⟨by rw [if_pos (Clock.comes_succ_iff.mp hcomes)]; exact Nat.one_ne_zero, rfl⟩
      · exact .inr ⟨(Clock.comes_pass hlt).mpr hcomes, hle⟩

/-- After a run the clock is on its way to the edge after those of the run. -/
theorem find?_iterate : ∀ {n : Nat} {s : Moment} {first : Nat} {k : Clock}, s.clocks.find? pin = some k →
    k.status = .running first → (next^[n] s).clocks.find? pin =
      some { k with status := .running (first + (s.togglings pin n).length * k.half) }
  | 0, s, first, k, hk, hstatus => by
    rw [togglings, List.length_nil, Nat.zero_mul, Nat.add_zero, ← hstatus]
    exact hk
  | n + 1, s, first, k, hk, hstatus => by
    have hnext := find?_next_of_running hk hstatus
    rw [Function.iterate_succ_apply, find?_iterate hnext rfl, togglings, count_edges_of_find? hk hstatus,
      List.length_append, List.length_replicate, Nat.add_mul]
    by_cases hedge : first = s.cycle + 1
    · simp only [if_pos hedge, Nat.one_mul, Nat.add_assoc]
    · simp only [if_neg hedge, Nat.zero_mul, Nat.zero_add]

end

/-! ## What the pin shows -/

theorem state_iterate : ∀ {n : Nat} {s : Moment}, pin < s.pins.pins.length →
    (next^[n] s).pins.state pin = PinState.toggled^[(s.togglings pin n).length] (s.pins.state pin)
  | 0, _, _ => rfl
  | n + 1, s, hpin => by
    have hlength : s.next.pins.pins.length = s.pins.pins.length := Pinout.length_of_names (s.names_iterate 1)
    rw [Function.iterate_succ_apply, state_iterate (by rwa [hlength]), state_next hpin, togglings, count_edges,
      List.length_append, List.length_replicate]
    split
    · rw [Nat.add_comm, Function.iterate_succ_apply]
    · rw [Nat.zero_add]

/-- In a cycle of a run the pin shows its state after the edges that are over. -/
theorem shown_iterate (hpin : pin < s.pins.pins.length) {i n : Nat} (hi : i ≤ n) :
    (next^[i] s).pins.snapshot[pin]? = some (PinState.under
      (PinState.toggled^[(s.togglings pin n).countP fun e => decide (e ≤ s.cycle + i)] (s.pins.state pin))
      (s.pins.masks pin)) := by
  have hpin' : pin < (next^[i] s).pins.pins.length := by
    rwa [Pinout.length_of_names (s.names_iterate i)]
  have hmasks : (next^[i] s).pins.masks pin = s.pins.masks pin := by
    rw [Pinout.masks_eq, depths_iterate, ← Pinout.masks_eq]
  rw [Pinout.snapshot_eq hpin', hmasks, state_iterate hpin, countP_togglings pin s hi]

end Moment

end TestProgram
