import Mathlib.Logic.Function.Iterate
import TestProgram.Proofs.Clock.Edges
import TestProgram.Proofs.Pattern.Cycles
import TestProgram.Proofs.Pin.Pinout

/-!
# Cycle by cycle

What a bench looks like at a cycle is a `Moment`: the pins, the clocks and the
number of the cycle. One cycle later every clock with an edge has toggled its
pin (`Moment.next`). Runs are recorded slice by slice and not cycle by cycle;
here the two are shown to agree:

* `foldl_skip_slices`: going through the slices of a run ends in the moment that
  going through its cycles ends in;
* `flatMap_cycles_records`: the records of the slices, expanded, are the
  vectors of the moments in between;
* `edgeInGroup?_slices`: a slice ends inside a vector group exactly if there is an
  edge in some cycle that does not end a group.
-/

namespace TestProgram

structure Moment where
  pins : Pinout
  clocks : ClockBank
  /-- The cycle that comes next. -/
  cycle : Nat

namespace Moment

/-- The pins that toggle at the end of the next cycle. -/
def edges (s : Moment) : List PinId := Slice.togglesAt s.clocks.running (s.cycle + 1)

def next (s : Moment) : Moment where
  pins := s.edges.foldl Pinout.toggle s.pins
  clocks := s.edges.foldl ClockBank.advance s.clocks
  cycle := s.cycle + 1

/-- The end of a slice. -/
def skip (s : Moment) (slice : Slice) : Moment where
  pins := slice.toggles.foldl Pinout.toggle s.pins
  clocks := slice.toggles.foldl ClockBank.advance s.clocks
  cycle := s.cycle + slice.count

/-- The next cycle as it is recorded. -/
def shot (timeset : String) (group : Nat) (s : Moment) : TesterCycle :=
  ⟨s.cycle, s.pins.snapshot, timeset, group⟩

/-- The next `n` cycles as they are recorded. -/
def film (timeset : String) (group n : Nat) (s : Moment) : List TesterCycle :=
  (List.range n).map fun k => (next^[k] s).shot timeset group

theorem clocks_next (s : Moment) : s.next.clocks.clocks = Slice.pass s.clocks.clocks (s.cycle + 1) :=
  s.clocks.clocks_edges (s.cycle + 1)

theorem cycle_iterate (s : Moment) : ∀ k : Nat, (next^[k] s).cycle = s.cycle + k
  | 0 => rfl
  | k + 1 => by
    rw [Function.iterate_succ_apply', next, cycle_iterate s k]
    rfl

theorem names_iterate (s : Moment) : ∀ n : Nat, (next^[n] s).pins.names = s.pins.names
  | 0 => rfl
  | n + 1 => by
    rw [Function.iterate_succ_apply', next, Pinout.names_foldl Pinout.names_toggle, names_iterate s n]

theorem depths_iterate (s : Moment) : ∀ n : Nat, (next^[n] s).pins.depths = s.pins.depths
  | 0 => rfl
  | n + 1 => by
    rw [Function.iterate_succ_apply', next, Pinout.depths_foldl_toggle, depths_iterate s n]

theorem film_add (timeset : String) (group a b : Nat) (s : Moment) :
    s.film timeset group (a + b) = s.film timeset group a ++ (next^[a] s).film timeset group b := by
  rw [film, List.range_add, List.map_append, List.map_map, film, film]
  congr 1
  refine List.map_congr_left fun k _ => ?_
  rw [Function.comp, Nat.add_comm a k, Function.iterate_add_apply]

/-! ## Cycles without edges -/

/-- No edge comes up before the last of the next `n` cycles is over. -/
def Quiet (s : Moment) (n : Nat) : Prop :=
  ∀ e, s.cycle < e → e < s.cycle + n → Slice.togglesAt s.clocks.running e = []

theorem Quiet.mono {s : Moment} {m n : Nat} (h : s.Quiet n) (hmn : m ≤ n) : s.Quiet m :=
  fun e h₁ h₂ => h e h₁ (by omega)

theorem next_of_edges_eq_nil {s : Moment} (h : s.edges = []) : s.next = { s with cycle := s.cycle + 1 } := by
  rw [next, h]
  rfl

/-- While no edge comes up, only the cycles count. -/
theorem Quiet.iterate {s : Moment} : ∀ {k : Nat}, s.Quiet (k + 1) → next^[k] s = { s with cycle := s.cycle + k }
  | 0, _ => rfl
  | k + 1, h => by
    rw [Function.iterate_succ_apply', (h.mono (by omega : k + 1 ≤ k + 1 + 1)).iterate]
    exact next_of_edges_eq_nil (h (s.cycle + k + 1) (by omega) (by omega))

/-- A slice without an edge inside, with the edges at its end. -/
theorem Quiet.iterate_eq_skip {s : Moment} {n : Nat} (hn : 0 < n) (h : s.Quiet n) :
    next^[n] s = s.skip ⟨n, Slice.togglesAt s.clocks.running (s.cycle + n)⟩ := by
  obtain ⟨k, rfl⟩ : ∃ k, n = k + 1 := ⟨n - 1, by omega⟩
  rw [Function.iterate_succ_apply', h.iterate]
  rfl

theorem Quiet.film_eq {timeset : String} {group n : Nat} {s : Moment} (h : s.Quiet n) :
    s.film timeset group n = (List.range n).map fun k => ⟨s.cycle + k, s.pins.snapshot, timeset, group⟩ := by
  refine List.map_congr_left fun k hk => ?_
  have hk := List.mem_range.mp hk
  rw [(h.mono (by omega : k + 1 ≤ n)).iterate]
  rfl

/-! ## Runs in slices -/

/-- The slices of the next `n` cycles. -/
def slices (s : Moment) (n : Nat) : List Slice := s.clocks.slices n s.cycle

theorem quiet_of_firstEdge {s : Moment} {n k : Nat} (hk : k ≤ n)
    (h : ∀ e ∈ Slice.firstEdge? s.clocks.running s.cycle (s.cycle + n), s.cycle + k ≤ e) : s.Quiet k := by
  intro e h₁ h₂
  have hstop : e < s.cycle + n := Nat.lt_of_lt_of_le h₂ (Nat.add_le_add_left hk s.cycle)
  exact Slice.togglesAt_eq_nil (fun f hf => Nat.lt_of_lt_of_le h₂ (h f hf)) h₁ hstop

theorem slices_of_firstEdge_eq_none {s : Moment} {n : Nat}
    (h : Slice.firstEdge? s.clocks.running s.cycle (s.cycle + n) = none) :
    s.slices n = [⟨n, Slice.togglesAt s.clocks.running (s.cycle + n)⟩] := by
  rw [slices, ClockBank.slices, Slice.cut_of_firstEdge_eq_none h, Nat.add_sub_cancel_left]

theorem slices_of_firstEdge {s : Moment} {n k : Nat} (hk : 0 < k) (hq : s.Quiet k)
    (h : Slice.firstEdge? s.clocks.running s.cycle (s.cycle + (k + n)) = some (s.cycle + k)) :
    s.slices (k + n) =
      ⟨k, Slice.togglesAt s.clocks.running (s.cycle + k)⟩ :: (next^[k] s).slices n := by
  rw [hq.iterate_eq_skip hk, slices, slices, ClockBank.slices, ClockBank.slices, skip,
    ClockBank.running_foldl_advance, Slice.cut_of_firstEdge_eq_some h]
  simp only [Nat.add_sub_cancel_left, Nat.add_assoc]

/-- Slices by induction: a run without an edge before its end is one slice,
and any other run a slice up to the first edge and the slices from there on. -/
theorem slices_induction {motive : Moment → Nat → List Slice → Prop}
    (last : ∀ (s : Moment) (n : Nat), 0 < n → s.Quiet n →
      motive s n [⟨n, Slice.togglesAt s.clocks.running (s.cycle + n)⟩])
    (more : ∀ (s : Moment) (k n : Nat), 0 < k → 0 < n → s.Quiet k →
      Slice.togglesAt s.clocks.running (s.cycle + k) ≠ [] →
      (next^[k] s).slices n ≠ [] → motive (next^[k] s) n ((next^[k] s).slices n) →
      motive s (k + n) (⟨k, Slice.togglesAt s.clocks.running (s.cycle + k)⟩ :: (next^[k] s).slices n))
    (s : Moment) {n : Nat} (hn : 0 < n) : s.slices n ≠ [] ∧ motive s n (s.slices n) := by
  induction n using Nat.strongRecOn generalizing s with
  | _ n ih =>
    cases hfirst : Slice.firstEdge? s.clocks.running s.cycle (s.cycle + n) with
    | none =>
      have hq : s.Quiet n := quiet_of_firstEdge (Nat.le_refl n) fun e he => by rw [hfirst] at he; exact nomatch he
      rw [slices_of_firstEdge_eq_none hfirst]
      exact ⟨List.cons_ne_nil _ _, last s n hn hq⟩
    | some e =>
      obtain ⟨hlt, hstop⟩ := Slice.firstEdge?_bounds hfirst
      obtain ⟨k, rfl⟩ : ∃ k, e = s.cycle + k := ⟨e - s.cycle, by omega⟩
      obtain ⟨m, rfl⟩ : ∃ m, n = k + m := ⟨n - k, by omega⟩
      have hq : s.Quiet k := quiet_of_firstEdge (Nat.le_add_right k m) fun f hf => by
        rw [hfirst] at hf
        exact Nat.le_of_eq (Option.some.inj hf)
      obtain ⟨hne, hrest⟩ := ih m (by omega) (next^[k] s) (by omega)
      rw [slices_of_firstEdge (by omega) hq hfirst]
      exact ⟨List.cons_ne_nil _ _,
        more s k m (by omega) (by omega) hq (Slice.togglesAt_firstEdge hfirst) hne hrest⟩

/-- Going through the slices of a run is going through its cycles. -/
theorem foldl_skip_slices (s : Moment) {n : Nat} (hn : 0 < n) : (s.slices n).foldl skip s = next^[n] s := by
  refine (slices_induction (motive := fun s n slices => slices.foldl skip s = next^[n] s) ?_ ?_ s hn).2
  · intro s n hn hq
    exact (hq.iterate_eq_skip hn).symm
  · intro s k n hk _ hq _ _ ih
    rw [List.foldl_cons, ← hq.iterate_eq_skip hk, ih, Nat.add_comm k n, Function.iterate_add_apply]

theorem slices_ne_nil (s : Moment) {n : Nat} (hn : 0 < n) : s.slices n ≠ [] :=
  (slices_induction (motive := fun _ _ _ => True) (fun _ _ _ _ => trivial) (fun _ _ _ _ _ _ _ _ _ => trivial) s hn).1

theorem count_pos_of_mem_slices (s : Moment) {n : Nat} (hn : 0 < n) : ∀ slice ∈ s.slices n, 0 < slice.count := by
  refine (slices_induction (motive := fun _ _ slices => ∀ slice ∈ slices, 0 < slice.count) ?_ ?_ s hn).2
  · intro s n hn _ slice hs
    rw [List.mem_singleton.mp hs]
    exact hn
  · intro s k n hk _ _ _ _ ih slice hs
    rcases List.mem_cons.mp hs with rfl | hs
    · exact hk
    · exact ih slice hs

theorem slices_one (s : Moment) : ∃ toggles, s.slices 1 = [⟨1, toggles⟩] := by
  refine (slices_induction (motive := fun _ n slices => n = 1 → ∃ toggles, slices = [⟨1, toggles⟩]) ?_ ?_ s
    Nat.one_pos).2 rfl
  · rintro s n - - rfl
    exact ⟨_, rfl⟩
  · intro s k n hk hn _ _ _ _ hone
    omega

/-! ## What is recorded -/

/-- The records of slices. The first one takes the marks. -/
def records (ceiling : Option Nat) (timeset : String) : Moment → Marks → List Slice → List VectorRecord
  | _, _, [] => []
  | s, m, slice :: slices =>
    m.records s.pins.snapshot timeset s.cycle (pieces ceiling m.store m.unit slice.count) ++
      records ceiling timeset (s.skip slice) m.rest slices

/-- Cycle by cycle, the records of a run are the vectors of its moments. -/
theorem flatMap_cycles_records (ceiling : Option Nat) (timeset : String) (s : Moment) (m : Marks) {n : Nat}
    (hn : 0 < n) :
    (records ceiling timeset s m (s.slices n)).flatMap VectorRecord.cycles = s.film timeset m.group n := by
  refine (slices_induction (motive := fun s n slices => ∀ m : Marks,
    (records ceiling timeset s m slices).flatMap VectorRecord.cycles = s.film timeset m.group n)
    ?_ ?_ s hn).2 m
  · intro s n _ hq m
    rw [records, records, List.append_nil, TestProgram.flatMap_cycles_records, sum_pieces, hq.film_eq]
  · intro s k n hk _ hq _ _ ih m
    rw [records, List.flatMap_append, TestProgram.flatMap_cycles_records, sum_pieces, ← hq.iterate_eq_skip hk,
      ih, film_add, hq.film_eq]
    rfl

/-! ## Edges and vector groups -/

/-- The first edge of the next `n` cycles that does not end a group, when
`done` cycles of the run are over. -/
def brokenEdge? (group : Nat) : (done n : Nat) → Moment → Option Nat
  | _, 0, _ => none
  | done, n + 1, s =>
    if s.edges ≠ [] ∧ (done + 1) % group ≠ 0 then some (s.cycle + 1)
    else brokenEdge? group (done + 1) n s.next

theorem brokenEdge?_add (group : Nat) : ∀ (a b done : Nat) (s : Moment),
    brokenEdge? group done (a + b) s =
      (brokenEdge? group done a s).or (brokenEdge? group (done + a) b (next^[a] s))
  | 0, b, done, s => by simp [brokenEdge?]
  | a + 1, b, done, s => by
    rw [Nat.add_right_comm, brokenEdge?, brokenEdge?]
    split
    · rfl
    · rw [brokenEdge?_add group a b, Nat.add_assoc, Nat.add_comm 1 a]
      rfl

/-- Only the place within the group matters. -/
theorem brokenEdge?_congr {group : Nat} : ∀ {d d' : Nat}, d % group = d' % group → ∀ (n : Nat) (s : Moment),
    brokenEdge? group d n s = brokenEdge? group d' n s
  | _, _, _, 0, _ => rfl
  | d, d', h, n + 1, s => by
    have h' : (d + 1) % group = (d' + 1) % group := by rw [Nat.add_mod, h, ← Nat.add_mod]
    rw [brokenEdge?, brokenEdge?, h', brokenEdge?_congr h' n]

theorem Quiet.brokenEdge? {group : Nat} {s : Moment} : ∀ {k : Nat} (done : Nat), s.Quiet (k + 1) →
    brokenEdge? group done k s = none
  | 0, _, _ => rfl
  | k + 1, done, h => by
    have hk : s.Quiet (k + 1) := h.mono (by omega)
    have hedges : (next^[k] s).edges = [] := by
      rw [hk.iterate]
      exact h (s.cycle + k + 1) (by omega) (by omega)
    rw [brokenEdge?_add, hk.brokenEdge? done, Option.none_or, Moment.brokenEdge?, Moment.brokenEdge?,
      if_neg (fun hw => hw.1 hedges)]

theorem edgeInGroup?_cons {group now : Nat} {slice : Slice} {slices : List Slice} (h : slices ≠ []) :
    Bench.edgeInGroup? group now (slice :: slices) =
      if slice.count % group ≠ 0 then some (now + slice.count)
      else Bench.edgeInGroup? group (now + slice.count) slices := by
  cases slices with
  | nil => exact absurd rfl h
  | cons t ts => rw [Bench.edgeInGroup?]

/-- Where no slice but the last one can end inside a group, none does if the run
is made of whole groups. -/
theorem dvd_of_mem_slices {group : Nat} {s : Moment} {n : Nat} (hn : 0 < n)
    (hedge : Bench.edgeInGroup? group s.cycle (s.slices n) = none) (hdvd : group ∣ n) :
    ∀ slice ∈ s.slices n, group ∣ slice.count := by
  refine (slices_induction (motive := fun s n slices => Bench.edgeInGroup? group s.cycle slices = none →
    group ∣ n → ∀ slice ∈ slices, group ∣ slice.count) ?_ ?_ s hn).2 hedge hdvd
  · intro s n _ _ _ hdvd slice hs
    rw [List.mem_singleton.mp hs]
    exact hdvd
  · intro s k n _ _ _ _ hne ih hedge hdvd slice hs
    rw [edgeInGroup?_cons hne] at hedge
    split at hedge
    · exact nomatch hedge
    · rename_i hk
      have hfirst : group ∣ k := Nat.dvd_of_mod_eq_zero (not_not.mp hk)
      rcases List.mem_cons.mp hs with rfl | hs
      · exact hfirst
      · rw [← cycle_iterate s k] at hedge
        exact ih hedge ((Nat.dvd_add_right hfirst).mp hdvd) slice hs

/-- A slice ends inside a group exactly where an edge does not end one. -/
theorem edgeInGroup?_slices (group : Nat) (s : Moment) {n : Nat} (hn : 0 < n) :
    Bench.edgeInGroup? group s.cycle (s.slices n) = brokenEdge? group 0 (n - 1) s := by
  refine (slices_induction (motive := fun s n slices =>
    Bench.edgeInGroup? group s.cycle slices = Moment.brokenEdge? group 0 (n - 1) s) ?_ ?_ s hn).2
  · intro s n hn hq
    rw [Quiet.brokenEdge? 0 (by rwa [Nat.sub_add_cancel hn])]
    rfl
  · intro s k n hk hn hq hedge hne ih
    have hcut : k + n - 1 = (k - 1) + (1 + (n - 1)) := by omega
    have hdone : 0 + (k - 1) + 1 = k := by omega
    have hlast : (next^[k - 1] s).edges = Slice.togglesAt s.clocks.running (s.cycle + k) := by
      rw [(hq.mono (by omega : k - 1 + 1 ≤ k)).iterate, edges]
      simp only [Nat.add_assoc, Nat.sub_add_cancel hk]
    rw [edgeInGroup?_cons hne, hcut, brokenEdge?_add,
      Quiet.brokenEdge? 0 (by rwa [Nat.sub_add_cancel hk]), Option.none_or, Nat.add_comm 1, Moment.brokenEdge?,
      hlast, hdone]
    by_cases hmod : k % group = 0
    · have hnext : (next^[k - 1] s).next = next^[k] s := by
        rw [← Function.iterate_succ_apply' next, Nat.succ_eq_add_one, Nat.sub_add_cancel hk]
      rw [if_neg (not_not.mpr hmod), if_neg (fun hw => hw.2 hmod), hnext,
        brokenEdge?_congr (by rw [hmod, Nat.zero_mod] : k % group = 0 % group), ← ih, cycle_iterate]
    · have hcycle : (next^[k - 1] s).cycle + 1 = s.cycle + k := by rw [cycle_iterate]; omega
      rw [if_pos hmod, if_pos ⟨hedge, hmod⟩, hcycle]

end Moment

end TestProgram
