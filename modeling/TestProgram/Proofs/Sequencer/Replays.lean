import TestProgram.Proofs.Pattern.Barriers
import TestProgram.Proofs.Sequencer.Steps
import TestProgram.Proofs.Sequencer.Tiling

/-!
# Replaying a plan

A plan is replayed by holding the present vector from one stop to the next:
the cycles of its events and its end (`ThreadPlan.stops`, `gaps`). `Passed`
says what a hold does in terms of the cycles that go by. Each takes the fewest
vector groups that cover its gap (`passed_pass`), so all of them together take
at least the cycles of the plan, and exactly these if every stop is a number
of whole groups (`sum_covered_gaps`). `runThreads_cycles` says so of sets of
threads, and `drifting_cycles` is one that takes twice as long as its plan.
-/

namespace TestProgram

/-! ## Stops and gaps -/

/-- The cycles up to which the present vector is held. -/
def ThreadPlan.stops (p : ThreadPlan) : List Nat := p.events.map ThreadEvent.cycle ++ [p.total]

/-- The cycles between stops, from the cycle `now` on. -/
def gaps : (now : Nat) → List Nat → List Nat
  | _, [] => []
  | now, stop :: stops => (stop - now) :: gaps stop stops

/-- The cycles of the fewest vector groups that cover `n` cycles. -/
def coveringGroups (group n : Nat) : Nat := Word.ceilDiv n group * group

theorem le_coveringGroups {group : Nat} (hg : 0 < group) (n : Nat) : n ≤ coveringGroups group n :=
  Word.ceilDiv_mul_ge n hg

theorem coveringGroups_eq_iff {group n : Nat} : coveringGroups group n = n ↔ group ∣ n := by
  refine ⟨fun h => ?_, fun h => ?_⟩
  · rw [← h]
    exact Nat.dvd_mul_left group _
  · rw [coveringGroups, Word.ceilDiv, if_pos (Nat.mod_eq_zero_of_dvd h), Nat.add_zero]
    exact Nat.div_mul_cancel h

/-- Gaps that are rounded up to vector groups one by one take at least the
cycles up to the last stop, and no more exactly if all stops are whole groups
away from the start. -/
theorem sum_covered_gaps {group : Nat} (hg : 0 < group) (total : Nat) (stops : List Nat) {now : Nat}
    (h : (now :: (stops ++ [total])).Pairwise (· ≤ ·)) :
    total - now ≤ ((gaps now (stops ++ [total])).map (coveringGroups group)).sum ∧
      (((gaps now (stops ++ [total])).map (coveringGroups group)).sum = total - now ↔
        ∀ stop ∈ stops ++ [total], group ∣ stop - now) := by
  induction stops generalizing now with
  | nil =>
    have hle := le_coveringGroups hg (total - now)
    rw [List.nil_append, gaps, gaps, List.map_singleton, List.sum_singleton, coveringGroups_eq_iff,
      List.forall_mem_singleton]
    exact ⟨hle, Iff.rfl⟩
  | cons stop stops ih =>
    obtain ⟨hnow, hstops⟩ := List.pairwise_cons.mp h
    have hstop := (List.pairwise_cons.mp hstops).1
    have hfirst : now ≤ stop := hnow stop List.mem_cons_self
    have hlast : stop ≤ total := hstop total (List.mem_append_right _ List.mem_cons_self)
    have hle := le_coveringGroups hg (stop - now)
    obtain ⟨hrest, hexact⟩ := ih hstops
    rw [List.cons_append, gaps, List.map_cons, List.sum_cons, List.forall_mem_cons]
    refine ⟨by omega, ?_⟩
    -- no rounded gap is shorter, so the sum is exact only if both of its parts are
    calc coveringGroups group (stop - now) + ((gaps stop (stops ++ [total])).map (coveringGroups group)).sum = total - now
        ↔ coveringGroups group (stop - now) = stop - now ∧
          ((gaps stop (stops ++ [total])).map (coveringGroups group)).sum = total - stop := by omega
      _ ↔ group ∣ stop - now ∧ ∀ r ∈ stops ++ [total], group ∣ r - stop := by rw [coveringGroups_eq_iff, hexact]
      _ ↔ group ∣ stop - now ∧ ∀ r ∈ stops ++ [total], group ∣ r - now := by
        refine and_congr_right fun hdvd => forall₂_congr fun r hr => ?_
        have hle := hstop r hr
        have hsplit : r - now = (r - stop) + (stop - now) := by omega
        rw [hsplit, Nat.dvd_add_left hdvd]

/-- The stops of a plan are in order. -/
theorem Threads.pairwise_stops {toCycles : Duration → Except Fault Nat} {threads : List Thread} {p : ThreadPlan}
    (h : plan toCycles threads = .ok p) : (0 :: p.stops).Pairwise (· ≤ ·) := by
  have horder : (p.events.map ThreadEvent.cycle).Pairwise (· ≤ ·) := by
    refine List.pairwise_map.mpr ((pairwise_of_plan h).imp fun {a b} hab => ?_)
    rw [ThreadEvent.le_iff] at hab
    omega
  refine List.pairwise_cons.mpr ⟨fun _ _ => Nat.zero_le _,
    List.pairwise_append.mpr ⟨horder, List.pairwise_singleton _ _, ?_⟩⟩
  intro cycle hcycle total htotal
  obtain ⟨e, he, rfl⟩ := List.mem_map.mp hcycle
  obtain rfl := List.mem_singleton.mp htotal
  exact cycle_le_total h e he

namespace Sequencer

/-! ## Holds -/

/-- `c'` is `c` after `n` more cycles of the same vector, clock edges apart. -/
structure Passed (n : Nat) (c c' : Sequencer) : Prop where
  moment : c'.bench.moment = Moment.next^[n] c.bench.moment
  records : ∃ timeset new, c'.records = c.records ++ new ∧
    new.flatMap VectorRecord.cycles = c.bench.moment.film timeset c.group n
  group : c'.group = c.group
  inhibitVectors : c'.inhibitVectors = c.inhibitVectors

theorem Passed.zero {c c' : Sequencer} (hb : AtBench c c.bench c') (hi : c'.inhibitVectors = c.inhibitVectors) :
    Passed 0 c c' where
  moment := by rw [hb.bench]; rfl
  records := ⟨"", [], by rw [Sequencer.records, items, hb.bench, List.append_nil]; rfl, rfl⟩
  group := hb.group
  inhibitVectors := hi

theorem Passed.cycle {n : Nat} {c c' : Sequencer} (h : Passed n c c') : c'.cycle = c.cycle + n :=
  (congrArg Moment.cycle h.moment).trans (c.bench.moment.cycle_iterate n)

theorem Passed.names {n : Nat} {c c' : Sequencer} (h : Passed n c c') : c'.pins.names = c.pins.names :=
  (congrArg (fun s => s.pins.names) h.moment).trans (c.bench.moment.names_iterate n)

variable {c c' : Sequencer}

theorem fst_align (hg : 0 < c.group) (n : Nat) : (c.align n).1 = coveringGroups c.group n := by
  unfold align
  split
  · rename_i h
    refine (coveringGroups_eq_iff.mpr ?_).symm
    rcases h with h | h
    · obtain h1 : c.group = 1 := by omega
      rw [h1]
      exact Nat.one_dvd n
    · exact Nat.dvd_of_mod_eq_zero h
  · rfl

theorem passed_delay (hg : 0 < c.group) (hi : c.inhibitVectors = 0) {n : Nat} (h : c.delay n = (.ok (), c')) :
    Passed (coveringGroups c.group n) c c' := by
  have hsteady : Steady c c' := by
    have := (steps_acrossVectors.delay c n).steady
    rwa [h] at this
  rw [← fst_align hg]
  unfold delay at h
  split at h
  · rename_i hn
    obtain rfl := (Prod.mk.inj h).2
    rw [hn, fst_align hg, coveringGroups_eq_iff.mpr (Nat.dvd_zero c.group)]
    exact .zero ⟨rfl, rfl, rfl⟩ rfl
  · rename_i hn
    unfold hold at h
    dsimp only [Option.getD_some] at h
    rw [if_neg hn] at h
    obtain ⟨hbench, hinhibit⟩ := c.align_keeps n
    have hgroup : (c.align n).2.group = c.group := by rw [align_eq]
    obtain ⟨t, b, hb, hc'⟩ := hold_of_emit (hinhibit.trans hi) h
    rw [hbench] at hb
    obtain ⟨new, hrecords, hfilm⟩ := Bench.film_of_hold hb
    refine ⟨by rw [hc'.bench, (Bench.hold_eq_ok hb).2.1], ⟨t.name, new, ?_, by rw [hfilm, hgroup]⟩,
      hc'.group.trans hgroup, hsteady.inhibitVectors⟩
    rw [records, items, hc'.bench]
    exact hrecords

/-- Holds the present vector from one cycle of a plan to another. -/
def pass (c : Sequencer) (now stop : Nat) : Except Fault Unit × Sequencer :=
  if now < stop then c.delay (stop - now) else (.ok (), c)

theorem passed_pass (hg : 0 < c.group) (hi : c.inhibitVectors = 0) {now stop : Nat}
    (h : c.pass now stop = (.ok (), c')) : Passed (coveringGroups c.group (stop - now)) c c' := by
  unfold pass at h
  split at h
  · exact passed_delay hg hi h
  · rename_i hle
    obtain rfl := (Prod.mk.inj h).2
    rw [Nat.sub_eq_zero_of_le (Nat.le_of_not_lt hle), coveringGroups_eq_iff.mpr (Nat.dvd_zero _)]
    exact .zero .rfl rfl

/-! ## Events -/

theorem setPin_eq_ok {pin : String} {s : PinState} :
    c.setPin pin s = (.ok (), c') ↔ ∃ i, c.pins.id pin = .ok i ∧ c' = c.touch.withPins (c.pins.set i s) := by
  show c.touch.settle (c.pins.id pin >>= _) = _ ↔ _
  cases c.pins.id pin with
  | error e => exact ⟨fun h => (nomatch h), fun ⟨_, h, _⟩ => (nomatch h)⟩
  | ok i =>
    constructor
    · intro h
      exact ⟨i, rfl, (Prod.mk.inj h).2.symm⟩
    · rintro ⟨j, hj, rfl⟩
      obtain rfl := Except.ok.inj hj
      rfl

/-- Goes on from what a step led to, if the step succeeded. -/
def andThen (first : Except Fault Unit × Sequencer) (next : Sequencer → Except Fault Unit × Sequencer) :
    Except Fault Unit × Sequencer :=
  match first with
  | (.error fault, c) => (.error fault, c)
  | (.ok (), c) => next c

theorem andThen_eq_ok {first : Except Fault Unit × Sequencer} {next : Sequencer → Except Fault Unit × Sequencer} :
    andThen first next = (.ok (), c') ↔ ∃ c₁, first = (.ok (), c₁) ∧ next c₁ = (.ok (), c') := by
  obtain ⟨fault | ⟨⟩, c₁⟩ := first
  · exact ⟨fun h => (nomatch h), fun ⟨_, h, _⟩ => (nomatch h)⟩
  · constructor
    · intro h
      exact ⟨c₁, rfl, h⟩
    · rintro ⟨c₂, heq, h⟩
      obtain rfl := (Prod.mk.inj heq).2
      exact h

/-- An event is replayed by a hold, a pin change and the events after it. -/
theorem replay_cons (total now : Nat) (e : ThreadEvent) (events : List ThreadEvent) :
    c.replay total now (e :: events) = andThen (c.pass now e.cycle) fun c₁ => andThen (c₁.setPin e.pin e.state) fun c₂ =>
      c₂.replay total (max now e.cycle) events := rfl

theorem replay_cons_eq_ok {total now : Nat} {e : ThreadEvent} {events : List ThreadEvent} :
    c.replay total now (e :: events) = (.ok (), c') ↔ ∃ c₁ c₂, c.pass now e.cycle = (.ok (), c₁) ∧
      c₁.setPin e.pin e.state = (.ok (), c₂) ∧ c₂.replay total (max now e.cycle) events = (.ok (), c') := by
  simp only [replay_cons, andThen_eq_ok, exists_and_left]

/-- A plan takes the sum of its gaps, each rounded up to vector groups. -/
theorem cycle_of_replay {total : Nat} : ∀ {events : List ThreadEvent} {now : Nat} {c : Sequencer}, 0 < c.group →
    c.inhibitVectors = 0 → (now :: (events.map ThreadEvent.cycle ++ [total])).Pairwise (· ≤ ·) →
      c.replay total now events = (.ok (), c') →
        c'.cycle = c.cycle + ((gaps now (events.map ThreadEvent.cycle ++ [total])).map (coveringGroups c.group)).sum
  | [], now, c, hg, hi, _, h => (passed_pass hg hi h).cycle
  | e :: events, now, c, hg, hi, hsorted, h => by
    obtain ⟨c₁, c₂, hpass, hset, hrest⟩ := replay_cons_eq_ok.mp h
    obtain ⟨hnow, hsorted⟩ := List.pairwise_cons.mp hsorted
    have hpassed := passed_pass hg hi hpass
    obtain ⟨i, -, rfl⟩ := setPin_eq_ok.mp hset
    have hgroup : (c₁.touch.withPins (c₁.pins.set i e.state)).group = c.group := hpassed.group
    have hinhibit : (c₁.touch.withPins (c₁.pins.set i e.state)).inhibitVectors = 0 := hpassed.inhibitVectors.trans hi
    have hcycle : (c₁.touch.withPins (c₁.pins.set i e.state)).cycle = c.cycle + coveringGroups c.group (e.cycle - now) :=
      hpassed.cycle
    rw [Nat.max_eq_right (hnow e.cycle List.mem_cons_self)] at hrest
    rw [cycle_of_replay (by rw [hgroup]; exact hg) hinhibit hsorted hrest, hgroup, hcycle, List.map_cons,
      List.cons_append, gaps, List.map_cons, List.sum_cons, Nat.add_assoc]

/-! ## Sets of threads -/

theorem runThreads_eq_ok {threads : List Thread} :
    c.runThreads threads = (.ok (), c') ↔
      ∃ p, c.planThreads threads = .ok p ∧ c.touch.replay p.total 0 p.events = (.ok (), c') := by
  have hplan : c.touch.planThreads threads = c.planThreads threads := rfl
  rw [runThreads, hplan]
  cases c.planThreads threads with
  | error e => simp
  | ok p => simp

/-- Threads that have run took the gaps of their plan, each of them rounded up
to whole vector groups. That is the length of the plan exactly if all events
and the end of the plan lie between groups, and otherwise longer. -/
theorem runThreads_cycles {name : String} {pins : Pinout} {config : Config} (hc : Reachable name pins config c)
    (hi : c.inhibitVectors = 0) {threads : List Thread} (h : c.runThreads threads = (.ok (), c')) :
    ∃ p, c.planThreads threads = .ok p ∧
      c'.cycle = c.cycle + ((gaps 0 p.stops).map (coveringGroups c.group)).sum ∧ c.cycle + p.total ≤ c'.cycle ∧
      (c'.cycle = c.cycle + p.total ↔ ∀ stop ∈ p.stops, c.group ∣ stop) := by
  obtain ⟨p, hplan, hreplay⟩ := runThreads_eq_ok.mp h
  have hsorted := Threads.pairwise_stops hplan
  have hcycle : c'.cycle = c.cycle + ((gaps 0 p.stops).map (coveringGroups c.group)).sum :=
    cycle_of_replay (c := c.touch) hc.group_pos hi hsorted hreplay
  obtain ⟨hle, hexact⟩ := sum_covered_gaps hc.group_pos p.total (p.events.map ThreadEvent.cycle) hsorted
  refine ⟨p, hplan, hcycle, ?_, ?_⟩
  · rw [hcycle]
    exact Nat.add_le_add_left hle _
  · rw [hcycle, Nat.add_left_cancel_iff]
    exact hexact

/-- Groups of two cycles and an event between them. -/
def evenThreads : List Thread := [⟨"driver", [.cycles 2, .set "a" .drive1, .cycles 4]⟩, ⟨"idler", [.wait ⟨40000⟩]⟩]

theorem even_cycles : Reachable "grouped" twoPins (.standard .v93k) grouped ∧ grouped.inhibitVectors = 0 ∧
    grouped.runThreads evenThreads = (.ok (), (grouped.runThreads evenThreads).2) ∧
      (grouped.runThreads evenThreads).2.cycle = grouped.cycle + 6 := by
  have hreach : Reachable "grouped" twoPins (.standard .v93k) grouped := .performAll groupedProgram
  have hopen : grouped.inhibitVectors = 0 := by decide +kernel
  have hok : grouped.runThreads evenThreads = (.ok (), (grouped.runThreads evenThreads).2) :=
    Prod.ext (by decide +kernel) rfl
  obtain ⟨p, hplan, -, -, hexact⟩ := runThreads_cycles hreach hopen hok
  have hp : grouped.planThreads evenThreads = .ok ⟨[⟨2, 0, 0, "a", .drive1⟩], 6⟩ := by decide +kernel
  obtain rfl := Except.ok.inj (hplan.symm.trans hp)
  exact ⟨hreach, hopen, hok, hexact.mpr (by decide +kernel)⟩

/-- Groups of two cycles and an event inside one of them. -/
def driftingThreads : List Thread := [⟨"driver", [.cycles 1, .set "a" .drive1, .cycles 1]⟩]

theorem drifting_cycles : ∃ c c' p, Reachable "grouped" twoPins (.standard .v93k) c ∧ c.inhibitVectors = 0 ∧
    c.runThreads driftingThreads = (.ok (), c') ∧ c.planThreads driftingThreads = .ok p ∧ p.total = 2 ∧
      c'.cycle = c.cycle + 4 := by
  refine ⟨grouped, (grouped.runThreads driftingThreads).2, ⟨[⟨1, 0, 0, "a", .drive1⟩], 2⟩,
    .performAll groupedProgram, by decide +kernel, Prod.ext (by decide +kernel) rfl, by decide +kernel, rfl,
    by decide +kernel⟩

end Sequencer

end TestProgram
