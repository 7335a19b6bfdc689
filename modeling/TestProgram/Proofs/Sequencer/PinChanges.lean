import TestProgram.Proofs.Bench.StillPins
import TestProgram.Proofs.Sequencer.Replays

/-!
# Where the pin changes of threads land

Threads that run in groups of one cycle change pins on the cycles that their
plan says. A pin that keeps still otherwise (`Still`) shows in every cycle the
state of the last event on it up to then (`stateAfter`, `replay_shows`).
`thread_changes_land` says so of sets of threads.
-/

namespace TestProgram

/-- The state of a pin after events, which was `before` in front of them. -/
def stateAfter (pin : String) (before : PinState) (events : List ThreadEvent) : PinState :=
  ((events.filter fun e => e.pin == pin).getLast?.map ThreadEvent.state).getD before

theorem stateAfter_cons (pin : String) (before : PinState) (e : ThreadEvent) (events : List ThreadEvent) :
    stateAfter pin before (e :: events) = stateAfter pin (if e.pin = pin then e.state else before) events := by
  unfold stateAfter
  rw [List.filter_cons]
  by_cases h : e.pin = pin
  · rw [if_pos (beq_iff_eq.mpr h), if_pos h, List.getLast?_cons]
    cases (events.filter fun e => e.pin == pin).getLast? <;> rfl
  · rw [if_neg (fun heq => h (beq_iff_eq.mp heq)), if_neg h]

/-- Events that are still to come change nothing. -/
theorem stateAfter_of_forall_lt {pin : String} {before : PinState} {events : List ThreadEvent} {cycle : Nat}
    (h : ∀ e ∈ events, cycle < e.cycle) :
    stateAfter pin before (events.filter fun e => decide (e.cycle ≤ cycle)) = before := by
  have hnone : (events.filter fun e => decide (e.cycle ≤ cycle)) = [] :=
    List.filter_eq_nil_iff.mpr fun e he hle => absurd (of_decide_eq_true hle) (Nat.not_le.mpr (h e he))
  rw [hnone]
  rfl

/-- What a pin shows in the cycles from `now` to `total` of a plan, the first of
which is emitted as the cycle `start`. -/
def plannedTrace (start : Nat) (pin : String) (before : PinState) (now total : Nat) (events : List ThreadEvent) :
    List (Nat × Option PinState) :=
  (List.range (total - now)).map fun k =>
    (start + k, some (stateAfter pin before (events.filter fun e => decide (e.cycle ≤ now + k))))

/-- Up to its first event a plan shows the state before it. -/
theorem plannedTrace_cons {start : Nat} {pin : String} {before : PinState} {now total : Nat} {e : ThreadEvent}
    {events : List ThreadEvent}
    (hsorted : (now :: ((e :: events).map ThreadEvent.cycle ++ [total])).Pairwise (· ≤ ·)) :
    plannedTrace start pin before now total (e :: events) =
      (List.range (e.cycle - now)).map (fun k => (start + k, some before)) ++
        plannedTrace (start + (e.cycle - now)) pin (if e.pin = pin then e.state else before) e.cycle total events := by
  obtain ⟨hnow, hsorted⟩ := List.pairwise_cons.mp hsorted
  obtain ⟨hnext, -⟩ := List.pairwise_cons.mp hsorted
  have hfirst : now ≤ e.cycle := hnow e.cycle List.mem_cons_self
  have hlast : e.cycle ≤ total := hnext total (List.mem_append_right _ List.mem_cons_self)
  have hsplit : total - now = (e.cycle - now) + (total - e.cycle) := by omega
  rw [plannedTrace, hsplit, List.range_add, List.map_append, List.map_map, plannedTrace]
  refine congrArg₂ _ (List.map_congr_left fun k hk => ?_) (List.map_congr_left fun k _ => ?_)
  · have hbefore := List.mem_range.mp hk
    rw [stateAfter_of_forall_lt]
    intro d hd
    rcases List.mem_cons.mp hd with rfl | hd
    · omega
    · have hle : e.cycle ≤ d.cycle := hnext _ (List.mem_append_left _ (List.mem_map_of_mem hd))
      omega
  · have hcycles : now + (e.cycle - now + k) = e.cycle + k := by omega
    have hdue : decide (e.cycle ≤ e.cycle + k) = true := decide_eq_true (Nat.le_add_right _ _)
    rw [Function.comp_apply, hcycles, List.filter_cons, if_pos hdue, stateAfter_cons, Nat.add_assoc]

namespace Sequencer

/-- In groups of one cycle a hold takes what it is asked to. -/
theorem passed_pass_one {c c' : Sequencer} (hg : c.group = 1) (hi : c.inhibitVectors = 0) {now stop : Nat}
    (h : c.pass now stop = (.ok (), c')) : Passed (stop - now) c c' := by
  have hpos : 0 < c.group := by rw [hg]; exact Nat.one_pos
  have hcover : coveringGroups c.group (stop - now) = stop - now :=
    coveringGroups_eq_iff.mpr (by rw [hg]; exact Nat.one_dvd _)
  rw [← hcover]
  exact passed_pass hpos hi h

/-- While cycles go by, pins that keep still show their states. -/
theorem Passed.shows {n : Nat} {c c' : Sequencer} (h : Passed n c c') :
    ∃ new, c'.records = c.records ++ new ∧ ∀ {i : PinId} {s : PinState}, Still i s c.bench.moment →
      pinTrace i (new.flatMap VectorRecord.cycles) = (List.range n).map (fun k => (c.cycle + k, some s)) ∧
        Still i s c'.bench.moment := by
  obtain ⟨timeset, new, hrecords, hfilm⟩ := h.records
  refine ⟨new, hrecords, fun hstill => ?_⟩
  rw [hfilm, h.moment]
  exact ⟨hstill.film timeset c.group n, hstill.iterate n⟩

/-- Setting a pin by its name sets this pin and no other. -/
theorem still_setPin {c c' : Sequencer} {pin name : String} {i : PinId} {s s' : PinState} (hid : c.pins.id pin = .ok i)
    (h : Still i s c.bench.moment) (hset : c.setPin name s' = (.ok (), c')) :
    c'.pins.id pin = .ok i ∧ Still i (if name = pin then s' else s) c'.bench.moment := by
  obtain ⟨j, hj, rfl⟩ := setPin_eq_ok.mp hset
  have hname : name = pin ↔ j = i := by
    constructor
    · rintro rfl
      exact Except.ok.inj (hj.symm.trans hid)
    · rintro rfl
      exact Pinout.eq_of_id_eq_ok hj hid
  rw [if_congr hname rfl rfl]
  exact ⟨(Pinout.id_congr (Pinout.names_set _ _ _) pin).trans hid, h.set j s'⟩

/-- The cycles of a replay, as pins show them that keep still. -/
theorem replay_shows {total : Nat} {c' : Sequencer} : ∀ {events : List ThreadEvent} {now : Nat} {c : Sequencer},
    c.group = 1 → c.inhibitVectors = 0 → (now :: (events.map ThreadEvent.cycle ++ [total])).Pairwise (· ≤ ·) →
      c.replay total now events = (.ok (), c') →
        ∃ new, c'.records = c.records ++ new ∧
          ∀ {pin : String} {i : PinId} {s : PinState}, c.pins.id pin = .ok i → Still i s c.bench.moment →
            pinTrace i (new.flatMap VectorRecord.cycles) = plannedTrace c.cycle pin s now total events ∧
            Still i (stateAfter pin s events) c'.bench.moment
  | [], now, c, hg, hi, _, h => by
    obtain ⟨new, hrecords, hshows⟩ := (passed_pass_one hg hi h).shows
    exact ⟨new, hrecords, fun _ hstill => hshows hstill⟩
  | e :: events, now, c, hg, hi, hsorted, h => by
    obtain ⟨c₁, c₂, hpass, hset, hrest⟩ := replay_cons_eq_ok.mp h
    obtain ⟨hnow, hsorted'⟩ := List.pairwise_cons.mp hsorted
    have hpassed := passed_pass_one hg hi hpass
    obtain ⟨new₁, hrecords₁, hshows₁⟩ := hpassed.shows
    obtain ⟨j, -, rfl⟩ := setPin_eq_ok.mp hset
    rw [Nat.max_eq_right (hnow e.cycle List.mem_cons_self)] at hrest
    obtain ⟨new₂, hrecords₂, hshows₂⟩ := replay_shows (by exact hpassed.group.trans hg)
      (by exact hpassed.inhibitVectors.trans hi) hsorted' hrest
    refine ⟨new₁ ++ new₂, ?_, fun {pin i s} hid hstill => ?_⟩
    · rw [hrecords₂, ← List.append_assoc, ← hrecords₁]
      rfl
    · obtain ⟨htrace₁, hstill₁⟩ := hshows₁ hstill
      obtain ⟨hid₂, hstill₂⟩ := still_setPin ((Pinout.id_congr hpassed.names pin).trans hid) hstill₁ hset
      obtain ⟨htrace₂, hlast⟩ := hshows₂ hid₂ hstill₂
      have hcycle : (c₁.touch.withPins (c₁.pins.set j e.state)).cycle = c.cycle + (e.cycle - now) := hpassed.cycle
      rw [hcycle] at htrace₂
      rw [stateAfter_cons, List.flatMap_append, pinTrace_append, htrace₁, htrace₂, plannedTrace_cons hsorted]
      exact ⟨rfl, hlast⟩

/-- Threads in groups of one cycle change a pin on the cycles of their events:
every emitted cycle shows the last event on the pin that is not after it. -/
theorem thread_changes_land {c c' : Sequencer} (hg : c.group = 1) (hi : c.inhibitVectors = 0) {threads : List Thread}
    (h : c.runThreads threads = (.ok (), c')) :
    ∃ p new, c.planThreads threads = .ok p ∧ c'.records = c.records ++ new ∧
      ∀ pin i, c.pins.id pin = .ok i → c.pins.masks i = 0 → c.clocks.next? i = none →
        pinTrace i (new.flatMap VectorRecord.cycles) = (List.range p.total).map (fun k =>
          (c.cycle + k, some (stateAfter pin (c.pins.state i) (p.events.filter fun e => decide (e.cycle ≤ k))))) ∧
        c'.pins.state i = stateAfter pin (c.pins.state i) p.events := by
  obtain ⟨p, hplan, hreplay⟩ := runThreads_eq_ok.mp h
  obtain ⟨new, hrecords, hshows⟩ := replay_shows (c := c.touch) hg hi (Threads.pairwise_stops hplan) hreplay
  refine ⟨p, new, hplan, hrecords, fun pin i hid hmasks hclock => ?_⟩
  have hstill : Still i (c.pins.state i) c.bench.moment := ⟨hclock, rfl, hmasks, Pinout.lt_of_id_eq_ok hid⟩
  obtain ⟨htrace, hlast⟩ := hshows hid hstill
  simp only [plannedTrace, Nat.zero_add] at htrace
  exact ⟨htrace, hlast.state⟩

/-- A clock with three cycles between its edges, on a tester that holds a vector
for at most two. -/
def clockedProgram : List Operation :=
  [.setTimeset "tp" (some ⟨40000⟩), .enableClock "b" (.ofMegahertz 4), .startClock "b"]

def clocked : Sequencer :=
  (Operation.performAll clockedProgram
    (new "clocked" twoPins { Config.standard .v93k with maxRepeat := some 2 })).2

/-- Changes on one cycle, after the last cycle, and in two threads. -/
def landingThreads : List Thread :=
  [⟨"driver", [.set "a" .drive1, .cycles 4, .set "a" .drive0, .set "a" .compare1, .sync, .set "a" .compare0]⟩,
    ⟨"other", [.cycles 2, .set "a" .dontCare, .cycles 3]⟩]

def landingPlan : ThreadPlan :=
  ⟨[⟨0, 0, 0, "a", .drive1⟩, ⟨2, 1, 3, "a", .dontCare⟩, ⟨4, 0, 1, "a", .drive0⟩, ⟨4, 0, 2, "a", .compare1⟩,
    ⟨5, 0, 4, "a", .compare0⟩], 5⟩

def landed : Sequencer := (clocked.touch.replay landingPlan.total 0 landingPlan.events).2

theorem landing_changes : clocked.group = 1 ∧ clocked.inhibitVectors = 0 ∧ clocked.clocks.next? 1 = some 3 ∧
    clocked.runThreads landingThreads = (.ok (), landed) ∧ ∃ new, landed.records = clocked.records ++ new ∧
      pinTrace 0 (new.flatMap VectorRecord.cycles) =
        [(0, some .drive1), (1, some .drive1), (2, some .dontCare), (3, some .dontCare), (4, some .compare1)] ∧
      landed.pins.state 0 = .compare0 := by
  have hgroup : clocked.group = 1 := by decide +kernel
  have hopen : clocked.inhibitVectors = 0 := by decide +kernel
  have hplan : ∀ c : Sequencer, c.planThreads landingThreads = .ok landingPlan := fun c => by cbv
  have hok : clocked.runThreads landingThreads = (.ok (), landed) :=
    runThreads_eq_ok.mpr ⟨landingPlan, hplan clocked, Prod.ext (by decide +kernel) (by rw [landed])⟩
  obtain ⟨p, new, hp, hrecords, hland⟩ := thread_changes_land hgroup hopen hok
  obtain rfl := Except.ok.inj ((hplan clocked).symm.trans hp)
  obtain ⟨htrace, hlast⟩ := hland "a" 0 (by decide +kernel) (by decide +kernel) (by decide +kernel)
  exact ⟨hgroup, hopen, by decide +kernel, hok, new, hrecords, htrace.trans (by decide +kernel),
    hlast.trans (by decide +kernel)⟩

end Sequencer

end TestProgram
