import TestProgram.Proofs.Pattern.Permutations
import TestProgram.Proofs.Sequencer.Replays

/-!
# Threads in another order

Pin changes on one cycle may be made in any order if they are on different pins
(`replay_swap`). So a replay depends on nothing but the changes of each pin
(`replay_congr`), and threads that set different pins do the same in any order:
they succeed alike and fail alike, and lead to one and the same sequencer
(`runThreads_perm`).
-/

namespace TestProgram

theorem Pinout.set_comm (p : Pinout) {i j : PinId} (h : i ≠ j) (s s' : PinState) :
    (p.set i s).set j s' = (p.set j s').set i s :=
  congrArg Pinout.mk (List.modify_modify_ne _ _ p.pins h)

namespace Sequencer

open Threads (Apart changesOn pinsOf)

variable {c : Sequencer}

/-- The sequencer after a pin change. -/
def driven (c : Sequencer) (pin : String) (s : PinState) : Sequencer := (c.setPin pin s).2

theorem driven_of_id {pin : String} {i : PinId} (h : c.pins.id pin = .ok i) (s : PinState) :
    c.driven pin s = c.touch.withPins (c.pins.set i s) :=
  congrArg Prod.snd (setPin_eq_ok.mpr ⟨i, h, rfl⟩)

/-- Setting a declared pin succeeds. -/
theorem setPin_of_mem {pin : String} (h : pin ∈ c.pins.names) (s : PinState) :
    c.setPin pin s = (.ok (), c.driven pin s) := by
  obtain ⟨i, hi⟩ := Pinout.exists_id_of_mem_names h
  rw [driven_of_id hi]
  exact setPin_eq_ok.mpr ⟨i, hi, rfl⟩

theorem names_driven (pin : String) (s : PinState) : (c.driven pin s).pins.names = c.pins.names :=
  ((c.setPin_settles pin s).moves (A := fun _ => True) (.inr trivial)).names

theorem driven_comm {pin pin' : String} (hne : pin ≠ pin') (h : pin ∈ c.pins.names) (h' : pin' ∈ c.pins.names)
    (s s' : PinState) : (c.driven pin s).driven pin' s' = (c.driven pin' s').driven pin s := by
  obtain ⟨i, hi⟩ := Pinout.exists_id_of_mem_names h
  obtain ⟨j, hj⟩ := Pinout.exists_id_of_mem_names h'
  have hij : i ≠ j := by
    rintro rfl
    exact hne (Pinout.eq_of_id_eq_ok hi hj)
  have hi' : (c.driven pin' s').pins.id pin = .ok i := (Pinout.id_congr (names_driven pin' s') pin).trans hi
  have hj' : (c.driven pin s).pins.id pin' = .ok j := (Pinout.id_congr (names_driven pin s) pin').trans hj
  rw [driven_of_id hj', driven_of_id hi', driven_of_id hi, driven_of_id hj]
  exact congrArg c.touch.withPins (Pinout.set_comm c.pins hij s s')

theorem names_pass (now stop : Nat) : (c.pass now stop).2.pins.names = c.pins.names := by
  unfold pass
  split
  · exact (emits_acrossVectors.delay c _).names
  · rfl

/-- What comes after a step counts only from where the step leads to. -/
theorem andThen_congr {first : Except Fault Unit × Sequencer} {next next' : Sequencer → Except Fault Unit × Sequencer}
    {names : List String} (hnames : first.2.pins.names = names)
    (h : ∀ c : Sequencer, c.pins.names = names → next c = next' c) : andThen first next = andThen first next' := by
  obtain ⟨fault | ⟨⟩, c⟩ := first
  · rfl
  · exact h c hnames

theorem replay_cons_congr {total now : Nat} (e : ThreadEvent) {events events' : List ThreadEvent}
    (h : ∀ c₁ : Sequencer, c₁.pins.names = c.pins.names → ∀ now, c₁.replay total now events = c₁.replay total now events') :
    c.replay total now (e :: events) = c.replay total now (e :: events') :=
  andThen_congr (c.names_pass now e.cycle) fun _ hnames =>
    andThen_congr ((names_driven _ _).trans hnames) fun c₂ hnames => h c₂ hnames _

/-- Changes of different pins on one cycle commute. -/
theorem replay_swap {total now : Nat} {d e : ThreadEvent} {events : List ThreadEvent} (hcycle : d.cycle = e.cycle)
    (hpin : d.pin ≠ e.pin) (hd : d.pin ∈ c.pins.names) (he : e.pin ∈ c.pins.names) :
    c.replay total now (d :: e :: events) = c.replay total now (e :: d :: events) := by
  rw [replay_cons, replay_cons, hcycle]
  refine andThen_congr (c.names_pass now e.cycle) fun c₁ hnames => ?_
  rw [← hnames] at hd he
  have hd' : d.pin ∈ (c₁.driven e.pin e.state).pins.names := by rwa [names_driven]
  have he' : e.pin ∈ (c₁.driven d.pin d.state).pins.names := by rwa [names_driven]
  -- the second change needs no hold
  have hnow (c : Sequencer) : c.pass (max now e.cycle) e.cycle = (.ok (), c) :=
    if_neg (Nat.not_lt.mpr (Nat.le_max_right _ _))
  simp only [setPin_of_mem hd, setPin_of_mem he, andThen, replay_cons, hcycle, hnow, setPin_of_mem hd',
    setPin_of_mem he', driven_comm hpin hd he]

/-- An event may come before those in front of it that are on the same cycle. -/
theorem replay_front {total : Nat} {e : ThreadEvent} {rest : List ThreadEvent} : ∀ {front : List ThreadEvent}
    {c : Sequencer} {now : Nat}, (∀ d ∈ front, d.cycle = e.cycle ∧ d.pin ≠ e.pin ∧ d.pin ∈ c.pins.names) →
      e.pin ∈ c.pins.names → c.replay total now (front ++ e :: rest) = c.replay total now (e :: (front ++ rest))
  | [], _, _, _, _ => rfl
  | d :: front, c, now, hfront, he => by
    obtain ⟨⟨hcycle, hpin, hd⟩, hfront⟩ := List.forall_mem_cons.mp hfront
    calc c.replay total now (d :: (front ++ e :: rest))
        = c.replay total now (d :: e :: (front ++ rest)) := replay_cons_congr d fun c₁ hnames now =>
          replay_front (by rwa [hnames]) (by rwa [hnames])
      _ = c.replay total now (e :: d :: (front ++ rest)) := replay_swap hcycle hpin hd he

/-- A replay depends on nothing but the changes of each pin. -/
theorem replay_congr {total : Nat} : ∀ {events events' : List ThreadEvent} {c : Sequencer} {now : Nat},
    events.Pairwise (fun a b => a.cycle ≤ b.cycle) → events'.Pairwise (fun a b => a.cycle ≤ b.cycle) →
      (∀ e ∈ events, e.pin ∈ c.pins.names) → (∀ pin, changesOn pin events = changesOn pin events') →
        c.replay total now events = c.replay total now events'
  | [], [], _, _, _, _, _, _ => rfl
  | [], e :: events', _, _, _, _, _, hsame => by
    have hnone := hsame e.pin
    rw [Threads.changesOn_cons, if_pos rfl] at hnone
    exact nomatch hnone
  | e :: events, events', c, now, hsorted, hsorted', hdeclared, hsame => by
    obtain ⟨front, e', rest, rfl, hpin, hchange, hfront, hrest⟩ := Threads.exists_match hsorted hsorted' hsame
    obtain ⟨hcycle, hstate⟩ := Prod.mk.inj hchange
    have hsorted' : (front ++ rest).Pairwise fun a b => a.cycle ≤ b.cycle :=
      hsorted'.sublist (List.Sublist.append_left (List.sublist_cons_self _ _) front)
    have hfront' : ∀ d ∈ front, d.cycle = e'.cycle ∧ d.pin ≠ e'.pin ∧ d.pin ∈ c.pins.names := by
      intro d hd
      obtain ⟨hd, hne, x, hx, hxpin⟩ := hfront d hd
      exact ⟨hd, hne, hxpin ▸ hdeclared x hx⟩
    have he' : e'.pin ∈ c.pins.names := hpin ▸ hdeclared e List.mem_cons_self
    calc c.replay total now (e :: events)
        = c.replay total now (e :: (front ++ rest)) := replay_cons_congr e fun c₁ hnames now =>
          replay_congr (List.pairwise_cons.mp hsorted).2 hsorted'
            (by rw [hnames]; exact fun x hx => hdeclared x (List.mem_cons_of_mem _ hx)) hrest
      _ = c.replay total now (e' :: (front ++ rest)) := by rw [replay, replay, hcycle, hstate, hpin]
      _ = c.replay total now (front ++ e' :: rest) := (replay_front hfront' he').symm

/-! ## Sets of threads -/

/-- Waits fail for want of a period, however long they are. -/
theorem fault?_cyclesFor (timing : Timing) (rounding : Rounding) (d d' : Duration) :
    Threads.fault? (fun d => timing.cyclesFor d rounding) d = Threads.fault? (fun d => timing.cyclesFor d rounding) d' := by
  unfold Threads.fault? Timing.cyclesFor
  cases timing.currentPeriod <;> rfl

/-- Threads that set different pins do the same in any order. -/
theorem runThreads_perm {threads threads' : List Thread} (hperm : threads.Perm threads')
    (hdeclared : ∀ t ∈ threads, ∀ pin ∈ pinsOf t, pin ∈ c.pins.names)
    (hapart : threads.Pairwise Apart) : c.runThreads threads = c.runThreads threads' := by
  have hplans := Threads.plan_perm (fault?_cyclesFor c.timing c.config.rounding) hperm hapart
  rw [runThreads, runThreads]
  rcases hplans with ⟨e, hplan, hplan'⟩ | ⟨p, p', hplan, hplan', htotal, hsame⟩
  · rw [show c.touch.planThreads threads = _ from hplan, show c.touch.planThreads threads' = _ from hplan']
  · rw [show c.touch.planThreads threads = _ from hplan, show c.touch.planThreads threads' = _ from hplan']
    have hcycles {threads : List Thread} {p : ThreadPlan} (h : c.planThreads threads = .ok p) :
        p.events.Pairwise fun a b => a.cycle ≤ b.cycle :=
      List.pairwise_map.mp (List.pairwise_append.mp (List.pairwise_cons.mp (Threads.pairwise_stops h)).2).1
    dsimp only
    rw [htotal]
    refine replay_congr (c := c.touch) (hcycles hplan) (hcycles hplan') (fun e he => ?_) hsame
    obtain ⟨t, ht, hstep⟩ := Threads.exists_of_mem_plan hplan e he
    exact hdeclared t ht e.pin (Threads.mem_pinsOf hstep)

/-- Two threads that change different pins on one cycle. -/
def drivesA : Thread := ⟨"first", [.cycles 1, .set "a" .drive1, .cycles 2]⟩

def drivesB : Thread := ⟨"second", [.cycles 1, .set "b" .drive0, .set "b" .drive1]⟩

/-- The order of their events depends on that of the threads, and the run does not. -/
theorem swapped_threads_agree :
    (∀ c : Sequencer, c.planThreads [drivesA, drivesB] =
      .ok ⟨[⟨1, 0, 0, "a", .drive1⟩, ⟨1, 1, 1, "b", .drive0⟩, ⟨1, 1, 2, "b", .drive1⟩], 3⟩) ∧
    (∀ c : Sequencer, c.planThreads [drivesB, drivesA] =
      .ok ⟨[⟨1, 0, 0, "b", .drive0⟩, ⟨1, 0, 1, "b", .drive1⟩, ⟨1, 1, 2, "a", .drive1⟩], 3⟩) ∧
    [drivesA, drivesB].Perm [drivesB, drivesA] ∧ [drivesA, drivesB].Pairwise Apart ∧
      grouped.runThreads [drivesA, drivesB] = grouped.runThreads [drivesB, drivesA] := by
  have hperm : [drivesA, drivesB].Perm [drivesB, drivesA] := .swap _ _ _
  have hapart : [drivesA, drivesB].Pairwise Apart := by decide
  have hdeclared : ∀ t ∈ [drivesA, drivesB], ∀ pin ∈ pinsOf t, pin ∈ grouped.pins.names := by decide +kernel
  exact ⟨fun c => by cbv, fun c => by cbv, hperm, hapart, runThreads_perm hperm hdeclared hapart⟩

end Sequencer

end TestProgram
