import TestProgram.Proofs.Pattern.Barriers

/-!
# Plans of the same threads in another order

The timeline of a plan does not depend on the order of its threads
(`base_perm`), and neither do the events on a pin that only one thread sets
(`changesOn_perm`). What depends on it is the order of the events of different
threads on one cycle, and the fault of a wait if waits fail for different
reasons (`plan_perm`).
-/

namespace TestProgram

namespace Threads

/-- The pins that a thread sets. -/
def pinsOf (t : Thread) : List String :=
  t.steps.filterMap fun
    | .set pin _ => some pin
    | _ => none

theorem mem_pinsOf {t : Thread} {pin : String} {s : PinState} (h : .set pin s ∈ t.steps) : pin ∈ pinsOf t :=
  List.mem_filterMap.mpr ⟨_, h, rfl⟩

/-- The threads set different pins. -/
def Apart (t u : Thread) : Prop := ∀ pin ∈ pinsOf t, pin ∉ pinsOf u

instance (t u : Thread) : Decidable (Apart t u) := inferInstanceAs (Decidable (∀ pin ∈ pinsOf t, pin ∉ pinsOf u))

theorem Apart.symm {t u : Thread} (h : Apart t u) : Apart u t := fun pin hu ht => h pin ht hu

/-- The events on a pin, by their cycles. -/
def changesOn (pin : String) (events : List ThreadEvent) : List (Nat × PinState) :=
  (events.filter fun e => e.pin == pin).map fun e => (e.cycle, e.state)

/-- The changes of a pin, by the cycles that they fall on if the rounds start at `start`. -/
def timelineOf (start : Nat → Nat) (pin : String) (changes : List Change) : List (Nat × PinState) :=
  (changes.filter fun c => c.pin == pin).map fun c => (start c.round + c.offset, c.state)

section

variable {pin : String} {events : List ThreadEvent}

theorem changesOn_append (events' : List ThreadEvent) :
    changesOn pin (events ++ events') = changesOn pin events ++ changesOn pin events' := by
  rw [changesOn, List.filter_append, List.map_append, ← changesOn, ← changesOn]

theorem changesOn_cons (e : ThreadEvent) : changesOn pin (e :: events) =
    if e.pin = pin then (e.cycle, e.state) :: changesOn pin events else changesOn pin events := by
  rw [changesOn, List.filter_cons]
  by_cases h : e.pin = pin
  · rw [if_pos (beq_iff_eq.mpr h), if_pos h, List.map_cons, ← changesOn]
  · rw [if_neg (fun heq => h (beq_iff_eq.mp heq)), if_neg h, ← changesOn]

theorem mem_changesOn {x : Nat × PinState} :
    x ∈ changesOn pin events ↔ ∃ e ∈ events, e.pin = pin ∧ (e.cycle, e.state) = x := by
  simp only [changesOn, List.mem_map, List.mem_filter, beq_iff_eq, and_assoc]

/-- The first event on a pin, with events on other pins in front of it. -/
theorem exists_first_of_changesOn {x : Nat × PinState} {changes : List (Nat × PinState)}
    (h : changesOn pin events = x :: changes) : ∃ front e rest, events = front ++ e :: rest ∧
      (∀ d ∈ front, d.pin ≠ pin) ∧ e.pin = pin ∧ (e.cycle, e.state) = x := by
  obtain ⟨e, _, hfilter, hx, -⟩ := List.map_eq_cons_iff.mp h
  obtain ⟨front, rest, rfl, hfront, hpin, -⟩ := List.filter_eq_cons_iff.mp hfilter
  exact ⟨front, e, rest, rfl, fun d hd heq => hfront d hd (beq_iff_eq.mpr heq), beq_iff_eq.mp hpin, hx⟩

/-- Two rows of events with the same changes on every pin: the second one has the
first event of the first one too, with nothing in front of it but events on other
pins on the same cycle. Without it, they have the same changes still. -/
theorem exists_match {e : ThreadEvent} {events' : List ThreadEvent}
    (hsorted : (e :: events).Pairwise fun a b => a.cycle ≤ b.cycle)
    (hsorted' : events'.Pairwise fun a b => a.cycle ≤ b.cycle)
    (hsame : ∀ pin, changesOn pin (e :: events) = changesOn pin events') :
    ∃ front e' rest, events' = front ++ e' :: rest ∧ e'.pin = e.pin ∧ (e'.cycle, e'.state) = (e.cycle, e.state) ∧
      (∀ d ∈ front, d.cycle = e'.cycle ∧ d.pin ≠ e'.pin ∧ ∃ x ∈ e :: events, x.pin = d.pin) ∧
        ∀ pin, changesOn pin events = changesOn pin (front ++ rest) := by
  have hown := hsame e.pin
  rw [changesOn_cons, if_pos rfl] at hown
  obtain ⟨front, e', rest, rfl, hfront, hpin, hchange⟩ := exists_first_of_changesOn hown.symm
  refine ⟨front, e', rest, rfl, hpin, hchange, fun d hd => ?_, fun pin => ?_⟩
  · -- the event has a counterpart in the first row
    have hmem : (d.cycle, d.state) ∈ changesOn d.pin (e :: events) := by
      rw [hsame d.pin]
      exact mem_changesOn.mpr ⟨d, List.mem_append_left _ hd, rfl, rfl⟩
    obtain ⟨x, hx, hxpin, hxchange⟩ := mem_changesOn.mp hmem
    have hle : d.cycle ≤ e'.cycle := (List.pairwise_append.mp hsorted').2.2 d hd e' List.mem_cons_self
    have hge : e.cycle ≤ x.cycle := by
      rcases List.mem_cons.mp hx with rfl | hx
      · exact Nat.le_refl _
      · exact (List.pairwise_cons.mp hsorted).1 x hx
    rw [(Prod.mk.inj hxchange).1, ← (Prod.mk.inj hchange).1] at hge
    exact ⟨Nat.le_antisymm hle hge, by rw [hpin]; exact hfront d hd, x, hx, hxpin⟩
  · have hsame := hsame pin
    rw [changesOn_append, changesOn_cons, changesOn_cons, hpin] at hsame
    rw [changesOn_append]
    split at hsame
    · rename_i hpin
      have hnone : changesOn pin front = [] := List.eq_nil_iff_forall_not_mem.mpr fun x hx => by
        obtain ⟨d, hd, hdpin, -⟩ := mem_changesOn.mp hx
        exact hfront d hd (hdpin.trans hpin.symm)
      rw [hnone] at hsame ⊢
      exact (List.cons.inj hsame).2
    · exact hsame

end

variable {toCycles : Duration → Except Fault Nat} {threads threads' : List Thread}

/-! ## The timeline -/

theorem max?_perm {l l' : List Nat} (h : l.Perm l') : l.max?.getD 0 = l'.max?.getD 0 := by
  have hfold (l : List Nat) : l.foldl max 0 = l.max?.getD 0 := by rw [List.foldl_max, Nat.zero_max]
  rw [← hfold, ← hfold, h.foldl_eq]

theorem roundCount_perm (h : threads.Perm threads') : roundCount threads = roundCount threads' := max?_perm (h.map _)

theorem roundSegments_perm (h : threads.Perm threads') (r : Nat) :
    (roundSegments threads r).Perm (roundSegments threads' r) := h.map _

theorem base_perm (h : threads.Perm threads') : base toCycles threads = base toCycles threads' := by
  funext r
  induction r with
  | zero => rfl
  | succ r ih => rw [base, base, ih, longest, longest, max?_perm ((roundSegments_perm h r).map _)]

theorem waits_perm (h : threads.Perm threads') : (waits threads).Perm (waits threads') := by
  rw [waits, waits, roundCount_perm h]
  exact List.Perm.flatMap_left _ fun r _ => (roundSegments_perm h r).flatMap_right _

/-- If all durations fail alike or none does, it does not matter which comes first. -/
theorem findSome?_perm {α β : Type} {f : α → Option β} (hf : ∀ a b, f a = f b) {l l' : List α} (h : l.Perm l') :
    l.findSome? f = l'.findSome? f := by
  induction h with
  | nil => rfl
  | cons a _ ih => rw [List.findSome?_cons, List.findSome?_cons, ih]
  | swap a b l => simp only [List.findSome?_cons, hf b a]
  | trans _ _ ih₁ ih₂ => exact ih₁.trans ih₂

/-! ## Events on a pin -/

/-- Every change that a thread asks for is one of its steps. -/
theorem set_mem_of_mem_changesFrom {i : Nat} {c : Change} : ∀ {steps : List ThreadStep} {round offset : Nat},
    c ∈ changesFrom toCycles i round offset steps → .set c.pin c.state ∈ steps
  | .set _ _ :: _, _, _, h => by
    rcases List.mem_cons.mp h with rfl | h
    · exact List.mem_cons_self
    · exact List.mem_cons_of_mem _ (set_mem_of_mem_changesFrom h)
  | .cycles _ :: _, _, _, h | .wait _ :: _, _, _, h | .sync :: _, _, _, h =>
    List.mem_cons_of_mem _ (set_mem_of_mem_changesFrom h)

/-- When a thread changes a pin does not depend on its position. -/
theorem timelineOf_changesFrom (start : Nat → Nat) (pin : String) (i j : Nat) : ∀ (steps : List ThreadStep)
    (round offset : Nat), timelineOf start pin (changesFrom toCycles i round offset steps) =
      timelineOf start pin (changesFrom toCycles j round offset steps)
  | [], _, _ => rfl
  | .set name s :: steps, round, offset => by
    have ih := timelineOf_changesFrom start pin i j steps round offset
    unfold timelineOf at ih
    simp only [changesFrom, timelineOf, List.filter_cons]
    split
    · rw [List.map_cons, List.map_cons, ih]
    · exact ih
  | .cycles n :: steps, round, offset => timelineOf_changesFrom start pin i j steps round (offset + n)
  | .wait d :: steps, round, offset =>
    timelineOf_changesFrom start pin i j steps round (offset + waitCycles toCycles d)
  | .sync :: steps, round, _ => timelineOf_changesFrom start pin i j steps (round + 1) 0

/-- Only one of the threads sets a pin. -/
theorem eq_of_mem_pinsOf (h : threads.Pairwise Apart) {i j : Nat} {t u : Thread} {pin : String}
    (hi : threads[i]? = some t) (hj : threads[j]? = some u) (ht : pin ∈ pinsOf t) (hu : pin ∈ pinsOf u) : i = j := by
  obtain ⟨hil, rfl⟩ := List.getElem?_eq_some_iff.mp hi
  obtain ⟨hjl, rfl⟩ := List.getElem?_eq_some_iff.mp hj
  have hapart := List.pairwise_iff_getElem.mp h
  rcases Nat.lt_trichotomy i j with hlt | rfl | hlt
  · exact absurd hu (hapart i j hil hjl hlt pin ht)
  · rfl
  · exact absurd ht (hapart j i hjl hil hlt pin hu)

namespace Sources

variable {p : ThreadPlan} {sources : List Change}

theorem changesOn_eq (h : Sources toCycles threads p sources) (pin : String) :
    changesOn pin p.events = timelineOf (base toCycles threads) pin sources := by
  have hevents := congrArg (fun l => (l.filter fun x => x.2.2.1 == pin).map fun x => (x.1, x.2.2.2)) h.events
  simp only [List.filter_map, List.map_map] at hevents
  exact hevents

theorem getElem?_of_mem (h : Sources toCycles threads p sources) {c : Change} (hc : c ∈ sources) :
    ∃ t, threads[c.thread]? = some t ∧ c.pin ∈ pinsOf t := by
  have hown : c ∈ changesOf toCycles threads c.thread := by
    rw [← h.program]
    exact List.mem_filter.mpr ⟨hc, beq_self_eq_true _⟩
  unfold changesOf at hown
  split at hown
  · exact absurd hown List.not_mem_nil
  · rename_i t ht
    exact ⟨t, ht, mem_pinsOf (set_mem_of_mem_changesFrom hown)⟩

/-- The events on a pin are those of the thread that sets it. -/
theorem changesOn_of_mem_pinsOf (h : Sources toCycles threads p sources) (hapart : threads.Pairwise Apart) {i : Nat}
    {t : Thread} (hi : threads[i]? = some t) {pin : String} (hset : pin ∈ pinsOf t) :
    changesOn pin p.events = timelineOf (base toCycles threads) pin (changesFrom toCycles i 0 0 t.steps) := by
  have hown : changesFrom toCycles i 0 0 t.steps = sources.filter fun c => c.thread == i := by
    rw [h.program, changesOf, hi]
  rw [h.changesOn_eq, hown, timelineOf, timelineOf, List.filter_filter]
  refine congrArg _ (List.filter_congr fun c hc => ?_)
  obtain ⟨u, hu, hpin⟩ := h.getElem?_of_mem hc
  rw [Bool.eq_iff_iff, Bool.and_eq_true, beq_iff_eq, beq_iff_eq]
  refine ⟨?_, And.left⟩
  rintro rfl
  exact ⟨rfl, eq_of_mem_pinsOf hapart hu hi hpin hset⟩

theorem changesOn_eq_nil (h : Sources toCycles threads p sources) {pin : String}
    (hnone : ∀ t ∈ threads, pin ∉ pinsOf t) : changesOn pin p.events = [] := by
  rw [h.changesOn_eq, timelineOf, List.map_eq_nil_iff, List.filter_eq_nil_iff]
  intro c hc hpin
  obtain ⟨t, ht, hset⟩ := h.getElem?_of_mem hc
  rw [beq_iff_eq.mp hpin] at hset
  exact hnone t (List.mem_of_getElem? ht) hset

end Sources

theorem changesOn_perm (hperm : threads.Perm threads') (hapart : threads.Pairwise Apart) {p p' : ThreadPlan}
    (h : plan toCycles threads = .ok p) (h' : plan toCycles threads' = .ok p') (pin : String) :
    changesOn pin p.events = changesOn pin p'.events := by
  obtain ⟨sources, hs⟩ := sources_of_plan h
  obtain ⟨sources', hs'⟩ := sources_of_plan h'
  by_cases hset : ∃ t ∈ threads, pin ∈ pinsOf t
  · obtain ⟨t, ht, hset⟩ := hset
    obtain ⟨i, hi⟩ := List.mem_iff_getElem?.mp ht
    obtain ⟨j, hj⟩ := List.mem_iff_getElem?.mp (hperm.mem_iff.mp ht)
    have hapart' : threads'.Pairwise Apart := (hperm.pairwise_iff Apart.symm).mp hapart
    rw [hs.changesOn_of_mem_pinsOf hapart hi hset, hs'.changesOn_of_mem_pinsOf hapart' hj hset, base_perm hperm]
    exact timelineOf_changesFrom _ pin i j t.steps 0 0
  · push Not at hset
    rw [hs.changesOn_eq_nil hset, hs'.changesOn_eq_nil fun t ht => hset t (hperm.mem_iff.mpr ht)]

/-- Threads that set different pins have the same plan in any order, up to the order of their events
on one cycle. -/
theorem plan_perm (hfault : ∀ d d', fault? toCycles d = fault? toCycles d') (hperm : threads.Perm threads')
    (hapart : threads.Pairwise Apart) :
    (∃ e, plan toCycles threads = .error e ∧ plan toCycles threads' = .error e) ∨
      ∃ p p', plan toCycles threads = .ok p ∧ plan toCycles threads' = .ok p' ∧ p.total = p'.total ∧
        ∀ pin, changesOn pin p.events = changesOn pin p'.events := by
  have heq := plan_eq toCycles threads
  have heq' := plan_eq toCycles threads'
  rw [converted, findSome?_perm hfault (waits_perm hperm)] at heq
  rw [converted] at heq'
  cases hfirst : (waits threads').findSome? (fault? toCycles) with
  | some e =>
    rw [hfirst] at heq heq'
    exact .inl ⟨e, heq, heq'⟩
  | none =>
    rw [hfirst] at heq heq'
    refine .inr ⟨_, _, heq, heq', ?_, changesOn_perm hperm hapart heq heq'⟩
    show base toCycles threads (roundCount threads) = base toCycles threads' (roundCount threads')
    rw [base_perm hperm, roundCount_perm hperm]

end Threads

end TestProgram
