import Mathlib.Data.List.Nodup
import TestProgram.Clock.Slices

/-!
# Clock edges

The edges that a running clock has before it stay the same when cycles without
an edge of it go by, or its next edge is over (`Clock.Waits.comes_pass`). In a
run, nothing comes before the edge that it is cut at first
(`Slice.waits_of_firstEdge`). A bank has one clock on a pin at most, so a pin
leads to its clock (`ClockBank.find?_eq_some_iff`), and committing the edges at
a cycle pin by pin moves exactly the clocks that have one on
(`clocks_foldl_advance`). What the end of a slice does to the bank is therefore
what `Slice.pass` does to the clocks that the slice was cut by
(`running_foldl_advance`).
-/

namespace TestProgram

/-! ## One clock -/

namespace Clock

theorem next?_eq_some_iff {c : Clock} {e : Nat} : c.next? = some e ↔ c.status = .running e := by
  obtain ⟨pin, frequency, half, status⟩ := c
  cases status <;> simp [next?]

theorem isRunning_of_next? {c : Clock} {e : Nat} (h : c.next? = some e) : c.isRunning = true := by
  rw [isRunning, h]
  rfl

theorem isRunning_advance (c : Clock) : c.advance.isRunning = c.isRunning := by
  obtain ⟨pin, frequency, half, status⟩ := c
  cases status <;> rfl

theorem pin_passed (c : Clock) (e : Nat) : (if c.next? = some e then c.advance else c).pin = c.pin := by
  split
  · exact c.pin_advance
  · rfl

theorem Ordered.pass {clocks : List Clock} (h : Ordered clocks) (e : Nat) : Ordered (Slice.pass clocks e) :=
  h.map fun c => c.pin_passed e

theorem half_advance (c : Clock) : c.advance.half = c.half := by
  obtain ⟨pin, frequency, half, status⟩ := c
  cases status <;> rfl

/-- A running clock that has its next edge after the cycle `now` has this one or a later one at `e`. -/
def Comes (now : Nat) (c : Clock) (e : Nat) : Prop :=
  ∃ next, c.status = .running next ∧ now < next ∧ ∃ i, e = next + i * c.half

theorem Comes.lt {now e : Nat} {c : Clock} (h : c.Comes now e) : now < e := by
  obtain ⟨next, -, hnow, i, rfl⟩ := h
  omega

/-- No edge of the clock comes after the cycle `now` and before `e`. -/
def Waits (now e : Nat) (c : Clock) : Prop := ∀ next, c.next? = some next → now < next → e ≤ next

theorem waits_succ (now : Nat) (c : Clock) : c.Waits now (now + 1) := fun _ _ hlt => hlt

namespace Waits

variable {now e e' : Nat} {c : Clock}

theorem le (h : c.Waits now e) (hcomes : c.Comes now e') : e ≤ e' := by
  obtain ⟨next, hstatus, hnow, i, rfl⟩ := hcomes
  exact Nat.le_add_right_of_le (h next (next?_eq_some_iff.mpr hstatus) hnow)

theorem comes_iff (h : c.Waits now e) (hnow : now < e) : c.Comes now e ↔ c.next? = some e := by
  rw [next?_eq_some_iff]
  constructor
  · rintro ⟨next, hstatus, hlt, i, he⟩
    have hle := h next (next?_eq_some_iff.mpr hstatus) hlt
    obtain rfl : next = e := by omega
    exact hstatus
  · exact fun hstatus => ⟨e, hstatus, hnow, 0, by rw [Nat.zero_mul, Nat.add_zero]⟩

/-- The edges after `e` come from the clock when the one at `e` is over, too. -/
theorem comes_pass (h : c.Waits now e) (hnow : now < e) (he : e < e') :
    (if c.next? = some e then c.advance else c).Comes e e' ↔ c.Comes now e' := by
  split
  · rename_i hnext
    have hstatus := next?_eq_some_iff.mp hnext
    constructor
    · rintro ⟨next, hstatus', -, i, rfl⟩
      rw [advance, hstatus] at hstatus'
      obtain rfl := ClockStatus.running.inj hstatus'
      exact ⟨e, hstatus, hnow, i + 1, by rw [half_advance, Nat.succ_mul]; omega⟩
    · rintro ⟨next, hstatus', -, i, rfl⟩
      obtain rfl := ClockStatus.running.inj (hstatus.symm.trans hstatus')
      cases i with
      | zero => omega
      | succ i =>
        rw [Nat.succ_mul] at he ⊢
        have hhalf : 0 < c.half := by
          refine Nat.pos_of_ne_zero fun hzero => ?_
          rw [hzero, Nat.mul_zero] at he
          omega
        refine ⟨e + c.half, by rw [advance, hstatus], by omega, i, ?_⟩
        rw [half_advance]
        omega
  · rename_i hnext
    constructor
    · rintro ⟨next, hstatus, hlt, hi⟩
      exact ⟨next, hstatus, Nat.lt_trans hnow hlt, hi⟩
    · rintro ⟨next, hstatus, hlt, hi⟩
      have hsome := next?_eq_some_iff.mpr hstatus
      have hle := h next hsome hlt
      have hne : e ≠ next := fun heq => hnext (heq ▸ hsome)
      exact ⟨next, hstatus, Nat.lt_of_le_of_ne hle hne, hi⟩

end Waits

theorem comes_succ_iff {now : Nat} {c : Clock} : c.Comes now (now + 1) ↔ c.next? = some (now + 1) :=
  (waits_succ now c).comes_iff (Nat.lt_succ_self now)

/-- The later edges come from the clock one cycle later, too. -/
theorem comes_pass {now e : Nat} {c : Clock} (he : now + 1 < e) :
    (if c.next? = some (now + 1) then c.advance else c).Comes (now + 1) e ↔ c.Comes now e :=
  (waits_succ now c).comes_pass (Nat.lt_succ_self now) he

end Clock

/-! ## The clock on a pin -/

namespace ClockBank

theorem nodup_pins (b : ClockBank) : (b.clocks.map Clock.pin).Nodup :=
  List.pairwise_map.mpr (b.ordered.imp fun hlt => Nat.ne_of_lt hlt)

theorem eq_of_pin_eq (b : ClockBank) {c d : Clock} (hc : c ∈ b.clocks) (hd : d ∈ b.clocks)
    (h : c.pin = d.pin) : c = d :=
  List.inj_on_of_nodup_map b.nodup_pins hc hd h

theorem find?_eq_some_iff (b : ClockBank) {pin : PinId} {c : Clock} :
    b.find? pin = some c ↔ c ∈ b.clocks ∧ c.pin = pin := by
  constructor
  · intro h
    exact ⟨List.mem_of_find?_eq_some h, by simpa using List.find?_some h⟩
  · rintro ⟨hc, rfl⟩
    cases hd : b.find? c.pin with
    | none => exact absurd (beq_self_eq_true c.pin) (List.find?_eq_none.mp hd c hc)
    | some d =>
      have hpin : d.pin = c.pin := by simpa using List.find?_some hd
      rw [b.eq_of_pin_eq (List.mem_of_find?_eq_some hd) hc hpin]

theorem find?_of_mem {b : ClockBank} {c : Clock} (hc : c ∈ b.clocks) : b.find? c.pin = some c :=
  b.find?_eq_some_iff.mpr ⟨hc, rfl⟩

/-- A change that leaves the pins of clocks alone changes the clock found on
a pin. -/
theorem find?_of_map {b b' : ClockBank} {f : Clock → Clock} (hf : ∀ c, (f c).pin = c.pin)
    (h : b'.clocks = b.clocks.map f) {pin : PinId} {c : Clock} (hc : b.find? pin = some c) :
    b'.find? pin = some (f c) := by
  obtain ⟨hmem, hpin⟩ := b.find?_eq_some_iff.mp hc
  refine b'.find?_eq_some_iff.mpr ⟨?_, (hf c).trans hpin⟩
  rw [h]
  exact List.mem_map_of_mem hmem

/-! ## Committing edges -/

theorem clocks_foldl_advance : ∀ (ids : List PinId) (b : ClockBank), ids.Nodup →
    (ids.foldl advance b).clocks = b.clocks.map fun c => if c.pin ∈ ids then c.advance else c
  | [], b, _ => by simp
  | p :: ids, b, h => by
    obtain ⟨hp, hids⟩ := List.nodup_cons.mp h
    rw [List.foldl_cons, clocks_foldl_advance ids (b.advance p) hids, advance, List.map_map]
    refine List.map_congr_left fun c _ => ?_
    by_cases hc : c.pin = p
    · simp only [Function.comp, hc, if_true, Clock.pin_advance, if_neg hp, List.mem_cons, true_or]
    · simp only [Function.comp, List.mem_cons, hc, false_or, if_false]

end ClockBank

namespace Slice

theorem nodup_togglesAt (b : ClockBank) (e : Nat) : (togglesAt b.running e).Nodup :=
  (((List.filter_sublist).trans List.filter_sublist).map Clock.pin).nodup b.nodup_pins

/-- The pins that toggle are those whose clock has its edge then. -/
theorem pin_mem_togglesAt (b : ClockBank) {c : Clock} (hc : c ∈ b.clocks) {e : Nat} :
    c.pin ∈ togglesAt b.running e ↔ c.next? = some e := by
  simp only [togglesAt, ClockBank.running, List.mem_map, List.mem_filter, beq_iff_eq]
  constructor
  · rintro ⟨d, ⟨⟨hd, -⟩, hnext⟩, hpin⟩
    rw [← b.eq_of_pin_eq hd hc hpin]
    exact hnext
  · intro hnext
    exact ⟨c, ⟨⟨hc, Clock.isRunning_of_next? hnext⟩, hnext⟩, rfl⟩

theorem mem_togglesAt_iff (b : ClockBank) {pin : PinId} {e : Nat} :
    pin ∈ togglesAt b.running e ↔ b.next? pin = some e := by
  rw [ClockBank.next?, Option.bind_eq_some_iff]
  constructor
  · intro h
    obtain ⟨c, hc, rfl⟩ := List.mem_map.mp h
    have hmem : c ∈ b.clocks := (List.mem_filter.mp (List.mem_filter.mp hc).1).1
    exact ⟨c, ClockBank.find?_of_mem hmem, (pin_mem_togglesAt b hmem).mp h⟩
  · rintro ⟨c, hc, hnext⟩
    obtain ⟨hmem, rfl⟩ := b.find?_eq_some_iff.mp hc
    exact (pin_mem_togglesAt b hmem).mpr hnext

theorem cut_of_firstEdge_eq_none {clocks : List Clock} {now stop : Nat} (h : firstEdge? clocks now stop = none) :
    cut clocks now stop = [⟨stop - now, togglesAt clocks stop⟩] := by
  rw [cut]
  split
  · rename_i e he
    rw [h] at he
    cases he
  · rfl

theorem cut_of_firstEdge_eq_some {clocks : List Clock} {now stop e : Nat} (h : firstEdge? clocks now stop = some e) :
    cut clocks now stop = ⟨e - now, togglesAt clocks e⟩ :: cut (pass clocks e) e stop := by
  rw [cut]
  split
  · rename_i e' he
    obtain rfl : e = e' := Option.some.inj (h.symm.trans he)
    rfl
  · rename_i hnone
    rw [h] at hnone
    cases hnone

/-- No edge comes before the first one inside a run, nor before the end of the run if there is none inside. -/
theorem waits_of_firstEdge {clocks : List Clock} {now stop cycle : Nat} (hstop : cycle ≤ stop)
    (h : ∀ e ∈ firstEdge? clocks now stop, cycle ≤ e) : ∀ c ∈ clocks, c.Waits now cycle := by
  intro c hc next hnext hnow
  refine Nat.le_of_not_lt fun hlt => ?_
  have hinside : now < next ∧ next < stop := ⟨hnow, Nat.lt_of_lt_of_le hlt hstop⟩
  have hmem : next ∈ (clocks.filterMap Clock.next?).filter fun e => decide (now < e ∧ e < stop) :=
    List.mem_filter.mpr ⟨List.mem_filterMap.mpr ⟨c, hc, hnext⟩, decide_eq_true hinside⟩
  cases hfirst : firstEdge? clocks now stop with
  | none =>
    rw [firstEdge?, List.min?_eq_none_iff] at hfirst
    rw [hfirst] at hmem
    exact List.not_mem_nil hmem
  | some e =>
    have hle := (List.min?_eq_some_iff.mp hfirst).2 next hmem
    exact absurd (h e hfirst) (Nat.not_le.mpr (Nat.lt_of_le_of_lt hle hlt))

/-- No edge falls on a cycle before the first one. -/
theorem togglesAt_eq_nil {clocks : List Clock} {now stop cycle : Nat}
    (h : ∀ e ∈ firstEdge? clocks now stop, cycle < e) (hnow : now < cycle) (hstop : cycle < stop) :
    togglesAt clocks cycle = [] := by
  rw [togglesAt, List.map_eq_nil_iff, List.filter_eq_nil_iff]
  intro c hc hnext
  have hle : cycle + 1 ≤ cycle := waits_of_firstEdge hstop h c hc cycle (by simpa using hnext) hnow
  omega

theorem togglesAt_firstEdge {clocks : List Clock} {now stop e : Nat} (h : firstEdge? clocks now stop = some e) :
    togglesAt clocks e ≠ [] := by
  have hmem := (List.mem_filter.mp (List.min?_mem h)).1
  obtain ⟨c, hc, hnext⟩ := List.mem_filterMap.mp hmem
  exact List.ne_nil_of_mem (List.mem_map_of_mem (List.mem_filter.mpr ⟨hc, by simpa using hnext⟩))

/-- An edge changes neither the half period of a clock nor whether it runs. -/
theorem exists_of_mem_pass {clocks : List Clock} {cycle : Nat} {k : Clock} (h : k ∈ pass clocks cycle) :
    ∃ d ∈ clocks, d.pin = k.pin ∧ d.half = k.half ∧ d.isRunning = k.isRunning := by
  obtain ⟨d, hd, rfl⟩ := List.mem_map.mp h
  refine ⟨d, hd, ?_⟩
  split
  · exact ⟨d.pin_advance.symm, d.half_advance.symm, d.isRunning_advance.symm⟩
  · exact ⟨rfl, rfl, rfl⟩

end Slice

namespace ClockBank

theorem next?_eq_none_iff (b : ClockBank) {pin : PinId} :
    b.next? pin = none ↔ ∀ c ∈ b.clocks, c.pin = pin → c.isRunning = false := by
  constructor
  · intro h c hc hpin
    rw [next?, b.find?_eq_some_iff.mpr ⟨hc, hpin⟩, Option.bind_some] at h
    rw [Clock.isRunning, h, Option.isSome_none]
  · intro h
    refine Option.bind_eq_none_iff.mpr fun c hc => ?_
    obtain ⟨hmem, hpin⟩ := b.find?_eq_some_iff.mp hc
    exact Option.isNone_iff_eq_none.mp (Option.isSome_eq_false_iff.mp (h c hmem hpin))

/-- Committing the edges at a cycle moves the clocks that have one. -/
theorem clocks_edges (b : ClockBank) (e : Nat) :
    ((Slice.togglesAt b.running e).foldl advance b).clocks = Slice.pass b.clocks e := by
  rw [clocks_foldl_advance _ _ (Slice.nodup_togglesAt b e)]
  exact List.map_congr_left fun c hc => by simp only [Slice.pin_mem_togglesAt b hc]

theorem running_foldl_advance (b : ClockBank) (e : Nat) :
    ((Slice.togglesAt b.running e).foldl advance b).running = Slice.pass b.running e := by
  rw [running, clocks_edges, Slice.pass, List.filter_map, running, Slice.pass]
  congr 1
  refine List.filter_congr fun c _ => ?_
  simp only [Function.comp]
  split
  · exact c.isRunning_advance
  · rfl

end ClockBank

end TestProgram
