import Mathlib.Data.List.Nodup
import Mathlib.Order.Bounds.Defs
import TestProgram.Proofs.Timing.Switches

/-!
# Timings stay consistent

In a consistent timing no two timesets have the same name, the active position is that of a timeset, periods are not
zero, and pins have at most one wave in a timeset (`Timing.Consistent`). Switches, new waves and the way back to a
position keep it so (`Consistent.select`, `Consistent.addWave`, `Consistent.restore`). The division by the active
period is therefore never one by zero, and the number of cycles that it gives for a duration is the least one that
covers it, or the greatest one that it covers (`Consistent.cyclesFor`).
-/

namespace TestProgram

/-! ## Cycles -/

/-- Rounded up, the cycles are as few as it takes. -/
theorem isLeast_cyclesIn_ceil (d : Duration) {p : Duration} (hp : 0 < p.picoseconds) :
    IsLeast {n | d.picoseconds ≤ n * p.picoseconds} (cyclesIn d p .ceil) :=
  ⟨Word.ceilDiv_mul_ge d.picoseconds hp, fun _ hn => Word.ceilDiv_le hn⟩

/-- Truncated, the cycles are as many as there is time for. -/
theorem isGreatest_cyclesIn_truncate (d : Duration) {p : Duration} (hp : 0 < p.picoseconds) :
    IsGreatest {n | n * p.picoseconds ≤ d.picoseconds} (cyclesIn d p .truncate) :=
  ⟨Nat.div_mul_le_self d.picoseconds p.picoseconds, fun _ hn => (Nat.le_div_iff_mul_le hp).mpr hn⟩

/-! ## Timesets -/

/-- A period is not zero, and a pin has at most one wave. -/
structure Timeset.WellFormed (s : Timeset) : Prop where
  period : ∀ p ∈ s.period, 0 < p.picoseconds
  waves : (s.waves.map Wave.pin).Nodup

namespace Timeset

theorem WellFormed.new (name : String) : WellFormed ⟨name, none, []⟩ := ⟨nofun, List.nodup_nil⟩

theorem WellFormed.withPeriod {s : Timeset} (h : s.WellFormed) {period : Option Duration}
    (hperiod : ∀ p ∈ period, 0 < p.picoseconds) : WellFormed { s with period } := ⟨hperiod, h.waves⟩

theorem WellFormed.withWave {s : Timeset} (h : s.WellFormed) (w : Wave) : (s.withWave w).WellFormed where
  period := h.period
  waves := by
    have hothers : ((s.waves.filter fun v => v.pin ≠ w.pin).map Wave.pin).Nodup :=
      (List.filter_sublist.map Wave.pin).nodup h.waves
    have hnew : w.pin ∉ (s.waves.filter fun v => v.pin ≠ w.pin).map Wave.pin := fun hmem => by
      obtain ⟨v, hv, heq⟩ := List.mem_map.mp hmem
      exact of_decide_eq_true (List.mem_filter.mp hv).2 heq
    rw [Timeset.withWave, List.map_append, List.map_singleton, ← List.concat_eq_append]
    exact hothers.concat hnew

end Timeset

/-! ## Timings -/

namespace Timing

structure Consistent (t : Timing) : Prop where
  names : t.names.Nodup
  active : t.Valid
  sets : ∀ s ∈ t.sets, s.WellFormed

theorem consistent_empty : Timing.empty.Consistent := ⟨List.nodup_nil, nofun, List.forall_mem_nil _⟩

/-- Going to a position adds nothing and takes nothing away. -/
theorem grows_restore (t : Timing) {active : Option Nat} (hactive : ∀ i ∈ active, i < t.sets.length) :
    Grows t (t.restore active) := ⟨List.prefix_rfl, fun _ => hactive, id, id⟩

/-- A timeset that has a period has one from then on. -/
theorem Grows.period {t t' : Timing} (h : Grows t t') (hnodup : t.names.Nodup) {i : Nat} {s : Timeset}
    (hs : t.sets[i]? = some s) (hperiod : s.period.isSome) :
    ∃ s', t'.sets[i]? = some s' ∧ s'.name = s.name ∧ s'.period.isSome := by
  have hplace : t.names[i]? = some s.name := by
    rw [Timing.names, List.getElem?_map, hs, Option.map_some]
  obtain ⟨later, hlater⟩ := h.names
  have hplace' : t'.names[i]? = some s.name := by
    rw [← hlater, List.getElem?_append_left (List.getElem?_eq_some_iff.mp hplace).1, hplace]
  rw [Timing.names, List.getElem?_map] at hplace'
  obtain ⟨s', hs', hname⟩ := Option.map_eq_some_iff.mp hplace'
  obtain ⟨q, hq, hqperiod⟩ := h.periods ⟨s, get?_of_mem t.active hnodup (List.mem_of_getElem? hs), hperiod⟩
  have hfound := get?_of_mem t'.active (h.nodup hnodup) (List.mem_of_getElem? hs')
  rw [hname] at hfound
  obtain rfl : q = s' := Option.some.inj (hq.symm.trans hfound)
  exact ⟨q, hs', hname, hqperiod⟩

theorem wellFormed_mention {t : Timing} (h : ∀ s ∈ t.sets, s.WellFormed) (name : String) :
    ∀ s ∈ (t.mention name).2.sets, s.WellFormed := by
  unfold mention
  split
  · exact h
  · exact List.forall_mem_append.mpr ⟨h, List.forall_mem_singleton.mpr (.new name)⟩

theorem wellFormed_modify {sets : List Timeset} {f : Timeset → Timeset} (h : ∀ s ∈ sets, s.WellFormed)
    (hf : ∀ {s : Timeset}, s.WellFormed → (f s).WellFormed) (i : Nat) : ∀ s ∈ sets.modify i f, s.WellFormed := by
  intro s hs
  obtain ⟨j, hj⟩ := List.mem_iff_getElem?.mp hs
  rw [List.getElem?_modify] at hj
  obtain ⟨q, hq, rfl⟩ := Option.map_eq_some_iff.mp hj
  have hwell := h q (List.mem_of_getElem? hq)
  split
  · exact hf hwell
  · exact hwell

namespace Consistent

variable {t t' : Timing}

theorem mem_of_current? {s : Timeset} (h : t.current? = some s) : s ∈ t.sets := by
  obtain ⟨i, -, hi⟩ := Option.bind_eq_some_iff.mp h
  exact List.mem_of_getElem? hi

theorem currentPeriod? (h : t.Consistent) : ∀ p ∈ t.currentPeriod?, 0 < p.picoseconds := by
  intro p hp
  obtain ⟨s, hs, hperiod⟩ := Option.bind_eq_some_iff.mp hp
  exact (h.sets s (mem_of_current? hs)).period p hperiod

/-- A period is given, kept or taken over, and none of these is zero. -/
theorem select {name : String} {period : Option Duration} (h : t.Consistent) (hselect : t.select name period = .ok t') :
    t'.Consistent := by
  have hgrows := grows_select hselect
  refine ⟨hgrows.nodup h.names, hgrows.valid h.active, ?_⟩
  obtain ⟨hgiven, rfl⟩ := select_eq_ok hselect
  refine wellFormed_modify (wellFormed_mention h.sets name) (fun {s} hs => hs.withPeriod fun p hp => ?_) _
  rcases Option.or_eq_some_iff.mp hp with hp | ⟨-, hinherited⟩
  · rcases Option.or_eq_some_iff.mp hp with hgiven' | ⟨-, hown⟩
    · exact Nat.pos_of_ne_zero (ne_of_beq_false (hgiven p hgiven'))
    · exact hs.period p hown
  · exact h.currentPeriod? p hinherited

theorem addWave {name : String} {w : Wave} (h : t.Consistent) (hadd : t.addWave name w = .ok t') : t'.Consistent := by
  have hgrows := grows_addWave hadd
  refine ⟨hgrows.nodup h.names, hgrows.valid h.active, ?_⟩
  obtain ⟨_, -, hadd⟩ := bind_eq_ok.mp hadd
  obtain ⟨_, -, hadd⟩ := bind_eq_ok.mp hadd
  obtain rfl := Except.ok.inj hadd
  exact wellFormed_modify (wellFormed_mention h.sets name) (fun hs => hs.withWave w) _

theorem restore (h : t.Consistent) {active : Option Nat} (hactive : ∀ i ∈ active, i < t.sets.length) :
    (t.restore active).Consistent := ⟨h.names, hactive, h.sets⟩

end Consistent

/-- What the cycles of a duration are under the active period, if there is one. -/
inductive Measures (t : Timing) (d : Duration) : Rounding → Except Fault Nat → Prop
  | unset {rounding : Rounding} (h : t.currentPeriod? = none) :
    Measures t d rounding (.error (.noActiveTimeset "period lookup"))
  | ceil {p : Duration} {n : Nat} (h : t.currentPeriod? = some p) (hp : 0 < p.picoseconds)
    (hn : IsLeast {n | d.picoseconds ≤ n * p.picoseconds} n) : Measures t d .ceil (.ok n)
  | truncate {p : Duration} {n : Nat} (h : t.currentPeriod? = some p) (hp : 0 < p.picoseconds)
    (hn : IsGreatest {n | n * p.picoseconds ≤ d.picoseconds} n) : Measures t d .truncate (.ok n)

theorem Consistent.cyclesFor {t : Timing} (h : t.Consistent) (d : Duration) (rounding : Rounding) :
    t.Measures d rounding (t.cyclesFor d rounding) := by
  cases hperiod : t.currentPeriod? with
  | none =>
    rw [Timing.cyclesFor, currentPeriod, hperiod]
    exact .unset hperiod
  | some p =>
    have hp := h.currentPeriod? p hperiod
    rw [cyclesFor_of_currentPeriod? hperiod]
    cases rounding with
    | ceil => exact .ceil hperiod hp (isLeast_cyclesIn_ceil d hp)
    | truncate => exact .truncate hperiod hp (isGreatest_cyclesIn_truncate d hp)

end Timing

end TestProgram
