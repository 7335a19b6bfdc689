import TestProgram.Proofs.Pattern.Division
import TestProgram.Proofs.Timing.Names

/-!
# Switching timesets back and forth

A switch to a timeset gives it the period that is asked for, and going back to
the timeset before does not take that period away again. So the period of the
active timeset is the same after both as before them unless the switch gave
this very timeset another one (`currentPeriod?_restore_select`). Waits tell
the difference: two periods are the same if all durations take the same number
of cycles in them (`cyclesIn_inj`).
-/

namespace TestProgram

/-- Durations tell periods apart, whichever way they are rounded. -/
theorem cyclesIn_inj {p q : Duration} (hq : q.isZero = false) (rounding : Rounding)
    (h : ∀ d, cyclesIn d p rounding = cyclesIn d q rounding) : p = q := by
  obtain ⟨p⟩ := p
  obtain ⟨q⟩ := q
  have hqpos : 0 < q := Nat.pos_of_ne_zero (by simpa [Duration.isZero] using hq)
  have hself {n : Nat} (hn : 0 < n) : n / n = 1 := Nat.div_self hn
  suffices p = q by rw [this]
  cases rounding with
  | truncate =>
    have hp : p / p = p / q := h ⟨p⟩
    have hq : q / p = 1 := (h ⟨q⟩).trans (hself hqpos)
    have hppos : 0 < p := Nat.pos_of_ne_zero fun h0 => by rw [h0, Nat.div_zero] at hq; cases hq
    rw [hself hppos] at hp
    have hle : p ≤ q := Nat.not_lt.mp fun hlt => by rw [Nat.div_eq_of_lt hlt] at hq; cases hq
    have hge : q ≤ p := Nat.not_lt.mp fun hlt => by rw [Nat.div_eq_of_lt hlt] at hp; cases hp
    exact Nat.le_antisymm hle hge
  | ceil =>
    have hceil (d : Nat) : Word.ceilDiv d p = Word.ceilDiv d q := h ⟨d⟩
    have hone {n : Nat} (hn : 0 < n) : Word.ceilDiv n n = 1 := by
      rw [Word.ceilDiv, hself hn, Nat.mod_self, if_pos rfl]
    -- the least number of pieces that cover `d` is one only if a piece is that long
    have hcover {d n : Nat} (hn : 0 < n) (hd : Word.ceilDiv d n = 1) : d ≤ n := by
      have hle := Word.ceilDiv_mul_ge d hn
      rwa [hd, Nat.one_mul] at hle
    have hppos : 0 < p := by
      refine Nat.pos_of_ne_zero fun h0 => ?_
      have htwo := hceil (2 * q)
      rw [h0, Word.ceilDiv, Word.ceilDiv, Nat.div_zero, Nat.mod_zero, if_neg (by omega),
        Nat.mul_div_cancel 2 hqpos, Nat.mul_mod_left, if_pos rfl] at htwo
      cases htwo
    exact Nat.le_antisymm (hcover hqpos ((hceil p).symm.trans (hone hppos)))
      (hcover hppos ((hceil q).trans (hone hqpos)))

namespace Timing

variable {t t' : Timing} {name : String} {i : Nat} {s : Timeset}

/-- Timesets keep their places when another one is mentioned. -/
theorem getElem?_mention (name : String) (hs : t.sets[i]? = some s) : (t.mention name).2.sets[i]? = some s := by
  unfold mention
  split
  · exact hs
  · exact (List.getElem?_append_left (List.getElem?_eq_some_iff.mp hs).1).trans hs

/-- A name has the position of the one timeset that has it. -/
theorem index?_eq_some_iff (hnodup : t.names.Nodup) :
    t.index? name = some i ↔ ∃ s, t.sets[i]? = some s ∧ s.name = name := by
  have hfound {j : Nat} (hj : t.index? name = some j) : t.names[j]? = some name := by
    obtain ⟨hlt, hbeq, -⟩ := List.findIdx?_eq_some_iff_getElem.mp hj
    rw [names, List.getElem?_map, List.getElem?_eq_getElem hlt, Option.map_some]
    exact congrArg some (eq_of_beq hbeq)
  constructor
  · intro hi
    have hname := hfound hi
    rw [names, List.getElem?_map] at hname
    exact Option.map_eq_some_iff.mp hname
  · rintro ⟨s, hs, heq⟩
    cases hindex : t.index? name with
    | none =>
      have hother := List.findIdx?_eq_none_iff.mp hindex s (List.mem_of_getElem? hs)
      rw [heq, beq_self_eq_true] at hother
      cases hother
    | some j =>
      have hname : t.names[i]? = some name := by rw [names, List.getElem?_map, hs, Option.map_some, heq]
      have hi : i < t.names.length := (List.getElem?_eq_some_iff.mp hname).1
      exact congrArg some ((List.getElem?_inj hi hnodup).mp (hname.trans (hfound hindex).symm)).symm

/-- A mention leads to this timeset if it is one of its name. -/
theorem mention_eq_iff (hnodup : t.names.Nodup) (name : String) (hs : t.sets[i]? = some s) :
    (t.mention name).1 = i ↔ s.name = name := by
  obtain ⟨hi, -⟩ := List.getElem?_eq_some_iff.mp hs
  have hindex : t.index? name = some i ↔ s.name = name := by
    rw [index?_eq_some_iff hnodup, hs]
    constructor
    · rintro ⟨_, hsome, heq⟩
      obtain rfl := Option.some.inj hsome
      exact heq
    · exact fun heq => ⟨s, rfl, heq⟩
  rw [← hindex]
  unfold mention
  split
  · rename_i j hj
    rw [hj, Option.some_inj]
  · rename_i hnone
    rw [hnone]
    constructor
    · exact fun heq => absurd heq (Nat.ne_of_gt hi)
    · intro h
      cases h

/-- What a switch to a timeset makes of the timesets. -/
theorem select_eq_ok {period : Option Duration} (h : t.select name period = .ok t') :
    (∀ p, period = some p → p.isZero = false) ∧
      t' = ⟨(t.mention name).2.sets.modify (t.mention name).1
        fun s => { s with period := (period.or s.period).or t.currentPeriod? }, some (t.mention name).1⟩ := by
  unfold select at h
  split at h
  · cases h
  · rename_i hzero
    refine ⟨?_, (Except.ok.inj h).symm⟩
    rintro p rfl
    exact Bool.eq_false_iff.mpr hzero

/-- The period that the active timeset has after a switch to a timeset and back,
if it was `before`. There is no switch to a period of zero. -/
def periodAfter (t : Timing) (name : String) (period : Option Duration) (before : Duration) : Duration :=
  match period with
  | some p => if p.isZero = false ∧ t.activeName? = some name then p else before
  | none => before

theorem periodAfter_eq_iff {period : Option Duration} {before : Duration} :
    t.periodAfter name period before = before ↔
      ∀ p, period = some p → p.isZero = false → t.activeName? = some name → p = before := by
  unfold periodAfter
  cases period with
  | none => exact ⟨fun _ => nofun, fun _ => rfl⟩
  | some p =>
    dsimp only
    split
    · rename_i h
      exact ⟨fun heq _ hp _ _ => Option.some.inj hp ▸ heq, fun hall => hall p rfl h.1 h.2⟩
    · rename_i h
      refine ⟨fun _ q hq hzero hname => absurd ⟨?_, hname⟩ h, fun _ => rfl⟩
      rwa [Option.some.inj hq]

theorem currentPeriod?_restore_select (hnodup : t.names.Nodup) {period : Option Duration} {before : Duration}
    (hbefore : t.currentPeriod? = some before) (h : t.select name period = .ok t') :
    (t'.restore t.active).currentPeriod? = some (t.periodAfter name period before) := by
  obtain ⟨s, hcurrent, hperiod⟩ := Option.bind_eq_some_iff.mp hbefore
  obtain ⟨i, hactive, hs⟩ := Option.bind_eq_some_iff.mp hcurrent
  have hname : t.activeName? = some s.name := by rw [activeName?, hcurrent]; rfl
  have hplace := mention_eq_iff hnodup name hs
  have hmention := getElem?_mention name hs
  obtain ⟨hzero, rfl⟩ := select_eq_ok h
  generalize t.mention name = mentioned at hplace hmention
  rw [currentPeriod?, current?, restore, hactive, Option.bind_some, List.getElem?_modify, hmention, Option.map_eq_map,
    Option.map_some, Option.bind_some]
  unfold periodAfter
  by_cases heq : s.name = name
  · rw [if_pos (hplace.mpr heq)]
    show (period.or s.period).or t.currentPeriod? = _
    rw [hperiod]
    cases period with
    | none => rfl
    | some p =>
      dsimp only
      rw [if_pos ⟨hzero p rfl, hname.trans (congrArg some heq)⟩, Option.some_or, Option.some_or]
  · have hother : t.activeName? ≠ some name := fun hsome => heq (Option.some.inj (hname.symm.trans hsome))
    rw [if_neg (heq ∘ hplace.mp)]
    cases period with
    | none => exact hperiod
    | some p =>
      dsimp only
      rwa [if_neg fun h => hother h.2]

/-- A period that was changed is not zero. -/
theorem isZero_periodAfter {period : Option Duration} {before : Duration}
    (h : t.periodAfter name period before ≠ before) : (t.periodAfter name period before).isZero = false := by
  unfold periodAfter at h ⊢
  cases period with
  | none => exact absurd rfl h
  | some p =>
    dsimp only at h ⊢
    split
    · rename_i hzero
      exact hzero.1
    · rename_i hzero
      exact absurd (if_neg hzero) h

theorem cyclesFor_of_currentPeriod? {period : Duration} (h : t.currentPeriod? = some period) (d : Duration)
    (rounding : Rounding) : t.cyclesFor d rounding = .ok (cyclesIn d period rounding) := by
  rw [cyclesFor, currentPeriod, h]
  rfl

/-- Two timings have the same period if all durations take the same number of
cycles in them. -/
theorem currentPeriod?_inj {p q : Duration} (hp : t.currentPeriod? = some p) (hq : t'.currentPeriod? = some q)
    (hzero : q.isZero = false) (rounding : Rounding)
    (h : ∀ d, t'.cyclesFor d rounding = t.cyclesFor d rounding) : q = p := by
  refine (cyclesIn_inj hzero rounding fun d => ?_).symm
  have hd := h d
  rw [cyclesFor_of_currentPeriod? hp, cyclesFor_of_currentPeriod? hq] at hd
  exact (Except.ok.inj hd).symm

end Timing

end TestProgram
