import TestProgram.Proofs.Clock.Edges

/-!
# Operations on clocks

Every operation on the clock of a pin puts one clock in its place
(`start_eq_ok` and the like), which is then the one found on the pin
(`find?_put_self`), and leaves the clocks on other pins alone
(`find?_put_ne`). It takes the half period from the clock that was there or
from a frequency, so that none is empty (`ClockBank.Sound`).
-/

namespace TestProgram

theorem Clock.mem_insert {c d : Clock} : ∀ {clocks : List Clock}, Ordered clocks →
    (d ∈ insert c clocks ↔ d = c ∨ d ∈ clocks ∧ d.pin ≠ c.pin)
  | [], _ => by simp [insert]
  | e :: es, h => by
    obtain ⟨he, hes⟩ := List.pairwise_cons.mp h
    unfold insert
    split
    · rename_i hlt
      rw [List.mem_cons, mem_insert hes, List.mem_cons]
      have hne : e.pin ≠ c.pin := Nat.ne_of_lt hlt
      constructor
      · rintro (rfl | rfl | ⟨hd, hpin⟩)
        · exact .inr ⟨.inl rfl, hne⟩
        · exact .inl rfl
        · exact .inr ⟨.inr hd, hpin⟩
      · rintro (rfl | ⟨rfl | hd, hpin⟩)
        · exact .inr (.inl rfl)
        · exact .inl rfl
        · exact .inr (.inr ⟨hd, hpin⟩)
    · rename_i hge
      -- the clocks after `e` are on greater pins than `c`
      have hrest : ∀ d ∈ es, d.pin ≠ c.pin := fun d hd heq =>
        absurd (he d hd) (by rw [heq]; exact Nat.not_lt.mpr (Nat.le_of_not_lt hge))
      split
      · rename_i heq
        rw [List.mem_cons, List.mem_cons]
        constructor
        · exact Or.imp_right fun hd => ⟨.inr hd, hrest d hd⟩
        · rintro (rfl | ⟨rfl | hd, hpin⟩)
          · exact .inl rfl
          · exact absurd heq hpin
          · exact .inr hd
      · rename_i hne
        rw [List.mem_cons, List.mem_cons]
        constructor
        · rintro (rfl | rfl | hd)
          · exact .inl rfl
          · exact .inr ⟨.inl rfl, hne⟩
          · exact .inr ⟨.inr hd, hrest d hd⟩
        · exact Or.imp_right And.left

namespace ClockBank

variable {b b' : ClockBank} {pin : PinId} {now : Nat}

theorem mem_put {c d : Clock} : d ∈ (b.put c).clocks ↔ d = c ∨ d ∈ b.clocks ∧ d.pin ≠ c.pin :=
  Clock.mem_insert b.ordered

theorem find?_put_self (c : Clock) : (b.put c).find? c.pin = some c :=
  (b.put c).find?_eq_some_iff.mpr ⟨mem_put.mpr (.inl rfl), rfl⟩

theorem find?_put_ne {c : Clock} (h : c.pin ≠ pin) : (b.put c).find? pin = b.find? pin := by
  refine Option.ext fun d => ?_
  rw [find?_eq_some_iff, find?_eq_some_iff, mem_put]
  constructor
  · rintro ⟨rfl | ⟨hd, -⟩, hpin⟩
    · exact absurd hpin h
    · exact ⟨hd, hpin⟩
  · rintro ⟨hd, rfl⟩
    exact ⟨.inr ⟨hd, Ne.symm h⟩, rfl⟩

theorem get_eq_ok {c : Clock} : b.get pin = .ok c ↔ b.find? pin = some c := by
  unfold get
  cases b.find? pin with
  | none => simp only [reduceCtorEq]
  | some d => simp only [Except.ok.injEq, Option.some.injEq]

theorem quantize_eq_ok {f : Frequency} {period : Duration} {half : HalfPeriod} :
    quantize f period = .ok half ↔ f.quantize period = some half := by
  unfold quantize
  cases f.quantize period with
  | none => simp only [reduceCtorEq]
  | some d => simp only [Except.ok.injEq, Option.some.injEq]

/-! ## One clock in its place -/

theorem enable_eq_ok {f : Frequency} {period : Duration} {half : HalfPeriod}
    (h : b.enable pin f period = .ok (half, b')) :
    ∃ c, c.pin = pin ∧ 0 < c.half ∧ c.status = (b.find? pin).elim .stopped Clock.status ∧ b' = b.put c := by
  obtain ⟨half, hq, h⟩ := bind_eq_ok.mp h
  obtain ⟨rfl, rfl⟩ := Prod.mk.inj (Except.ok.inj h)
  refine ⟨⟨pin, f, half.cycles, _⟩, rfl, Frequency.one_le_cycles (quantize_eq_ok.mp hq), ?_, rfl⟩
  cases b.find? pin <;> rfl

theorem start_eq_ok (h : b.start pin now = .ok b') :
    ∃ c, b.find? pin = some c ∧ b' = b.put { c with status := .running (now + c.half) } := by
  obtain ⟨c, hc, h⟩ := bind_eq_ok.mp h
  exact ⟨c, get_eq_ok.mp hc, (Except.ok.inj h).symm⟩

theorem stop_eq_ok (h : b.stop pin = .ok b') :
    ∃ c, b.find? pin = some c ∧ b' = b.put { c with status := .stopped } := by
  obtain ⟨c, hc, h⟩ := bind_eq_ok.mp h
  exact ⟨c, get_eq_ok.mp hc, (Except.ok.inj h).symm⟩

theorem pause_eq_ok (h : b.pause pin now = .ok b') :
    ∃ c next, b.find? pin = some c ∧ c.status = .running next ∧
      b' = b.put { c with status := .paused (max (next - now) 1) } := by
  obtain ⟨c, hc, h⟩ := bind_eq_ok.mp h
  split at h
  · rename_i next hstatus
    exact ⟨c, next, get_eq_ok.mp hc, hstatus, (Except.ok.inj h).symm⟩
  · exact nomatch h

/-- A paused clock goes on with what is left of its half period, or it is
replaced by a clock at the beginning of a new one. -/
theorem resume_eq_ok {retune : Option (Frequency × Duration)} {half : Option HalfPeriod}
    (h : b.resume pin now retune = .ok (half, b')) :
    ∃ c, b.find? pin = some c ∧
      ((retune = none ∧ ∃ remaining, c.status = .paused remaining ∧
          b' = b.put { c with status := .running (now + remaining) }) ∨
        retune.isSome ∧ ∃ d, d.pin = pin ∧ 0 < d.half ∧ d.status = .running (now + d.half) ∧ b' = b.put d) := by
  obtain ⟨c, hc, h⟩ := bind_eq_ok.mp h
  refine ⟨c, get_eq_ok.mp hc, ?_⟩
  split at h
  · rename_i remaining hstatus _
    obtain ⟨-, rfl⟩ := Prod.mk.inj (Except.ok.inj h)
    exact .inl ⟨rfl, remaining, hstatus, rfl⟩
  · obtain ⟨half, hq, h⟩ := bind_eq_ok.mp h
    obtain ⟨-, rfl⟩ := Prod.mk.inj (Except.ok.inj h)
    exact .inr ⟨rfl, ⟨pin, _, half.cycles, _⟩, rfl, Frequency.one_le_cycles (quantize_eq_ok.mp hq), rfl, rfl⟩
  · exact nomatch h

/-! ## Half periods -/

/-- No clock has an empty half period. -/
def Sound (b : ClockBank) : Prop := ∀ c ∈ b.clocks, 0 < c.half

theorem Sound.of_find? (h : Sound b) {c : Clock} (hc : b.find? pin = some c) : 0 < c.half :=
  h c (b.find?_eq_some_iff.mp hc).1

end ClockBank

end TestProgram
