import TestProgram.Proofs.Clock.Operations

/-!
# Clocks with their next edge before them

A run is cut at the edges after its first cycle; an edge that is due at that
cycle or before it is never seen again, and the clock would be silent for good.
`Clock.Ahead` rules that out: the next edge of a running clock comes after the
present cycle, and a paused clock has some cycles left until it. All operations
on the clocks of a bank keep this (`ClockBank.Ahead`), and so do the edges of
the next cycle, since a half period is not empty (`Ahead.edges`).
-/

namespace TestProgram

/-- The clock has its next edge before it when `now` cycles are over. -/
structure Clock.Ahead (now : Nat) (c : Clock) : Prop where
  half : 1 ≤ c.half
  next : ∀ e, c.status = .running e → now < e
  left : ∀ remaining, c.status = .paused remaining → 1 ≤ remaining

namespace Clock.Ahead

variable {now : Nat} {c : Clock}

theorem stopped (h : c.Ahead now) : Ahead now { c with status := .stopped } := ⟨h.half, nofun, nofun⟩

theorem running (h : 1 ≤ c.half) {cycles : Nat} (hpos : 1 ≤ cycles) :
    Ahead now { c with status := .running (now + cycles) } := by
  refine ⟨h, fun e he => ?_, nofun⟩
  have := ClockStatus.running.inj he
  omega

theorem paused (h : c.Ahead now) {cycles : Nat} (hpos : 1 ≤ cycles) : Ahead now { c with status := .paused cycles } := by
  refine ⟨h.half, nofun, fun remaining hr => ?_⟩
  have := ClockStatus.paused.inj hr
  omega

theorem comes_iff (h : c.Ahead now) {next e : Nat} (hstatus : c.status = .running next) :
    c.Comes now e ↔ ∃ i, e = next + i * c.half := by
  constructor
  · rintro ⟨next', hstatus', -, hi⟩
    obtain rfl := ClockStatus.running.inj (hstatus.symm.trans hstatus')
    exact hi
  · exact fun hi => ⟨next, hstatus, h.next next hstatus, hi⟩

/-- One cycle later the clock has gone on to its edge after the next one, if
that was due. -/
theorem pass (h : c.Ahead now) : (if c.next? = some (now + 1) then c.advance else c).Ahead (now + 1) := by
  split
  · rename_i hnext
    have hstatus : c.status = .running (now + 1) := next?_eq_some_iff.mp hnext
    rw [advance, hstatus]
    exact running h.half h.half
  · rename_i hnext
    refine ⟨h.half, fun e he => ?_, h.left⟩
    have hlt := h.next e he
    have hne : e ≠ now + 1 := by
      rintro rfl
      exact hnext (next?_eq_some_iff.mpr he)
    omega

end Clock.Ahead

namespace ClockBank

/-- All clocks have their next edges before them. -/
def Ahead (now : Nat) (b : ClockBank) : Prop := ∀ c ∈ b.clocks, c.Ahead now

variable {b b' : ClockBank} {pin : PinId} {now : Nat}

/-- What all clocks and one put in its place have in common. -/
theorem forall_put {P : Clock → Prop} {c : Clock} (h : ∀ d ∈ b.clocks, P d) (hc : P c) :
    ∀ d ∈ (b.put c).clocks, P d := by
  intro d hd
  rcases mem_put.mp hd with rfl | ⟨hd, -⟩
  · exact hc
  · exact h d hd

namespace Ahead

theorem of_find? (h : b.Ahead now) {c : Clock} (hc : b.find? pin = some c) : c.Ahead now :=
  h c (b.find?_eq_some_iff.mp hc).1

theorem put (h : b.Ahead now) {c : Clock} (hc : c.Ahead now) : (b.put c).Ahead now := forall_put h hc

/-- A clock with a new frequency keeps its place in the half period. -/
theorem enable (h : b.Ahead now) {f : Frequency} {period : Duration} {half : HalfPeriod}
    (he : b.enable pin f period = .ok (half, b')) : b'.Ahead now := by
  obtain ⟨c, -, hhalf, hstatus, rfl⟩ := enable_eq_ok he
  refine h.put ?_
  cases hd : b.find? pin with
  | none =>
    have hstopped : c.status = .stopped := by rw [hstatus, hd]; rfl
    refine ⟨hhalf, fun e he => ?_, fun remaining hr => ?_⟩
    · rw [hstopped] at he
      cases he
    · rw [hstopped] at hr
      cases hr
  | some d =>
    have hsame : c.status = d.status := by rw [hstatus, hd]; rfl
    have hold := h.of_find? hd
    exact ⟨hhalf, fun e he => hold.next e (hsame ▸ he), fun remaining hr => hold.left remaining (hsame ▸ hr)⟩

theorem start (h : b.Ahead now) (hs : b.start pin now = .ok b') : b'.Ahead now := by
  obtain ⟨c, hc, rfl⟩ := start_eq_ok hs
  have hhalf := (h.of_find? hc).half
  exact h.put (.running hhalf hhalf)

theorem stop (h : b.Ahead now) (hs : b.stop pin = .ok b') : b'.Ahead now := by
  obtain ⟨c, hc, rfl⟩ := stop_eq_ok hs
  exact h.put (h.of_find? hc).stopped

theorem pause (h : b.Ahead now) (hp : b.pause pin now = .ok b') : b'.Ahead now := by
  obtain ⟨c, next, hc, -, rfl⟩ := pause_eq_ok hp
  exact h.put ((h.of_find? hc).paused (Nat.le_max_right _ _))

theorem resume (h : b.Ahead now) {retune : Option (Frequency × Duration)} {half : Option HalfPeriod}
    (hr : b.resume pin now retune = .ok (half, b')) : b'.Ahead now := by
  obtain ⟨c, hc, ⟨-, remaining, hpaused, rfl⟩ | ⟨-, d, -, hhalf, hstatus, rfl⟩⟩ := resume_eq_ok hr
  · have hold := h.of_find? hc
    exact h.put (.running hold.half (hold.left remaining hpaused))
  · refine h.put ?_
    have hnew : Clock.Ahead now { d with status := .running (now + d.half) } := .running hhalf hhalf
    rwa [← hstatus] at hnew

/-- The edges at the end of the next cycle. -/
theorem edges (h : b.Ahead now) : ((Slice.togglesAt b.running (now + 1)).foldl advance b).Ahead (now + 1) := by
  intro d hd
  rw [clocks_edges] at hd
  obtain ⟨c, hc, rfl⟩ := List.mem_map.mp hd
  exact (h c hc).pass

theorem sound (h : b.Ahead now) : b.Sound := fun c hc => (h c hc).half

end Ahead

end ClockBank

end TestProgram
