import Mathlib.Order.Bounds.Basic
import TestProgram.Proofs.Bench.Emission

/-!
# What an emission refuses

A vector cannot be held for no cycle, without a period, or across a clock edge that falls inside a vector group. The
edges of a run are looked for slice by slice, where each slice begins at the edge before. All that matters are the
cycles at which the clocks have their edges: the one that is refused is the first of them that is no whole number of
groups after the beginning of the run (`brokenEdge?_eq_some_iff`, `Bench.hold_eq_error_iff`).

`Bench.emit` makes the changes to a bench one after the other, where nothing takes back what was done before a fault.
It comes to the same as `Bench.hold`, and a fault finds the bench unchanged (`Bench.emit_outcome`).
-/

namespace TestProgram

/-! ## Edges to come -/

namespace Moment

variable {group done n e : Nat} {s : Moment}

/-- A clock will have an edge at `e`. -/
def HasEdge (s : Moment) (e : Nat) : Prop := ∃ k ∈ s.clocks.clocks, k.Comes s.cycle e

theorem HasEdge.lt (h : s.HasEdge e) : s.cycle < e := by
  obtain ⟨k, -, hk⟩ := h
  exact hk.lt

theorem hasEdge_succ_iff : s.HasEdge (s.cycle + 1) ↔ s.edges ≠ [] := by
  constructor
  · rintro ⟨k, hk, hcomes⟩
    exact List.ne_nil_of_mem ((Slice.pin_mem_togglesAt s.clocks hk).mpr (Clock.comes_succ_iff.mp hcomes))
  · intro hedges
    obtain ⟨pin, hpin⟩ := List.exists_mem_of_ne_nil _ hedges
    obtain ⟨k, hk, hnext⟩ := Option.bind_eq_some_iff.mp ((Slice.mem_togglesAt_iff s.clocks).mp hpin)
    exact ⟨k, (s.clocks.find?_eq_some_iff.mp hk).1, Clock.comes_succ_iff.mpr hnext⟩

theorem hasEdge_next_iff (he : s.cycle + 1 < e) : s.next.HasEdge e ↔ s.HasEdge e := by
  rw [HasEdge, clocks_next, Slice.pass]
  constructor
  · rintro ⟨k, hk, hcomes⟩
    obtain ⟨k, hmem, rfl⟩ := List.mem_map.mp hk
    exact ⟨k, hmem, (Clock.comes_pass he).mp hcomes⟩
  · rintro ⟨k, hmem, hcomes⟩
    exact ⟨_, List.mem_map_of_mem hmem, (Clock.comes_pass he).mpr hcomes⟩

/-- The edges of the next `n` cycles that do not end a group, when `done` cycles of the run are over. -/
def strays (group done n : Nat) (s : Moment) : Set Nat :=
  {e | s.HasEdge e ∧ e ≤ s.cycle + n ∧ ¬ group ∣ done + (e - s.cycle)}

/-- An edge that ends no group comes up in the next cycle or after it. -/
theorem mem_strays_succ : e ∈ s.strays group done (n + 1) ↔
    (e = s.cycle + 1 ∧ s.edges ≠ [] ∧ ¬ group ∣ done + 1) ∨ e ∈ s.next.strays group (done + 1) n := by
  have hcycle : s.next.cycle = s.cycle + 1 := rfl
  constructor
  · rintro ⟨hedge, hle, hgroup⟩
    rcases Nat.eq_or_lt_of_le hedge.lt with heq | hlt
    · obtain rfl : e = s.cycle + 1 := heq.symm
      rw [Nat.add_sub_cancel_left] at hgroup
      exact .inl ⟨rfl, hasEdge_succ_iff.mp hedge, hgroup⟩
    · refine .inr ⟨(hasEdge_next_iff hlt).mpr hedge, by omega, ?_⟩
      rwa [hcycle, show done + 1 + (e - (s.cycle + 1)) = done + (e - s.cycle) by omega]
  · rintro (⟨rfl, hedges, hgroup⟩ | ⟨hedge, hle, hgroup⟩)
    · refine ⟨hasEdge_succ_iff.mpr hedges, by omega, ?_⟩
      rwa [Nat.add_sub_cancel_left]
    · have hlt : s.cycle + 1 < e := hedge.lt
      refine ⟨(hasEdge_next_iff hlt).mp hedge, by omega, ?_⟩
      rwa [show done + (e - s.cycle) = done + 1 + (e - (s.cycle + 1)) by omega]

theorem isLeast_strays_of_brokenEdge? (h : brokenEdge? group done n s = some e) :
    IsLeast (s.strays group done n) e := by
  induction n generalizing done s with
  | zero => cases h
  | succ n ih =>
    rw [brokenEdge?] at h
    split at h
    · rename_i hfirst
      obtain rfl := Option.some.inj h
      have hgroup : ¬ group ∣ done + 1 := fun hdvd => hfirst.2 (Nat.mod_eq_zero_of_dvd hdvd)
      exact ⟨mem_strays_succ.mpr (.inl ⟨rfl, hfirst.1, hgroup⟩), fun e he => he.1.lt⟩
    · rename_i hfirst
      obtain ⟨hmem, hleast⟩ := ih h
      refine ⟨mem_strays_succ.mpr (.inr hmem), fun e' he' => ?_⟩
      rcases mem_strays_succ.mp he' with ⟨-, hedges, hgroup⟩ | he'
      · exact absurd ⟨hedges, fun hmod => hgroup (Nat.dvd_of_mod_eq_zero hmod)⟩ hfirst
      · exact hleast he'

theorem strays_of_brokenEdge?_eq_none (h : brokenEdge? group done n s = none) : s.strays group done n = ∅ := by
  refine Set.eq_empty_iff_forall_notMem.mpr fun e he => ?_
  induction n generalizing done s with
  | zero =>
    have hlt := he.1.lt
    have hle := he.2.1
    omega
  | succ n ih =>
    rw [brokenEdge?] at h
    split at h
    · cases h
    · rename_i hfirst
      rcases mem_strays_succ.mp he with ⟨-, hedges, hgroup⟩ | he
      · exact hfirst ⟨hedges, fun hmod => hgroup (Nat.dvd_of_mod_eq_zero hmod)⟩
      · exact ih h he

theorem brokenEdge?_eq_some_iff : brokenEdge? group done n s = some e ↔ IsLeast (s.strays group done n) e := by
  refine ⟨isLeast_strays_of_brokenEdge?, fun h => ?_⟩
  cases hbroken : brokenEdge? group done n s with
  | none =>
    rw [strays_of_brokenEdge?_eq_none hbroken] at h
    exact absurd h.1 (Set.notMem_empty e)
  | some e' => rw [(isLeast_strays_of_brokenEdge? hbroken).unique h]

end Moment

/-! ## Refusals -/

namespace Bench

/-- A clock edge of the next `n` cycles falls inside a vector group. -/
structure Stray (b : Bench) (group n e : Nat) : Prop where
  grouped : 1 < group
  edge : ∃ k ∈ b.clocks.clocks, k.Comes b.tape.cycle e
  after : b.tape.cycle < e
  before : e < b.tape.cycle + n
  inside : ¬ group ∣ e - b.tape.cycle

/-- Why a vector cannot be held for `n` cycles. -/
inductive Refuses (b : Bench) (t : Timeset) (n : Nat) (m : Marks) : Fault → Prop where
  | empty (hn : n = 0) : Refuses b t n m (.invalidRepeat 0)
  | untimed (hn : 0 < n) (ht : t.period.isNone = true) : Refuses b t n m (.noActiveTimeset "vector emission")
  | stray {e : Nat} (hn : 0 < n) (ht : t.period.isSome = true) (he : IsLeast {e | b.Stray m.group n e} e) :
    Refuses b t n m (.clockInsideGroup e m.group)

variable {b : Bench} {t : Timeset} {n : Nat} {m : Marks}

theorem strays_moment (hn : 0 < n) : b.moment.strays m.unit 0 (n - 1) = {e | b.Stray m.group n e} := by
  ext e
  constructor
  · rintro ⟨hedge, hle, hgroup⟩
    have hcycle : b.moment.cycle = b.tape.cycle := rfl
    rw [Nat.zero_add] at hgroup
    rw [hcycle] at hle
    -- every cycle ends a group of one cycle
    have hunit : m.unit = m.group ∧ 1 < m.group := by
      have hne : m.unit ≠ 1 := fun hone => hgroup (hone ▸ Nat.one_dvd _)
      rw [Marks.unit] at hne ⊢
      omega
    rw [hunit.1] at hgroup
    exact ⟨hunit.2, hedge, hedge.lt, by omega, hgroup⟩
  · rintro ⟨hgrouped, hedge, hafter, hbefore, hinside⟩
    have hunit : m.unit = m.group := Nat.max_eq_left (Nat.le_of_lt hgrouped)
    refine ⟨hedge, ?_, ?_⟩
    · show e ≤ b.tape.cycle + (n - 1)
      omega
    · rw [hunit, Nat.zero_add]
      exact hinside

theorem hold_of_refuses {f : Fault} (h : b.Refuses t n m f) : b.hold t n m = .error f := by
  cases h with
  | empty hn => rw [hold, if_pos hn]
  | untimed hn ht => rw [hold, if_neg (Nat.ne_of_gt hn), if_pos ht]
  | stray hn ht he =>
    rw [← strays_moment hn] at he
    exact hold_of_brokenEdge hn ht (Moment.brokenEdge?_eq_some_iff.mpr he)

theorem refuses_of_hold {f : Fault} (h : b.hold t n m = .error f) : b.Refuses t n m f := by
  rcases Nat.eq_zero_or_pos n with hzero | hn
  · rw [hold, if_pos hzero] at h
    obtain rfl := Except.error.inj h
    exact .empty hzero
  · by_cases ht : t.period.isSome = true
    · rw [hold_eq hn ht] at h
      split at h
      · rename_i e hbroken
        obtain rfl := Except.error.inj h
        refine .stray hn ht ?_
        rw [← strays_moment hn]
        exact Moment.brokenEdge?_eq_some_iff.mp hbroken
      · cases h
    · have hnone : t.period.isNone = true := by simpa using ht
      rw [hold, if_neg (Nat.ne_of_gt hn), if_pos hnone] at h
      obtain rfl := Except.error.inj h
      exact .untimed hn hnone

theorem hold_eq_error_iff {f : Fault} : b.hold t n m = .error f ↔ b.Refuses t n m f :=
  ⟨refuses_of_hold, hold_of_refuses⟩

theorem exists_hold_iff : (∃ b', b.hold t n m = .ok b') ↔
    0 < n ∧ t.period.isSome = true ∧ ∀ e, ¬ b.Stray m.group n e := by
  constructor
  · rintro ⟨b', h⟩
    have hrefuses {f : Fault} : ¬ b.Refuses t n m f := fun hf => by
      rw [hold_of_refuses hf] at h
      cases h
    have hn : 0 < n := (hold_eq_ok h).1
    have ht : t.period.isSome = true := by
      by_contra hnone
      exact hrefuses (.untimed hn (by simpa using hnone))
    refine ⟨hn, ht, fun e he => ?_⟩
    rw [hold_eq hn ht] at h
    split at h
    · cases h
    · rename_i hbroken
      have hstrays := Moment.strays_of_brokenEdge?_eq_none hbroken
      rw [strays_moment hn] at hstrays
      exact Set.eq_empty_iff_forall_notMem.mp hstrays e he
  · rintro ⟨hn, ht, hstray⟩
    refine hold_of_unbroken hn ht ?_
    cases hbroken : Moment.brokenEdge? m.unit 0 (n - 1) b.moment with
    | none => rfl
    | some e =>
      have hleast := Moment.brokenEdge?_eq_some_iff.mp hbroken
      rw [strays_moment hn] at hleast
      exact absurd hleast.1 (hstray e)

/-! ## Changes one after the other -/

/-- Records slices, with the edges at their ends, where each change is made to the bench at once. -/
def commit (timeset : String) : Marks → List Slice → ExceptT Fault (StateM Bench) Unit
  | _, [] => pure ()
  | m, s :: slices => do
    modify fun b => { b with tape := b.tape.recordSlice b.pins.snapshot timeset m s.count }
    s.toggles.forM fun pin => modify (toggle · pin)
    commit timeset m.rest slices

/-- Holds the present vector for `count` cycles, step by step. Nothing is taken back if a step fails. -/
def emission (t : Timeset) (count : Nat) (m : Marks) : ExceptT Fault (StateM Bench) Unit := do
  if count = 0 then throw (.invalidRepeat 0)
  if t.period.isNone then throw (.noActiveTimeset "vector emission")
  let b ← get
  let slices := b.clocks.slices count b.tape.cycle
  match edgeInGroup? m.unit b.tape.cycle slices with
  | some cycle => throw (.clockInsideGroup cycle m.group)
  | none => commit t.name m slices

/-- What an emission answers, and the bench after it. -/
def emit (b : Bench) (t : Timeset) (count : Nat) (m : Marks) : Except Fault Unit × Bench :=
  (emission t count m).run.run b

theorem run_forM_toggle : ∀ (ids : List PinId) (b : Bench),
    (ids.forM fun pin => (modify (toggle · pin) : ExceptT Fault (StateM Bench) Unit)).run.run b =
      (.ok (), ids.foldl toggle b)
  | [], _ => rfl
  | pin :: ids, b => run_forM_toggle ids (b.toggle pin)

theorem run_commit (timeset : String) : ∀ (m : Marks) (slices : List Slice) (b : Bench),
    (commit timeset m slices).run.run b = (.ok (), holdSlices timeset b m slices)
  | _, [], _ => rfl
  | m, s :: slices, b => by
    rw [commit, run_bind, run_modify]
    dsimp only
    rw [run_bind, run_forM_toggle]
    exact run_commit timeset m.rest slices _

theorem emit_eq : b.emit t n m = match b.hold t n m with
    | .ok b' => (.ok (), b')
    | .error f => (.error f, b) := by
  rw [emit, emission, hold]
  by_cases hn : n = 0
  · simp only [if_pos hn]
    rfl
  · by_cases ht : t.period.isNone = true
    · simp only [if_neg hn, if_pos ht]
      rfl
    · simp only [if_neg hn, if_neg ht]
      rw [run_bind, run_get]
      dsimp only
      cases edgeInGroup? m.unit b.tape.cycle (b.clocks.slices n b.tape.cycle) with
      | some cycle => rfl
      | none => exact run_commit t.name m _ b

/-- An emission fails for no other reasons than those of `Refuses`, with the fault that belongs to the reason, and
leaves the bench as it was. Otherwise it goes through, and the bench is held. -/
theorem emit_outcome (b : Bench) (t : Timeset) (n : Nat) (m : Marks) :
    (∀ f, (b.emit t n m).1 = .error f ↔ b.Refuses t n m f) ∧
      ((b.emit t n m).1 = .ok () ↔ 0 < n ∧ t.period.isSome = true ∧ ∀ e, ¬ b.Stray m.group n e) ∧
      (∀ f, (b.emit t n m).1 = .error f → (b.emit t n m).2 = b) ∧
      b.hold t n m = (b.emit t n m).1.map fun _ => (b.emit t n m).2 := by
  rw [← exists_hold_iff, emit_eq]
  simp only [← hold_eq_error_iff]
  cases b.hold t n m with
  | ok b' => exact ⟨fun f => ⟨nofun, nofun⟩, ⟨fun _ => ⟨b', rfl⟩, fun _ => rfl⟩, nofun, rfl⟩
  | error f =>
    refine ⟨fun f' => ?_, ⟨nofun, nofun⟩, fun _ _ => rfl, rfl⟩
    rw [Except.error.injEq, Except.error.injEq]

end Bench

end TestProgram
