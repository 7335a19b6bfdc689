import TestProgram.Proofs.Bench.Moments
import TestProgram.Proofs.Pattern.Stores

/-!
# Holding a vector

What `Bench.hold` does, in terms of the cycles of the run: it fails if an edge
comes up inside a vector group (`hold_of_brokenEdge`), and otherwise ends in
the moment after the last cycle with the records of the run appended
(`hold_eq_ok`). So a run of `g * m` cycles and `m` runs of `g` cycles are the
same cycles (`hold_mul_agrees_holdTimes`): where the long one is cut and
divided leaves no trace. The records of a run are its cycles without a gap,
and so are those of a tape (`Tape.Gapless`), also if a record is cut in two for
a store.
-/

namespace TestProgram

namespace Bench

def moment (b : Bench) : Moment := ⟨b.pins, b.clocks, b.tape.cycle⟩

theorem foldl_toggle : ∀ (ids : List PinId) (b : Bench),
    ids.foldl toggle b =
      { b with pins := ids.foldl Pinout.toggle b.pins, clocks := ids.foldl ClockBank.advance b.clocks }
  | [], _ => rfl
  | p :: ids, b => foldl_toggle ids (b.toggle p)

theorem recordSlice_eq (t : Tape) (states : List PinState) (timeset : String) (m : Marks) (n : Nat) :
    t.recordSlice states timeset m n =
      t.append (m.records states timeset t.cycle (pieces t.ceiling m.store m.unit n)) := by
  rw [Tape.recordSlice, Tape.recordPieces_eq]

/-- Recording slices goes through their ends and appends their records. -/
theorem holdSlices_eq (timeset : String) : ∀ (slices : List Slice) (b : Bench) (m : Marks),
    (holdSlices timeset b m slices).moment = slices.foldl Moment.skip b.moment ∧
      (holdSlices timeset b m slices).tape =
        b.tape.append (b.moment.records b.tape.ceiling timeset m slices)
  | [], _, _ => ⟨rfl, rfl⟩
  | s :: slices, b, m => by
    have hcycle : ((b.tape.recordSlice b.pins.snapshot timeset m s.count).cycle) = b.tape.cycle + s.count := by
      rw [recordSlice_eq, Tape.append, totalCount_records, sum_pieces]
    have hmoment : (s.toggles.foldl toggle
        { b with tape := b.tape.recordSlice b.pins.snapshot timeset m s.count }).moment = b.moment.skip s := by
      rw [foldl_toggle, moment, hcycle]
      rfl
    obtain ⟨ih₁, ih₂⟩ := holdSlices_eq timeset slices
      (s.toggles.foldl toggle { b with tape := b.tape.recordSlice b.pins.snapshot timeset m s.count }) m.rest
    rw [hmoment] at ih₁ ih₂
    refine ⟨ih₁, ?_⟩
    rw [holdSlices, ih₂, Moment.records, ← Tape.append_append, foldl_toggle, recordSlice_eq]
    rfl

theorem moment_slices (b : Bench) (n : Nat) : b.clocks.slices n b.tape.cycle = b.moment.slices n := rfl

/-- A run that was held, cycle by cycle and record by record. -/
theorem hold_eq_ok {b b' : Bench} {t : Timeset} {n : Nat} {m : Marks} (h : b.hold t n m = .ok b') :
    0 < n ∧ b'.moment = Moment.next^[n] b.moment ∧
      b'.tape = b.tape.append (b.moment.records b.tape.ceiling t.name m (b.moment.slices n)) := by
  unfold hold at h
  split at h
  · cases h
  · rename_i hn
    split at h
    · cases h
    · dsimp only at h
      split at h
      · cases h
      · obtain rfl := Except.ok.inj h
        have hpos : 0 < n := Nat.pos_of_ne_zero hn
        obtain ⟨hmoment, htape⟩ := holdSlices_eq t.name (b.moment.slices n) b m
        exact ⟨hpos, by rw [← b.moment.foldl_skip_slices hpos]; exact hmoment, htape⟩

/-- A run that was held takes as many cycles as it was held for. -/
theorem cycle_of_hold {b b' : Bench} {t : Timeset} {n : Nat} {m : Marks} (h : b.hold t n m = .ok b') :
    b'.tape.cycle = b.tape.cycle + n :=
  (congrArg Moment.cycle (hold_eq_ok h).2.1).trans (b.moment.cycle_iterate n)

theorem names_of_hold {b b' : Bench} {t : Timeset} {n : Nat} {m : Marks} (h : b.hold t n m = .ok b') :
    b'.pins.names = b.pins.names :=
  (congrArg (fun s => s.pins.names) (hold_eq_ok h).2.1).trans (b.moment.names_iterate n)

theorem depths_of_hold {b b' : Bench} {t : Timeset} {n : Nat} {m : Marks} (h : b.hold t n m = .ok b') :
    b'.pins.depths = b.pins.depths :=
  (congrArg (fun s => s.pins.depths) (hold_eq_ok h).2.1).trans (b.moment.depths_iterate n)

theorem records_of_hold {b b' : Bench} {t : Timeset} {n : Nat} {m : Marks} (h : b.hold t n m = .ok b') :
    b'.tape.records =
      b.tape.records ++ b.moment.records b.tape.ceiling t.name m (b.moment.slices n) := by
  rw [(hold_eq_ok h).2.2, Tape.records_append]

/-- Cycle by cycle, the new records are the moments of the run. -/
theorem film_of_hold {b b' : Bench} {t : Timeset} {n : Nat} {m : Marks} (h : b.hold t n m = .ok b') :
    ∃ new, b'.tape.records = b.tape.records ++ new ∧
      new.flatMap VectorRecord.cycles = b.moment.film t.name m.group n :=
  ⟨_, records_of_hold h, Moment.flatMap_cycles_records _ _ _ _ (hold_eq_ok h).1⟩

/-- No edge of a run that was held falls inside a vector group. -/
theorem edgeInGroup?_of_hold {b b' : Bench} {t : Timeset} {n : Nat} {m : Marks} (h : b.hold t n m = .ok b') :
    edgeInGroup? m.unit b.tape.cycle (b.moment.slices n) = none := by
  unfold hold at h
  split at h
  · cases h
  · split at h
    · cases h
    · dsimp only at h
      split at h
      · cases h
      · assumption

/-- Of a run that is not empty and has a period, only the edges decide whether
it is held. -/
theorem hold_eq {b : Bench} {t : Timeset} {n : Nat} {m : Marks} (hn : 0 < n) (ht : t.period.isSome) :
    b.hold t n m = match Moment.brokenEdge? m.unit 0 (n - 1) b.moment with
      | some e => .error (.clockInsideGroup e m.group)
      | none => .ok (holdSlices t.name b m (b.moment.slices n)) := by
  have hperiod : ¬ t.period.isNone = true := by simp [Option.isSome_iff_ne_none.mp ht]
  rw [hold, if_neg (Nat.ne_of_gt hn), if_neg hperiod, ← Moment.edgeInGroup?_slices m.unit b.moment hn]
  rfl

theorem hold_of_brokenEdge {b : Bench} {t : Timeset} {n : Nat} {m : Marks} (hn : 0 < n) (ht : t.period.isSome)
    {e : Nat} (h : Moment.brokenEdge? m.unit 0 (n - 1) b.moment = some e) :
    b.hold t n m = .error (.clockInsideGroup e m.group) := by
  rw [hold_eq hn ht, h]

theorem hold_of_unbroken {b : Bench} {t : Timeset} {n : Nat} {m : Marks} (hn : 0 < n) (ht : t.period.isSome)
    (h : Moment.brokenEdge? m.unit 0 (n - 1) b.moment = none) : ∃ b', b.hold t n m = .ok b' := by
  rw [hold_eq hn ht, h]
  exact ⟨_, rfl⟩

/-! ## Long runs and short runs -/

/-- Holds the present vector `times` times over, each time for `count` cycles. -/
def holdTimes (t : Timeset) (count : Nat) (m : Marks) : (times : Nat) → Bench → Except Fault Bench
  | 0, b => .ok b
  | k + 1, b =>
    match b.hold t count m with
    | .ok b' => holdTimes t count m k b'
    | .error e => .error e

/-- No marks but the group size. -/
def unmarked (group : Nat) : Marks := ⟨false, none, none, group⟩

theorem unit_unmarked {group : Nat} (hg : 0 < group) : (unmarked group).unit = group := Nat.max_eq_left hg

/-- The edges inside groups of a long run are those of its first group and
those of the rest of the run. -/
theorem brokenEdge?_mul_succ {g : Nat} (hg : 0 < g) (k : Nat) (s : Moment) :
    Moment.brokenEdge? g 0 (g * (k + 1) - 1) s =
      (Moment.brokenEdge? g 0 (g - 1) s).or (Moment.brokenEdge? g 0 (g * k - 1) (Moment.next^[g] s)) := by
  rcases Nat.eq_zero_or_pos k with rfl | hk
  · rw [Nat.mul_zero, Nat.zero_add, Nat.mul_one, Nat.zero_sub, Moment.brokenEdge?, Option.or_none]
  · have hgk : 0 < g * k := Nat.mul_pos hg hk
    have hcut : g * (k + 1) - 1 = (g - 1) + (1 + (g * k - 1)) := by rw [Nat.mul_succ]; omega
    have hdone : 0 + (g - 1) + 1 = g := by omega
    have hnext : (Moment.next^[g - 1] s).next = Moment.next^[g] s := by
      rw [← Function.iterate_succ_apply' Moment.next, Nat.succ_eq_add_one, Nat.sub_add_cancel hg]
    rw [hcut, Moment.brokenEdge?_add, Nat.add_comm 1, Moment.brokenEdge?, hdone,
      if_neg (fun hw => hw.2 (Nat.mod_self g)), hnext,
      Moment.brokenEdge?_congr (by rw [Nat.mod_self, Nat.zero_mod] : g % g = 0 % g)]

theorem holdTimes_of_unbroken {t : Timeset} {g : Nat} (hg : 0 < g) (ht : t.period.isSome) :
    ∀ (k : Nat) (b : Bench), Moment.brokenEdge? g 0 (g * k - 1) b.moment = none →
      ∃ b' new, b.holdTimes t g (unmarked g) k = .ok b' ∧ b'.moment = Moment.next^[g * k] b.moment ∧
        b'.tape = b.tape.append new ∧ new.flatMap VectorRecord.cycles = b.moment.film t.name g (g * k)
  | 0, b, _ => ⟨b, [], rfl, rfl, rfl, rfl⟩
  | k + 1, b, h => by
    rw [brokenEdge?_mul_succ hg, Option.or_eq_none_iff] at h
    obtain ⟨hfirst, hrest⟩ := h
    obtain ⟨b₁, hb₁⟩ := hold_of_unbroken (m := unmarked g) hg ht (by rw [unit_unmarked hg]; exact hfirst)
    obtain ⟨-, hmoment, htape⟩ := hold_eq_ok hb₁
    rw [← hmoment] at hrest
    obtain ⟨b', new, hb', hmoment', htape', hcycles⟩ := holdTimes_of_unbroken hg ht k b₁ hrest
    refine ⟨b', b.moment.records b.tape.ceiling t.name (unmarked g) (b.moment.slices g) ++ new, ?_, ?_, ?_, ?_⟩
    · rw [holdTimes, hb₁]
      exact hb'
    · rw [hmoment', hmoment, ← Function.iterate_add_apply, Nat.mul_succ]
    · rw [htape', htape, Tape.append_append]
    · rw [List.flatMap_append, Moment.flatMap_cycles_records _ _ _ _ hg, hcycles, hmoment, Nat.mul_succ,
        Nat.add_comm (g * k), Moment.film_add]
      rfl

theorem holdTimes_of_brokenEdge {t : Timeset} {g : Nat} (hg : 0 < g) (ht : t.period.isSome) {e : Nat} :
    ∀ (k : Nat) (b : Bench), Moment.brokenEdge? g 0 (g * k - 1) b.moment = some e →
      b.holdTimes t g (unmarked g) k = .error (.clockInsideGroup e g)
  | 0, _, h => nomatch h
  | k + 1, b, h => by
    rw [brokenEdge?_mul_succ hg, Option.or_eq_some_iff] at h
    rcases h with h | ⟨hfirst, hrest⟩
    · rw [holdTimes, hold_of_brokenEdge hg ht (by rw [unit_unmarked hg]; exact h)]
      rfl
    · obtain ⟨b₁, hb₁⟩ := hold_of_unbroken (m := unmarked g) hg ht (by rw [unit_unmarked hg]; exact hfirst)
      rw [← (hold_eq_ok hb₁).2.1] at hrest
      rw [holdTimes, hb₁]
      exact holdTimes_of_brokenEdge hg ht k b₁ hrest

/-- Two benches that have gone on from `b` through the same cycles, whatever
records these are in. -/
structure SameCycles (b long short : Bench) : Prop where
  pins : long.pins = short.pins
  clocks : long.clocks = short.clocks
  cycle : long.tape.cycle = short.tape.cycle
  /-- Both have more records than `b`, which are the same vectors cycle by
  cycle. -/
  records : ∃ new new' : List VectorRecord, long.tape.items = b.tape.items ++ new.map Item.vector ∧
    short.tape.items = b.tape.items ++ new'.map Item.vector ∧
    new.flatMap VectorRecord.cycles = new'.flatMap VectorRecord.cycles

theorem SameCycles.of_append {b long short : Bench} {new new' : List VectorRecord}
    (hmoment : long.moment = short.moment) (hlong : long.tape = b.tape.append new)
    (hshort : short.tape = b.tape.append new')
    (hcycles : new.flatMap VectorRecord.cycles = new'.flatMap VectorRecord.cycles) : SameCycles b long short where
  pins := congrArg Moment.pins hmoment
  clocks := congrArg Moment.clocks hmoment
  cycle := congrArg Moment.cycle hmoment
  records := ⟨new, new', by rw [hlong, Tape.items_append], by rw [hshort, Tape.items_append], hcycles⟩

/-- A run of `g * m` cycles and `m` runs of `g` cycles, without marks: either
both fail, with the same fault, or both go through the same cycles. -/
theorem hold_mul_agrees_holdTimes (b : Bench) {t : Timeset} (ht : t.period.isSome) {g m : Nat} (hg : 0 < g)
    (hm : 0 < m) :
    (∀ e, b.hold t (g * m) (unmarked g) = .error e ↔ b.holdTimes t g (unmarked g) m = .error e) ∧
      ∀ long short, b.hold t (g * m) (unmarked g) = .ok long → b.holdTimes t g (unmarked g) m = .ok short →
        SameCycles b long short := by
  have hgm : 0 < g * m := Nat.mul_pos hg hm
  cases hbroken : Moment.brokenEdge? g 0 (g * m - 1) b.moment with
  | some e =>
    have hlong : b.hold t (g * m) (unmarked g) = .error (.clockInsideGroup e g) :=
      hold_of_brokenEdge hgm ht (by rw [unit_unmarked hg]; exact hbroken)
    rw [hlong, holdTimes_of_brokenEdge hg ht m b hbroken]
    exact ⟨fun _ => Iff.rfl, fun _ _ h => nomatch h⟩
  | none =>
    obtain ⟨long, hlong⟩ := hold_of_unbroken (m := unmarked g) hgm ht (by rw [unit_unmarked hg]; exact hbroken)
    obtain ⟨short, new', hshort, hmoment', htape', hcycles'⟩ := holdTimes_of_unbroken hg ht m b hbroken
    obtain ⟨-, hmoment, htape⟩ := hold_eq_ok hlong
    rw [hlong, hshort]
    refine ⟨fun e => ⟨nofun, nofun⟩, fun l s hl hs => ?_⟩
    obtain rfl := Except.ok.inj hl
    obtain rfl := Except.ok.inj hs
    refine SameCycles.of_append (hmoment.trans hmoment'.symm) htape htape' ?_
    rw [hcycles', Moment.flatMap_cycles_records _ _ _ _ hgm]
    rfl

/-- A pin with a clock that has its edges every four cycles. -/
def clockedBench : Bench where
  pins := ⟨[⟨"clk", .drive0, 0⟩]⟩
  clocks := ⟨[⟨0, .ofMegahertz 2, 4, .running 4⟩], List.pairwise_singleton _ _⟩
  tape := .blank (some 5)

/-- Eight cycles at once are two records of four, and four times two cycles
are four records of two; an edge follows the fourth and the eighth cycle. -/
theorem hold_eight_agrees_hold_two :
    (⟨"tp", some ⟨40000⟩, []⟩ : Timeset).period.isSome ∧ 0 < 2 ∧ 0 < 4 ∧
      ∃ long short, clockedBench.hold ⟨"tp", some ⟨40000⟩, []⟩ (2 * 4) (unmarked 2) = .ok long ∧
        clockedBench.holdTimes ⟨"tp", some ⟨40000⟩, []⟩ 2 (unmarked 2) 4 = .ok short ∧
        SameCycles clockedBench long short := by
  obtain ⟨long, hlong⟩ := hold_of_unbroken (b := clockedBench) (t := ⟨"tp", some ⟨40000⟩, []⟩) (n := 2 * 4)
    (m := unmarked 2) (by decide) rfl (by decide)
  obtain ⟨short, -, hshort, -⟩ := holdTimes_of_unbroken (t := ⟨"tp", some ⟨40000⟩, []⟩) (g := 2) (by decide) rfl
    4 clockedBench (by decide)
  exact ⟨rfl, by decide, by decide, long, short, hlong, hshort,
    (hold_mul_agrees_holdTimes clockedBench rfl (by decide) (by decide)).2 long short hlong hshort⟩

end Bench

/-! ## Records without gaps -/

namespace Moment

theorem consecutive_records (ceiling : Option Nat) (timeset : String) :
    ∀ (slices : List Slice) (s : Moment) (m : Marks), (∀ slice ∈ slices, 0 < slice.count) →
      Consecutive s.cycle (records ceiling timeset s m slices)
  | [], _, _, _ => trivial
  | slice :: slices, s, m, h => by
    obtain ⟨hslice, hslices⟩ := List.forall_mem_cons.mp h
    rw [records, consecutive_append, totalCount_records, sum_pieces]
    exact ⟨TestProgram.consecutive_records _ _ m s.cycle _ fun n hn =>
        pieces_pos (Nat.lt_of_lt_of_le Nat.one_pos (Nat.le_max_right _ _)) hslice hn,
      consecutive_records ceiling timeset slices (s.skip slice) m.rest hslices⟩

end Moment

namespace Tape

/-- The records are the cycles up to the present one. -/
structure Gapless (t : Tape) : Prop where
  consecutive : Consecutive 0 t.records
  total : totalCount t.records = t.cycle

theorem gapless_blank (ceiling : Option Nat) : (blank ceiling).Gapless := ⟨trivial, rfl⟩

namespace Gapless

variable {t t' : Tape}

theorem push (h : t.Gapless) {i : Item} (hi : i.isVector = false) : (t.push i).Gapless := by
  have hrecords : (t.push i).records = t.records := records_push hi
  exact ⟨by rw [hrecords]; exact h.consecutive, by rw [hrecords]; exact h.total⟩

theorem markStore (h : t.Gapless) {offset : Nat} (ht : t.markStore offset = .ok t') : t'.Gapless := by
  obtain ⟨hcycle, -, before, r, after, hold, hnew, -⟩ := records_markStore ht
  have hconsecutive := h.consecutive
  have htotal := h.total
  rw [hold] at hconsecutive htotal
  have hpos : 0 < r.count := hconsecutive.pos r (List.mem_append_right before List.mem_cons_self)
  refine ⟨?_, ?_⟩
  · rw [hnew]
    exact consecutive_parts hconsecutive (consecutive_storedParts hpos) (totalCount_storedParts r)
  · rw [hnew, totalCount_parts (totalCount_storedParts r), htotal, hcycle]

theorem hold {b b' : Bench} {timeset : Timeset} {n : Nat} {m : Marks} (hb : b.hold timeset n m = .ok b')
    (h : b.tape.Gapless) : b'.tape.Gapless := by
  obtain ⟨hn, -, htape⟩ := Bench.hold_eq_ok hb
  have hnew := Moment.consecutive_records b.tape.ceiling timeset.name (b.moment.slices n) b.moment m
    (b.moment.count_pos_of_mem_slices hn)
  refine ⟨?_, ?_⟩
  · rw [Bench.records_of_hold hb, consecutive_append, h.total, Nat.zero_add]
    exact ⟨h.consecutive, hnew⟩
  · rw [Bench.records_of_hold hb, totalCount_append, h.total, htape, append]

end Gapless

end Tape

end TestProgram
