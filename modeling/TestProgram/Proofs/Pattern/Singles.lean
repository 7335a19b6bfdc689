import TestProgram.Proofs.Bench.Emission

/-!
# Records of one cycle each

A record can be spread out into records of one cycle each (`VectorRecord.singles`): all
of them are stored if it is, and the first one keeps its label and its call. Two rows of
items that are the same when they are spread out differ only in where vectors were cut
into records. The ceiling decides no more than that, as long as it has room for a
vector group (`Moment.singles_records`, `Bench.hold_spread`): the records of a run are
then the singles of the run, whatever the ceiling is.
-/

namespace TestProgram

/-- The record as records of one cycle each. -/
def VectorRecord.singles (r : VectorRecord) : List VectorRecord :=
  (List.range r.count).map fun k =>
    { r with
      count := 1
      start := r.start + k
      label := if k = 0 then r.label else none
      call := if k = 0 then r.call else none }

/-- The item with its vector spread out, if it is one. -/
def Item.singles : Item → List Item
  | .vector r => r.singles.map .vector
  | i => [i]

/-- Items with all vectors spread out. -/
def spreadItems (items : List Item) : List Item := items.flatMap Item.singles

theorem spreadItems_append (a b : List Item) : spreadItems (a ++ b) = spreadItems a ++ spreadItems b :=
  List.flatMap_append

theorem spreadItems_vectors (records : List VectorRecord) :
    spreadItems (records.map Item.vector) = (records.flatMap VectorRecord.singles).map Item.vector := by
  rw [spreadItems, List.flatMap_map, List.map_flatMap]
  rfl

/-- A ceiling that has room for vector groups of a size. -/
def HasRoom (ceiling : Option Nat) (group : Nat) : Prop := ∀ k ∈ ceiling, group ≤ k

instance (ceiling : Option Nat) (group : Nat) : Decidable (HasRoom ceiling group) :=
  inferInstanceAs (Decidable (∀ k ∈ ceiling, group ≤ k))

/-! ## The pieces of a slice -/

/-- What fits into a vector group is not divided. -/
theorem chunks_of_le {ceiling : Option Nat} {group n : Nat} (hroom : HasRoom ceiling group) (hn : 0 < n)
    (hle : n ≤ group) : chunks ceiling group n = [n] := by
  unfold chunks
  split
  · rename_i h
    have hgroup : n = group := Nat.le_antisymm hle (Nat.le_of_dvd hn (Nat.dvd_of_mod_eq_zero h.2.1))
    rw [hgroup, Nat.div_self (by omega)]
    cases ceiling with
    | none => simp [splitEvenly]
    | some k =>
      have hone : 1 ≤ max (k / group) 1 := Nat.le_max_right _ _
      simp only [Option.map_some, splitEvenly, hone, if_true, List.map_singleton, Nat.one_mul]
  · cases ceiling with
    | none => rfl
    | some k =>
      have hk : n ≤ max k 1 := Nat.le_trans (Nat.le_trans hle (hroom k rfl)) (Nat.le_max_left k 1)
      simp only [splitEvenly, hk, if_true]

namespace Marks

/-- The cycle `k` of a vector from the cycle `start` on. The marks go to the first one, and
a store to the first vector group. -/
def single (m : Marks) (states : List PinState) (timeset : String) (start k : Nat) : VectorRecord where
  states := states
  count := 1
  timeset := timeset
  call := if k = 0 then m.call else none
  store := m.store && k < m.unit
  label := if k = 0 then m.label else none
  group := m.group
  start := start + k

variable {states : List PinState} {timeset : String}

theorem single_add_of_rest {m : Marks} (start : Nat) {a k : Nat} (ha : 0 < a) (hstore : m.store = true → m.unit ≤ a) :
    m.single states timeset start (a + k) = m.rest.single states timeset (start + a) k := by
  have hne : a + k ≠ 0 := by omega
  have hstored : (m.store && decide (a + k < m.unit)) = false := by
    cases hm : m.store with
    | false => rfl
    | true =>
      have := hstore hm
      exact decide_eq_false (by omega)
  simp only [single, rest, hne, if_false, hstored, Nat.add_assoc, ite_self, Bool.false_and]

/-- Records of which the first takes the marks are single cycles of which the first takes
the marks, if a store marks the first piece and no more. -/
theorem singles_records : ∀ {m : Marks} {start n : Nat} {ns : List Nat}, 0 < n → (∀ k ∈ ns, 0 < k) →
    (m.store = true → n ≤ m.unit ∧ (ns ≠ [] → n = m.unit)) →
      (m.records states timeset start (n :: ns)).flatMap VectorRecord.singles =
        (List.range (n + ns.sum)).map (m.single states timeset start)
  | m, start, n, ns, hn, hns, hstore => by
    have hfirst : (⟨states, n, timeset, m.call, m.store, m.label, m.group, start⟩ : VectorRecord).singles =
        (List.range n).map (m.single states timeset start) := by
      refine List.map_congr_left fun k hk => ?_
      have hk : k < n := List.mem_range.mp hk
      have hstored : (m.store && decide (k < m.unit)) = m.store := by
        cases hm : m.store with
        | false => rfl
        | true =>
          have := (hstore hm).1
          exact decide_eq_true (by omega)
      simp only [single, hstored]
    rw [records, List.flatMap_cons, hfirst, List.range_add, List.map_append, List.map_map]
    congr 1
    cases ns with
    | nil => rfl
    | cons n' ns =>
      obtain ⟨hn', hns⟩ := List.forall_mem_cons.mp hns
      rw [singles_records (m := m.rest) hn' hns (fun h => absurd h Bool.false_ne_true), List.sum_cons]
      refine List.map_congr_left fun k _ => ?_
      exact (single_add_of_rest start hn fun hm => Nat.le_of_eq ((hstore hm).2 (List.cons_ne_nil n' ns)).symm).symm

/-- The records of a slice, spread out, if the ceiling has room for a group. -/
theorem singles_pieces {m : Marks} {ceiling : Option Nat} {n : Nat} (hroom : HasRoom ceiling m.unit) (hn : 0 < n)
    (start : Nat) : (m.records states timeset start (pieces ceiling m.store m.unit n)).flatMap VectorRecord.singles =
      (List.range n).map (m.single states timeset start) := by
  have hunit : 0 < m.unit := Nat.lt_of_lt_of_le Nat.one_pos (Nat.le_max_right m.group 1)
  have hpos : ∀ x ∈ pieces ceiling m.store m.unit n, 0 < x := fun _ => pieces_pos hunit hn
  have hsum := sum_pieces ceiling m.store m.unit n
  cases hp : pieces ceiling m.store m.unit n with
  | nil => exact absurd hp (pieces_ne_nil hn)
  | cons p ps =>
    rw [hp] at hpos hsum
    rw [singles_records (hpos p List.mem_cons_self) (fun k hk => hpos k (List.mem_cons_of_mem p hk)), ← List.sum_cons,
      hsum]
    intro hstore
    unfold pieces at hp
    split at hp
    · obtain ⟨rfl, -⟩ := List.cons.inj hp
      exact ⟨Nat.le_refl _, fun _ => rfl⟩
    · rename_i hshort
      have hle : n ≤ m.unit := Nat.not_lt.mp fun hlt => hshort ⟨hstore, hlt⟩
      rw [chunks_of_le hroom hn hle] at hp
      obtain ⟨rfl, rfl⟩ := List.cons.inj hp
      exact ⟨hle, fun hne => absurd rfl hne⟩

end Marks

/-! ## Runs -/

theorem Moment.singles_records {ceiling ceiling' : Option Nat} {timeset : String} :
    ∀ {slices : List Slice} {s : Moment} {m : Marks}, HasRoom ceiling m.unit → HasRoom ceiling' m.unit →
      (∀ slice ∈ slices, 0 < slice.count) →
        (s.records ceiling timeset m slices).flatMap VectorRecord.singles =
          (s.records ceiling' timeset m slices).flatMap VectorRecord.singles
  | [], _, _, _, _, _ => rfl
  | slice :: slices, s, m, hroom, hroom', hpos => by
    obtain ⟨hslice, hslices⟩ := List.forall_mem_cons.mp hpos
    rw [Moment.records, Moment.records, List.flatMap_append, List.flatMap_append, Marks.singles_pieces hroom hslice,
      Marks.singles_pieces hroom' hslice, singles_records (m := m.rest) hroom hroom' hslices]

/-! ## Tapes -/

/-- The tape with all vectors spread out, and without a ceiling. -/
def Tape.spread (t : Tape) : Tape := ⟨(spreadItems t.items).reverse, t.cycle, none⟩

/-- The bench with a tape that is spread out. -/
def Bench.spread (b : Bench) : Bench := { b with tape := b.tape.spread }

namespace Tape

theorem spread_inj {t t' : Tape} :
    t.spread = t'.spread ↔ t.cycle = t'.cycle ∧ spreadItems t.items = spreadItems t'.items := by
  rw [spread, spread, Tape.mk.injEq, List.reverse_inj]
  exact ⟨fun h => ⟨h.2.1, h.1⟩, fun h => ⟨h.2, h.1, rfl⟩⟩

theorem spread_push {t t' : Tape} (h : t.spread = t'.spread) (i : Item) : (t.push i).spread = (t'.push i).spread := by
  obtain ⟨hcycle, hitems⟩ := spread_inj.mp h
  have hpush (t : Tape) : spreadItems (t.push i).items = spreadItems t.items ++ spreadItems [i] := by
    rw [← spreadItems_append, items, push, List.reverse_cons]
    rfl
  exact spread_inj.mpr ⟨hcycle, by rw [hpush, hpush, hitems]⟩

theorem spread_append {t t' : Tape} (h : t.spread = t'.spread) {new new' : List VectorRecord}
    (hcount : totalCount new = totalCount new')
    (hnew : new.flatMap VectorRecord.singles = new'.flatMap VectorRecord.singles) :
    (t.append new).spread = (t'.append new').spread := by
  obtain ⟨hcycle, hitems⟩ := spread_inj.mp h
  refine spread_inj.mpr ⟨?_, ?_⟩
  · rw [append, append, hcycle, hcount]
  · rw [items_append, items_append, spreadItems_append, spreadItems_append, hitems, spreadItems_vectors,
      spreadItems_vectors, hnew]

end Tape

/-! ## Benches -/

namespace Bench

variable {b b' : Bench}

theorem spread_inj : b.spread = b'.spread ↔ b.moment = b'.moment ∧ b.tape.spread = b'.tape.spread := by
  refine ⟨fun h => ⟨?_, congrArg tape h⟩, fun ⟨hmoment, htape⟩ => ?_⟩
  · have hmoment : b.spread.moment = b'.spread.moment := congrArg moment h
    exact hmoment
  · obtain ⟨hpins, hclocks, -⟩ := Moment.mk.inj hmoment
    rw [spread, spread, hpins, hclocks, htape]

theorem holdSlices_spread (h : b.spread = b'.spread) (timeset : String) {m : Marks}
    (hroom : HasRoom b.tape.ceiling m.unit) (hroom' : HasRoom b'.tape.ceiling m.unit) {slices : List Slice}
    (hpos : ∀ slice ∈ slices, 0 < slice.count) :
    (holdSlices timeset b m slices).spread = (holdSlices timeset b' m slices).spread := by
  obtain ⟨hmoment, htape⟩ := spread_inj.mp h
  obtain ⟨hend, hheld⟩ := holdSlices_eq timeset slices b m
  obtain ⟨hend', hheld'⟩ := holdSlices_eq timeset slices b' m
  have hsame : (holdSlices timeset b m slices).moment = (holdSlices timeset b' m slices).moment := by
    rw [hend, hend', hmoment]
  refine spread_inj.mpr ⟨hsame, ?_⟩
  have hcycle : b.tape.cycle = b'.tape.cycle := congrArg Moment.cycle hmoment
  have hstop : (holdSlices timeset b m slices).tape.cycle = (holdSlices timeset b' m slices).tape.cycle :=
    congrArg Moment.cycle hsame
  rw [hheld, hheld', hmoment, Tape.append, Tape.append, hcycle] at hstop
  rw [hheld, hheld', hmoment]
  exact Tape.spread_append htape (Nat.add_left_cancel hstop) (Moment.singles_records hroom hroom' hpos)

/-- Ceilings with room for a vector group decide neither whether a run is held nor, if
its vectors are spread out, what is recorded of it. -/
theorem hold_spread (h : b.spread = b'.spread) (t : Timeset) (n : Nat) {m : Marks}
    (hroom : HasRoom b.tape.ceiling m.unit) (hroom' : HasRoom b'.tape.ceiling m.unit) :
    (b.hold t n m).map spread = (b'.hold t n m).map spread := by
  have hmoment := (spread_inj.mp h).1
  have hslices : b.clocks.slices n b.tape.cycle = b'.clocks.slices n b'.tape.cycle := congrArg (·.slices n) hmoment
  have hcycle : b.tape.cycle = b'.tape.cycle := congrArg Moment.cycle hmoment
  unfold hold
  dsimp only
  rw [hslices, hcycle]
  split
  · rfl
  · rename_i hn
    split
    · rfl
    · split
      · rfl
      · have hpos := b'.moment.count_pos_of_mem_slices (Nat.pos_of_ne_zero hn)
        exact congrArg Except.ok (holdSlices_spread h t.name hroom hroom' hpos)

end Bench

end TestProgram
