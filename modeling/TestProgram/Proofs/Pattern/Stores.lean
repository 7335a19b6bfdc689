import TestProgram.Proofs.Pattern.Cycles

/-!
# Stores among the records

Marking a record for capture replaces it by its `storedParts`, and leaves all
other records alone (`records_markStore`). The parts are held for the same
cycles as the record was (`flatMap_cycles_storedParts`), one after the other
and none of them empty.
-/

namespace TestProgram

namespace Tape

/-- What is left of a record that is marked, in order. -/
def storedParts (r : VectorRecord) : List VectorRecord :=
  let tail := max r.group 1
  if r.count ≤ tail then [{ r with store := true }]
  else
    [{ r with count := r.count - tail },
     { r with count := tail, call := none, label := none, store := true, start := r.start + (r.count - tail) }]

theorem storeTail_eq (r : VectorRecord) : storeTail r = ((storedParts r).map Item.vector).reverse := by
  unfold storeTail storedParts
  dsimp only
  split <;> rfl

/-- One vector is replaced, the one with `skip` vectors after it. -/
theorem storeBack_eq_some : ∀ {items items' : List Item} {skip : Nat}, storeBack items skip = some items' →
    ∃ later r earlier, items = later ++ .vector r :: earlier ∧ items' = later ++ storeTail r ++ earlier ∧
      (later.filterMap Item.vector?).length = skip
  | i :: rest, items', skip, h => by
    have pass {k : Nat} (h : (storeBack rest k).map (i :: ·) = some items')
        (hk : k + ([i].filterMap Item.vector?).length = skip) : ∃ later r earlier, i :: rest =
          later ++ .vector r :: earlier ∧ items' = later ++ storeTail r ++ earlier ∧
            (later.filterMap Item.vector?).length = skip := by
      obtain ⟨rest', hrest, rfl⟩ := Option.map_eq_some_iff.mp h
      obtain ⟨later, r, earlier, rfl, rfl, hlength⟩ := storeBack_eq_some hrest
      refine ⟨i :: later, r, earlier, rfl, rfl, ?_⟩
      rw [← List.singleton_append, List.filterMap_append, List.length_append, hlength, Nat.add_comm, hk]
    cases i with
    | vector r =>
      cases skip with
      | zero =>
        obtain rfl := Option.some.inj h
        exact ⟨[], r, rest, rfl, rfl, rfl⟩
      | succ k => exact pass h rfl
    | comment text => exact pass h rfl
    | loopStart label count => exact pass h rfl
    | loopEnd label => exact pass h rfl

theorem records_eq (t : Tape) : t.records = (t.recent.filterMap Item.vector?).reverse := by
  rw [records, items, List.filterMap_reverse]

theorem records_push {t : Tape} {i : Item} (hi : i.isVector = false) : (t.push i).records = t.records := by
  have hnone : i.vector? = none := by simpa [Item.isVector] using hi
  rw [records_eq, records_eq, push, List.filterMap_cons_none hnone]

/-- The record that is `offset` records back is replaced by its parts. -/
theorem items_markStore {t t' : Tape} {offset : Nat} (h : t.markStore offset = .ok t') :
    t'.cycle = t.cycle ∧ t'.ceiling = t.ceiling ∧
      ∃ a r b, t.items = a ++ .vector r :: b ∧ t'.items = a ++ (storedParts r).map Item.vector ++ b ∧
        offset = (b.filterMap Item.vector?).length + 1 := by
  unfold markStore at h
  dsimp only at h
  split at h
  · cases h
  · rename_i skip
    split at h
    · rename_i recent hback
      obtain rfl := Except.ok.inj h
      obtain ⟨later, r, earlier, hrecent, rfl, hlength⟩ := storeBack_eq_some hback
      refine ⟨rfl, rfl, earlier.reverse, r, later.reverse, ?_, ?_, ?_⟩
      · rw [items, hrecent, List.reverse_append, List.reverse_cons, List.append_assoc, List.singleton_append]
      · rw [items, storeTail_eq, List.reverse_append, List.reverse_append, List.reverse_reverse, List.append_assoc]
      · rw [List.filterMap_reverse, List.length_reverse, hlength]
    · cases h

theorem records_markStore {t t' : Tape} {offset : Nat} (h : t.markStore offset = .ok t') :
    t'.cycle = t.cycle ∧ t'.ceiling = t.ceiling ∧
      ∃ a r b, t.records = a ++ r :: b ∧ t'.records = a ++ storedParts r ++ b ∧ offset = b.length + 1 := by
  obtain ⟨hcycle, hceiling, a, r, b, hold, hnew, hoffset⟩ := items_markStore h
  have hvector : Item.vector? (.vector r) = some r := rfl
  refine ⟨hcycle, hceiling, a.filterMap Item.vector?, r, b.filterMap Item.vector?, ?_, ?_, hoffset⟩
  · rw [records, hold, List.filterMap_append, List.filterMap_cons_some hvector]
  · rw [records, hnew, List.filterMap_append, List.filterMap_append, filterMap_vector?]

/-- Then the tape has no records but the old ones and the parts. -/
theorem mem_records_markStore {t t' : Tape} {offset : Nat} (h : t.markStore offset = .ok t') :
    ∃ r ∈ t.records, ∀ q ∈ t'.records, q ∈ t.records ∨ q ∈ storedParts r := by
  obtain ⟨-, -, before, r, after, hold, hnew, -⟩ := records_markStore h
  rw [hold, hnew]
  refine ⟨r, List.mem_append_right _ List.mem_cons_self, fun q hq => ?_⟩
  rcases List.mem_append.mp hq with hq | hq
  · rcases List.mem_append.mp hq with hq | hq
    · exact .inl (List.mem_append_left _ hq)
    · exact .inr hq
  · exact .inl (List.mem_append_right _ (List.mem_cons_of_mem r hq))

/-! ## The parts of a record -/

theorem totalCount_storedParts (r : VectorRecord) : totalCount (storedParts r) = r.count := by
  unfold storedParts
  dsimp only
  split
  · rfl
  · simp only [totalCount]
    omega

theorem consecutive_storedParts {r : VectorRecord} (hr : 0 < r.count) : Consecutive r.start (storedParts r) := by
  unfold storedParts
  dsimp only
  split
  · exact ⟨rfl, hr, trivial⟩
  · exact ⟨rfl, by dsimp only; omega, rfl, by dsimp only; omega, trivial⟩

theorem flatMap_cycles_storedParts (r : VectorRecord) :
    (storedParts r).flatMap VectorRecord.cycles = r.cycles := by
  unfold storedParts
  dsimp only
  split
  · exact List.append_nil _
  · rename_i hlong
    have hcount : r.count = (r.count - max r.group 1) + max r.group 1 := by omega
    conv_rhs => rw [VectorRecord.cycles, hcount, List.range_add, List.map_append, List.map_map]
    rw [List.flatMap_cons, List.flatMap_cons, List.flatMap_nil, List.append_nil, VectorRecord.cycles,
      VectorRecord.cycles]
    congr 1
    exact List.map_congr_left fun k _ => by simp only [Function.comp, Nat.add_assoc]

theorem states_of_mem_storedParts {r p : VectorRecord} (h : p ∈ storedParts r) : p.states = r.states := by
  unfold storedParts at h
  dsimp only at h
  split at h
  · rw [List.mem_singleton.mp h]
  · rcases List.mem_cons.mp h with rfl | h
    · rfl
    · rw [List.mem_singleton.mp h]

/-- A record in several parts lies as it did before. -/
theorem consecutive_parts {start : Nat} {a b parts : List VectorRecord} {r : VectorRecord}
    (h : Consecutive start (a ++ r :: b)) (hparts : Consecutive r.start parts)
    (hcount : totalCount parts = r.count) : Consecutive start (a ++ parts ++ b) := by
  obtain ⟨ha, hr, -, hb⟩ := consecutive_append.mp h
  rw [List.append_assoc, consecutive_append, consecutive_append, hcount, ← hr]
  rw [← hr] at hb
  exact ⟨ha, hparts, hb⟩

theorem totalCount_parts {a b parts : List VectorRecord} {r : VectorRecord} (hcount : totalCount parts = r.count) :
    totalCount (a ++ parts ++ b) = totalCount (a ++ r :: b) := by
  rw [totalCount_append, totalCount_append, totalCount_append, totalCount, hcount, Nat.add_assoc]

end Tape

end TestProgram
