import Mathlib.Data.List.Basic
import TestProgram.Proofs.Pattern.Division

/-!
# Records and tester cycles

A record stands for as many tester cycles as it is held for
(`VectorRecord.cycles`). Records follow one another without a gap if each
begins where the one before ends (`Consecutive`). A slice is recorded by
appending records to the tape (`recordPieces_eq`): the first takes the marks,
and expanded they are the slice's vector cycle by cycle
(`flatMap_cycles_records`), whatever the slice was divided into.
-/

namespace TestProgram

/-- One cycle as the tester runs it. -/
structure TesterCycle where
  cycle : Nat
  states : List PinState
  timeset : String
  group : Nat
  deriving DecidableEq, Repr

/-- The cycles a record is held for. -/
def VectorRecord.cycles (r : VectorRecord) : List TesterCycle :=
  (List.range r.count).map fun k => ⟨r.start + k, r.states, r.timeset, r.group⟩

theorem VectorRecord.mem_cycles {r : VectorRecord} {k : Nat} (h₁ : r.start ≤ k) (h₂ : k < r.start + r.count) :
    (⟨k, r.states, r.timeset, r.group⟩ : TesterCycle) ∈ r.cycles :=
  List.mem_map.mpr ⟨k - r.start, List.mem_range.mpr (by omega), by rw [Nat.add_sub_cancel' h₁]⟩

/-! ## Consecutive records -/

/-- Records that follow one another from the cycle `start` on, without a gap
and none of them empty. -/
def Consecutive : (start : Nat) → List VectorRecord → Prop
  | _, [] => True
  | start, r :: records => r.start = start ∧ 0 < r.count ∧ Consecutive (start + r.count) records

theorem totalCount_append : ∀ a b : List VectorRecord, totalCount (a ++ b) = totalCount a + totalCount b
  | [], b => (Nat.zero_add _).symm
  | r :: a, b => by rw [List.cons_append, totalCount, totalCount_append a b, totalCount, Nat.add_assoc]

theorem totalCount_eq_sum : ∀ a : List VectorRecord, totalCount a = (a.map VectorRecord.count).sum
  | [] => rfl
  | r :: a => by rw [totalCount, totalCount_eq_sum a, List.map_cons, List.sum_cons]

theorem consecutive_append : ∀ {start : Nat} {a b : List VectorRecord},
    Consecutive start (a ++ b) ↔ Consecutive start a ∧ Consecutive (start + totalCount a) b
  | start, [], b => by simp [Consecutive, totalCount]
  | start, r :: a, b => by
    simp only [List.cons_append, Consecutive, totalCount, consecutive_append (a := a), Nat.add_assoc, and_assoc]

theorem Consecutive.pos : ∀ {start : Nat} {records : List VectorRecord}, Consecutive start records →
    ∀ r ∈ records, 0 < r.count
  | _, _ :: _, h, _, hr => by
    rcases List.mem_cons.mp hr with rfl | hr
    · exact h.2.1
    · exact h.2.2.pos _ hr

/-- The records end where their cycles are used up. -/
theorem Consecutive.end_le : ∀ {start : Nat} {records : List VectorRecord}, Consecutive start records →
    ∀ r ∈ records, start ≤ r.start ∧ r.start + r.count ≤ start + totalCount records
  | start, q :: records, h, r, hr => by
    obtain ⟨hq, -, hrest⟩ := h
    rw [totalCount]
    rcases List.mem_cons.mp hr with rfl | hr
    · omega
    · have := hrest.end_le r hr
      omega

/-! ## Recording -/

/-- The records of a vector in pieces from the cycle `start` on. The first one
takes the marks. -/
def Marks.records (states : List PinState) (timeset : String) :
    Marks → (start : Nat) → List Nat → List VectorRecord
  | _, _, [] => []
  | m, start, n :: ns =>
    ⟨states, n, timeset, m.call, m.store, m.label, m.group, start⟩ :: m.rest.records states timeset (start + n) ns

section

variable (states : List PinState) (timeset : String)

theorem map_count_records : ∀ (m : Marks) (start : Nat) (ns : List Nat),
    (m.records states timeset start ns).map VectorRecord.count = ns
  | _, _, [] => rfl
  | m, start, n :: ns => by rw [Marks.records, List.map_cons, map_count_records m.rest]

theorem totalCount_records (m : Marks) (start : Nat) (ns : List Nat) :
    totalCount (m.records states timeset start ns) = ns.sum := by
  rw [totalCount_eq_sum, map_count_records]

theorem consecutive_records : ∀ (m : Marks) (start : Nat) (ns : List Nat), (∀ n ∈ ns, 0 < n) →
    Consecutive start (m.records states timeset start ns)
  | _, _, [], _ => trivial
  | m, start, n :: ns, h =>
    ⟨rfl, h n List.mem_cons_self,
      consecutive_records m.rest (start + n) ns fun k hk => h k (List.mem_cons_of_mem n hk)⟩

theorem of_mem_records : ∀ {m : Marks} {start : Nat} {ns : List Nat} {r : VectorRecord},
    r ∈ m.records states timeset start ns → r.states = states ∧ r.timeset = timeset ∧ r.group = m.group
  | m, start, n :: ns, r, h => by
    rcases List.mem_cons.mp h with rfl | h
    · exact ⟨rfl, rfl, rfl⟩
    · exact of_mem_records (m := m.rest) h

/-- Cycle by cycle, the records of a vector are the vector. -/
theorem flatMap_cycles_records : ∀ (m : Marks) (start : Nat) (ns : List Nat),
    (m.records states timeset start ns).flatMap VectorRecord.cycles =
      (List.range ns.sum).map fun k => ⟨start + k, states, timeset, m.group⟩
  | _, _, [] => rfl
  | m, start, n :: ns => by
    rw [Marks.records, List.flatMap_cons, flatMap_cycles_records m.rest, List.sum_cons, List.range_add,
      List.map_append, List.map_map, VectorRecord.cycles]
    congr 1
    exact List.map_congr_left fun k _ => by simp only [Function.comp, Nat.add_assoc, Marks.rest]

end

namespace Tape

/-- The tape with more records on it. -/
def append (t : Tape) (records : List VectorRecord) : Tape where
  recent := (records.map Item.vector).reverse ++ t.recent
  cycle := t.cycle + totalCount records
  ceiling := t.ceiling

/-- The records on a tape in order. -/
def records (t : Tape) : List VectorRecord := t.items.filterMap Item.vector?

theorem append_nil (t : Tape) : t.append [] = t := rfl

theorem append_append (t : Tape) (a b : List VectorRecord) : (t.append a).append b = t.append (a ++ b) := by
  simp only [append, totalCount_append, List.map_append, List.reverse_append, List.append_assoc, Nat.add_assoc]

theorem items_append (t : Tape) (records : List VectorRecord) :
    (t.append records).items = t.items ++ records.map Item.vector := by
  simp [items, append]

theorem filterMap_vector? (records : List VectorRecord) :
    (records.map Item.vector).filterMap Item.vector? = records := by
  rw [List.filterMap_map]
  exact List.filterMap_some

theorem records_append (t : Tape) (records : List VectorRecord) :
    (t.append records).records = t.records ++ records := by
  rw [Tape.records, items_append, List.filterMap_append, filterMap_vector?, Tape.records]

theorem recordPieces_eq (states : List PinState) (timeset : String) :
    ∀ (ns : List Nat) (t : Tape) (m : Marks),
      t.recordPieces states timeset m ns = t.append (m.records states timeset t.cycle ns)
  | [], _, _ => rfl
  | n :: ns, t, m => by
    rw [recordPieces, recordPieces_eq states timeset ns, Marks.records, ← List.singleton_append, ← append_append]
    rfl

end Tape

end TestProgram
