import TestProgram.Proofs.Bench.Emission
import TestProgram.Proofs.Pattern.Stores
import TestProgram.Proofs.Pin.Covers

/-!
# Veils over a tape

A `Veil` hides the comparisons on some pins, other ones in each cycle, and drops
some of the comments. What is recorded under masks is what is recorded without
them, under a veil (`hold_bench`); and stores that are marked later find the same
records, as long as no record is hidden in part (`markStore_tape`). Neither looks at
what the veil hides.
-/

namespace TestProgram

/-- What is not to be seen of a tape. -/
structure Veil where
  /-- The pins whose comparisons are hidden in a cycle. -/
  hidden : Nat → List PinId
  /-- The cycle that comes next. -/
  cycle : Nat
  /-- Whether a comment is dropped, for the latest comment first. -/
  dropped : List Bool

namespace Veil

def record (hidden : Nat → List PinId) (r : VectorRecord) : VectorRecord :=
  { r with states := veilStates (hidden r.start) r.states }

/-- What is left of items, the latest one first. -/
def recent (hidden : Nat → List PinId) : List Item → (dropped : List Bool) → List Item
  | [], _ => []
  | .comment text :: items, dropped =>
    if dropped.headD false then recent hidden items dropped.tail
    else .comment text :: recent hidden items dropped.tail
  | .vector r :: items, dropped => .vector (record hidden r) :: recent hidden items dropped
  | .loopStart label count :: items, dropped => .loopStart label count :: recent hidden items dropped
  | .loopEnd label :: items, dropped => .loopEnd label :: recent hidden items dropped

/-- What is left of items, in order. -/
def items (v : Veil) (items : List Item) : List Item := (recent v.hidden items.reverse v.dropped).reverse

def tape (v : Veil) (t : Tape) : Tape := { t with recent := recent v.hidden t.recent v.dropped }

/-- The bench with more masks on some pins, and with a tape under the veil. -/
def bench (v : Veil) (ids : List PinId) (b : Bench) : Bench := ⟨b.pins.cover ids, b.clocks, v.tape b.tape⟩

/-- The veil over an empty tape. -/
def clear : Veil := ⟨fun _ => [], 0, []⟩

/-- The veil that hides some pins from the next cycle on. -/
def hide (v : Veil) (ids : List PinId) : Veil :=
  { v with hidden := fun k => if k < v.cycle then v.hidden k else ids }

/-- The veil over one more comment. -/
def drop (v : Veil) (dropped : Bool) : Veil := { v with dropped := dropped :: v.dropped }

/-- The record is hidden as a whole: the same pins in all its cycles. -/
def Whole (v : Veil) (r : VectorRecord) : Prop :=
  ∀ k, r.start ≤ k → k < r.start + r.count → v.hidden k = v.hidden r.start

theorem items_tape (v : Veil) (t : Tape) : (v.tape t).items = v.items t.items := by
  rw [Tape.items, tape, items, Tape.items, List.reverse_reverse]

theorem filterMap_recent (hidden : Nat → List PinId) : ∀ (items : List Item) (dropped : List Bool),
    (recent hidden items dropped).filterMap Item.vector? = (items.filterMap Item.vector?).map (record hidden)
  | [], _ => rfl
  | .vector r :: items, dropped => congrArg (record hidden r :: ·) (filterMap_recent hidden items dropped)
  | .comment text :: items, dropped => by
    rw [recent]
    split <;> exact filterMap_recent hidden items dropped.tail
  | .loopStart _ _ :: items, dropped | .loopEnd _ :: items, dropped => filterMap_recent hidden items dropped

/-- It only matters what is hidden in the cycles in which records begin. -/
theorem recent_congr {hidden hidden' : Nat → List PinId} : ∀ {items : List Item},
    (∀ r, .vector r ∈ items → hidden r.start = hidden' r.start) → ∀ dropped : List Bool,
      recent hidden items dropped = recent hidden' items dropped
  | [], _, _ => rfl
  | i :: items, h, dropped => by
    have hrest := recent_congr fun r hr => h r (List.mem_cons_of_mem i hr)
    cases i with
    | vector r => rw [recent, recent, hrest, record, record, h r List.mem_cons_self]
    | comment text => rw [recent, recent, hrest]
    | loopStart label count | loopEnd label => rw [recent, recent, hrest]

theorem mem_records_of_mem_recent {t : Tape} {r : VectorRecord} (hr : .vector r ∈ t.recent) : r ∈ t.records :=
  List.mem_filterMap.mpr ⟨_, List.mem_reverse.mpr hr, rfl⟩

theorem tape_congr {v v' : Veil} {t : Tape} (hhidden : ∀ r ∈ t.records, v.hidden r.start = v'.hidden r.start)
    (hdropped : v.dropped = v'.dropped) : v.tape t = v'.tape t := by
  rw [tape, tape, hdropped, recent_congr fun r hr => hhidden r (mem_records_of_mem_recent hr)]

/-! ## Recording under a veil -/

theorem tape_push_comment (v : Veil) (dropped : Bool) (t : Tape) (text : String) :
    (v.drop dropped).tape (t.push (.comment text)) =
      if dropped then v.tape t else (v.tape t).push (.comment text) := by
  cases dropped <;> rfl

section

variable {v : Veil} {ids : List PinId}

/-- A vector is recorded with the comparisons that are hidden from then on. -/
theorem tape_recordPieces {states : List PinState} {timeset : String} : ∀ {ns : List Nat} {t : Tape} {m : Marks},
    (∀ k, t.cycle ≤ k → v.hidden k = ids) → v.tape (t.recordPieces states timeset m ns) =
      (v.tape t).recordPieces (veilStates ids states) timeset m ns
  | [], _, _, _ => rfl
  | n :: ns, t, m, h => by
    have hrecord : v.tape (t.record states timeset m n) = (v.tape t).record (veilStates ids states) timeset m n := by
      rw [← h t.cycle (Nat.le_refl _)]
      rfl
    rw [Tape.recordPieces, tape_recordPieces fun k hk => h k (Nat.le_trans (Nat.le_add_right t.cycle n) hk), hrecord]
    rfl

theorem bench_foldl_toggle (toggles : List PinId) (b : Bench) :
    toggles.foldl Bench.toggle (v.bench ids b) = v.bench ids (toggles.foldl Bench.toggle b) := by
  rw [Bench.foldl_toggle, Bench.foldl_toggle, bench, Pinout.cover_foldl_toggle]
  rfl

theorem holdSlices_bench {timeset : String} : ∀ {slices : List Slice} {b : Bench} {m : Marks},
    (∀ k, b.tape.cycle ≤ k → v.hidden k = ids) →
      Bench.holdSlices timeset (v.bench ids b) m slices = v.bench ids (Bench.holdSlices timeset b m slices)
  | [], _, _, _ => rfl
  | s :: slices, b, m, h => by
    have hslice : (v.tape b.tape).recordSlice (b.pins.cover ids).snapshot timeset m s.count =
        v.tape (b.tape.recordSlice b.pins.snapshot timeset m s.count) := by
      rw [Pinout.snapshot_cover, Tape.recordSlice, Tape.recordSlice, tape_recordPieces h]
      rfl
    have hcycle : b.tape.cycle ≤ (b.tape.recordSlice b.pins.snapshot timeset m s.count).cycle := by
      rw [Bench.recordSlice_eq]
      exact Nat.le_add_right _ _
    have hedges : s.toggles.foldl Bench.toggle
        ⟨b.pins.cover ids, b.clocks, (v.tape b.tape).recordSlice (b.pins.cover ids).snapshot timeset m s.count⟩ =
          v.bench ids (s.toggles.foldl Bench.toggle
            { b with tape := b.tape.recordSlice b.pins.snapshot timeset m s.count }) := by
      rw [hslice, ← bench_foldl_toggle]
      rfl
    refine (congrArg (Bench.holdSlices timeset · m.rest slices) hedges).trans (holdSlices_bench fun k hk => h k ?_)
    rw [Bench.foldl_toggle] at hk
    exact Nat.le_trans hcycle hk

/-- Vectors that are held under masks are held without them, and recorded under the
veil. -/
theorem hold_bench {b : Bench} (h : ∀ k, b.tape.cycle ≤ k → v.hidden k = ids) (t : Timeset) (n : Nat) (m : Marks) :
    (v.bench ids b).hold t n m = (b.hold t n m).map (v.bench ids) := by
  unfold Bench.hold
  split
  · rfl
  · split
    · rfl
    · have hslices : (v.bench ids b).clocks.slices n (v.bench ids b).tape.cycle = b.clocks.slices n b.tape.cycle := rfl
      dsimp only
      rw [hslices, holdSlices_bench h]
      dsimp only [bench, tape]
      split <;> rfl

end

/-! ## Stores under a veil -/

/-- A record that is marked for capture can be marked under the veil. -/
theorem storeTail_record {v : Veil} {r : VectorRecord} (h : v.Whole r) (items : List Item) (dropped : List Bool) :
    Tape.storeTail (record v.hidden r) ++ recent v.hidden items dropped =
      recent v.hidden (Tape.storeTail r ++ items) dropped := by
  unfold Tape.storeTail
  by_cases hshort : r.count ≤ max r.group 1
  · rw [if_pos hshort, if_pos (by exact hshort)]
    rfl
  · have hlast : v.hidden (r.start + (r.count - max r.group 1)) = v.hidden r.start :=
      h _ (Nat.le_add_right _ _) (by omega)
    rw [if_neg hshort, if_neg (by exact hshort)]
    simp only [List.cons_append, List.nil_append, recent, record, hlast]

/-- Stores pass over what is not a vector. -/
theorem storeBack_of_not_vector {i : Item} (hi : i.isVector = false) (items : List Item) (skip : Nat) :
    Tape.storeBack (i :: items) skip = (Tape.storeBack items skip).map (i :: ·) := by
  cases i with
  | vector r => cases hi
  | comment text | loopStart label count | loopEnd label => rfl

/-- Under the veil stores find the same records. -/
theorem storeBack_recent {v : Veil} : ∀ {items : List Item}, (∀ r, .vector r ∈ items → v.Whole r) →
    ∀ (dropped : List Bool) (skip : Nat), Tape.storeBack (recent v.hidden items dropped) skip =
      (Tape.storeBack items skip).map (recent v.hidden · dropped)
  | [], _, _, _ => rfl
  | i :: items, h, dropped, skip => by
    have hrest := storeBack_recent fun r hr => h r (List.mem_cons_of_mem i hr)
    cases i with
    | vector r =>
      cases skip with
      | zero => exact congrArg some (storeTail_record (h r List.mem_cons_self) items dropped)
      | succ skip =>
        rw [recent, Tape.storeBack, hrest, Tape.storeBack, Option.map_map, Option.map_map]
        rfl
    | comment text =>
      rw [recent, storeBack_of_not_vector rfl, Option.map_map]
      split
      · rename_i hdropped
        rw [hrest]
        exact congrArg (Option.map · _) (funext fun rest => (if_pos hdropped).symm)
      · rename_i hdropped
        rw [storeBack_of_not_vector rfl, hrest, Option.map_map]
        exact congrArg (Option.map · _) (funext fun rest => (if_neg hdropped).symm)
    | loopStart label count | loopEnd label =>
      rw [recent, storeBack_of_not_vector rfl, hrest, storeBack_of_not_vector rfl, Option.map_map, Option.map_map]
      rfl

theorem vectorCount_tape (v : Veil) (t : Tape) : (v.tape t).vectorCount = t.vectorCount := by
  have hlength := congrArg List.length (filterMap_recent v.hidden t.recent v.dropped)
  rwa [List.length_map, List.length_filterMap_eq_countP, List.length_filterMap_eq_countP] at hlength

/-- A record is marked under the veil as it is without it. -/
theorem markStore_tape {v : Veil} {t : Tape} (h : ∀ r ∈ t.records, v.Whole r) (offset : Nat) :
    (v.tape t).markStore offset = (t.markStore offset).map v.tape := by
  have hrecent (r : VectorRecord) (hr : .vector r ∈ t.recent) : v.Whole r := h r (mem_records_of_mem_recent hr)
  cases offset with
  | zero =>
    rw [Tape.markStore, vectorCount_tape]
    rfl
  | succ skip =>
    rw [Tape.markStore, vectorCount_tape, Tape.markStore, tape, storeBack_recent hrecent]
    cases Tape.storeBack t.recent skip <;> rfl

end Veil

end TestProgram
