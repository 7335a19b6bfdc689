import Mathlib.Data.List.DropRight
import TestProgram.Proofs.Bench.Refusals
import TestProgram.Proofs.Pattern.Singles

/-!
# Captured cycles

Marking a vector that has been recorded stores its last vector group, and no other cycle. What is in front of it and
behind it stays in its place, comments and the ends of loops included, and so do the label and the call of the vector,
and the marks that it had already (`Tape.Captures`).

`Tape.mark` finds the vector by counting positions from the front, and changes the items one after the other. It comes
to the same as `Tape.markStore`, which goes back from the latest item, and where there is no such vector it finds the
tape unchanged (`Tape.mark_outcome`).
-/

namespace TestProgram

/-! ## The cycles of a record in parts -/

/-- The record with a store mark. -/
def VectorRecord.stored (r : VectorRecord) : VectorRecord := { r with store := true }

theorem VectorRecord.length_singles (r : VectorRecord) : r.singles.length = r.count := by
  rw [singles, List.length_map, List.length_range]

namespace Tape

/-- Cycle by cycle, the parts of a marked record are the record with its last vector group stored. -/
theorem singles_storedParts (r : VectorRecord) : (storedParts r).flatMap VectorRecord.singles =
    r.singles.rdrop (max r.group 1) ++ (r.singles.rtake (max r.group 1)).map VectorRecord.stored := by
  rw [List.rdrop, List.rtake, r.length_singles]
  unfold storedParts
  dsimp only
  split
  · rename_i hshort
    rw [Nat.sub_eq_zero_of_le hshort, List.take_zero, List.nil_append, List.drop_zero, List.flatMap_singleton]
    rw [VectorRecord.singles, VectorRecord.singles, List.map_map]
    rfl
  · rename_i hlong
    generalize hlead : r.count - max r.group 1 = lead
    have hcount : r.count = lead + max r.group 1 := by omega
    have hsplit : r.singles = ({ r with count := lead } : VectorRecord).singles ++
        (List.range (max r.group 1)).map fun k =>
          { r with count := 1, start := r.start + (lead + k), label := none, call := none } := by
      rw [VectorRecord.singles, hcount, List.range_add, List.map_append, List.map_map]
      congr 1
      refine List.map_congr_left fun k _ => ?_
      have hlater : lead + k ≠ 0 := by omega
      simp only [Function.comp, if_neg hlater]
    have hlength : ({ r with count := lead } : VectorRecord).singles.length = lead := VectorRecord.length_singles _
    rw [hsplit, List.take_left' hlength, List.drop_left' hlength, List.flatMap_cons, List.flatMap_singleton,
      List.map_map]
    congr 1
    refine List.map_congr_left fun k _ => ?_
    simp only [Function.comp, VectorRecord.stored, ite_self, Nat.add_assoc]

theorem length_storedParts (r : VectorRecord) :
    (storedParts r).length = 1 + if max r.group 1 < r.count then 1 else 0 := by
  unfold storedParts
  dsimp only
  split
  · rename_i hshort
    rw [if_neg (Nat.not_lt.mpr hshort), List.length_singleton]
  · rename_i hlong
    rw [if_pos (Nat.not_le.mp hlong)]
    rfl

/-! ## Finding the vector -/

theorem countP_isVector (items : List Item) : items.countP Item.isVector = (items.filterMap Item.vector?).length :=
  List.length_filterMap_eq_countP.symm

theorem isSome_storeBack_iff {items : List Item} {skip : Nat} :
    (storeBack items skip).isSome ↔ skip < items.countP Item.isVector := by
  induction items generalizing skip with
  | nil => exact ⟨nofun, nofun⟩
  | cons i items ih =>
    cases i with
    | vector r =>
      rw [List.countP_cons_of_pos rfl]
      cases skip with
      | zero => exact ⟨fun _ => Nat.succ_pos _, fun _ => rfl⟩
      | succ k => rw [storeBack, Option.isSome_map, ih, Nat.succ_lt_succ_iff]
    | comment text | loopStart label count | loopEnd label =>
      rw [List.countP_cons_of_neg Bool.false_ne_true, ← ih]
      exact Bool.coe_iff_coe.mpr Option.isSome_map

theorem markStore_eq_error {t : Tape} {offset : Nat} (h : offset = 0 ∨ t.vectorCount < offset) :
    t.markStore offset = .error (.storeOffset offset t.vectorCount) := by
  unfold markStore
  cases offset with
  | zero => rfl
  | succ skip =>
    have hle : ¬ skip < t.recent.countP Item.isVector := Nat.not_lt.mpr (Nat.le_of_lt_succ (h.resolve_left nofun))
    have hnone : storeBack t.recent skip = none :=
      Option.not_isSome_iff_eq_none.mp (mt isSome_storeBack_iff.mp hle)
    simp only [hnone]

theorem exists_markStore {t : Tape} {offset : Nat} (hpos : 0 < offset) (hle : offset ≤ t.vectorCount) :
    ∃ t', t.markStore offset = .ok t' := by
  obtain ⟨skip, rfl⟩ := Nat.exists_eq_add_one.mpr hpos
  obtain ⟨recent, hrecent⟩ := Option.isSome_iff_exists.mp (isSome_storeBack_iff.mpr hle)
  exact ⟨{ t with recent }, by simp only [markStore, hrecent]⟩

/-! ## Changes one after the other -/

/-- The positions of the vectors. -/
def vectorPositions (items : List Item) : List Nat := (items.zipIdx.filter fun i => i.1.isVector).map Prod.snd

/-- The tape with other items. -/
def withItems (t : Tape) (items : List Item) : Tape := { t with recent := items.reverse }

/-- Marks the vector `offset` records back for capture, where each change is made to the items at once. -/
def marking (offset : Nat) : ExceptT Fault (StateM Tape) Unit := do
  let t ← get
  let positions := vectorPositions t.items
  let available := positions.length
  if offset = 0 ∨ available < offset then throw (.storeOffset offset available)
  match positions[available - offset]? with
  | none => throw (.storeOffset offset available)
  | some position =>
    match t.items[position]? with
    | some (.vector r) =>
      let tail := max r.group 1
      if r.count ≤ tail then modify fun t => t.withItems (t.items.set position (.vector { r with store := true }))
      else
        modify fun t => t.withItems (t.items.set position (.vector { r with count := r.count - tail }))
        modify fun t => t.withItems (t.items.insertIdx (position + 1) (.vector { r with
          count := tail, call := none, label := none, store := true, start := r.start + (r.count - tail) }))
    | _ => throw (.storeOffset offset available)

/-- What a mark answers, and the tape after it. -/
def mark (t : Tape) (offset : Nat) : Except Fault Unit × Tape := (marking offset).run.run t

theorem items_withItems (t : Tape) (items : List Item) : (t.withItems items).items = items := List.reverse_reverse _

theorem length_vectorPositions (items : List Item) : (vectorPositions items).length = items.countP Item.isVector := by
  rw [vectorPositions, List.length_map, ← List.countP_eq_length_filter]
  conv_rhs => rw [← List.zipIdx_map_fst 0 items, List.countP_map]
  rfl

/-- The position of a vector is where it is in the list of positions. -/
theorem getElem?_vectorPositions (before : List Item) (r : VectorRecord) (after : List Item) :
    (vectorPositions (before ++ .vector r :: after))[before.countP Item.isVector]? = some before.length := by
  have hsplit : vectorPositions (before ++ .vector r :: after) = vectorPositions before ++ before.length ::
      ((after.zipIdx (before.length + 1)).filter fun i => i.1.isVector).map Prod.snd := by
    rw [vectorPositions, List.zipIdx_append, List.filter_append, List.map_append, List.zipIdx_cons, Nat.zero_add,
      List.filter_cons_of_pos rfl, List.map_cons]
    rfl
  rw [hsplit, ← length_vectorPositions, List.getElem?_append_right (Nat.le_refl _), Nat.sub_self]
  rfl

theorem mark_of_outOfRange {t : Tape} {offset : Nat} (h : offset = 0 ∨ t.vectorCount < offset) :
    t.mark offset = (.error (.storeOffset offset t.vectorCount), t) := by
  have hcount : (vectorPositions t.items).length = t.vectorCount := by
    rw [length_vectorPositions, items, List.countP_reverse, vectorCount]
  rw [mark, marking, run_bind, run_get]
  dsimp only
  rw [hcount]
  simp only [if_pos h]
  rfl

/-- An item that goes behind a given one. -/
theorem insertIdx_append_cons (i j : Item) (after : List Item) : ∀ before : List Item,
    (before ++ i :: after).insertIdx (before.length + 1) j = before ++ i :: j :: after
  | [] => rfl
  | first :: before => congrArg (first :: ·) (insertIdx_append_cons i j after before)

theorem mark_of_split {t : Tape} {before after : List Item} {r : VectorRecord}
    (h : t.items = before ++ .vector r :: after) : t.mark (after.countP Item.isVector + 1) =
      (.ok (), t.withItems (before ++ (storedParts r).map Item.vector ++ after)) := by
  have hset (i : Item) : t.items.set before.length i = before ++ i :: after := by
    rw [h, List.set_append_right _ _ (Nat.le_refl _), Nat.sub_self, List.set_cons_zero]
  have hcount : (vectorPositions t.items).length = before.countP Item.isVector + (after.countP Item.isVector + 1) := by
    rw [length_vectorPositions, h, List.countP_append, List.countP_cons_of_pos rfl]
  have hposition : (vectorPositions t.items)[before.countP Item.isVector]? = some before.length := by
    rw [h, getElem?_vectorPositions]
  have hitem : t.items[before.length]? = some (.vector r) := by
    rw [h, List.getElem?_append_right (Nat.le_refl _), Nat.sub_self]
    rfl
  have hrange : ¬ (after.countP Item.isVector + 1 = 0 ∨
      before.countP Item.isVector + (after.countP Item.isVector + 1) < after.countP Item.isVector + 1) := by omega
  rw [mark, marking, run_bind, run_get]
  dsimp only
  rw [hcount, Nat.add_sub_cancel]
  simp only [if_neg hrange, hposition, hitem]
  unfold storedParts
  dsimp only
  split
  · rw [run_modify, hset, List.append_assoc]
    rfl
  · rw [run_bind, run_modify, hset]
    dsimp only
    rw [run_modify, items_withItems, insertIdx_append_cons, List.append_assoc]
    rfl

theorem eq_withItems {t t' : Tape} {items : List Item} (hcycle : t'.cycle = t.cycle) (hceiling : t'.ceiling = t.ceiling)
    (hitems : t'.items = items) : t' = t.withItems items := by
  obtain ⟨recent, cycle, ceiling⟩ := t'
  obtain rfl := hcycle
  obtain rfl := hceiling
  rw [withItems, ← hitems, Tape.items, List.reverse_reverse]

theorem mark_eq (t : Tape) (offset : Nat) : t.mark offset = match t.markStore offset with
    | .ok t' => (.ok (), t')
    | .error f => (.error f, t) := by
  rcases Nat.eq_zero_or_pos offset with hzero | hpos
  · rw [mark_of_outOfRange (.inl hzero), markStore_eq_error (.inl hzero)]
  · rcases Nat.lt_or_ge t.vectorCount offset with hlt | hle
    · rw [mark_of_outOfRange (.inr hlt), markStore_eq_error (.inr hlt)]
    · obtain ⟨t', ht'⟩ := exists_markStore hpos hle
      obtain ⟨hcycle, hceiling, before, r, after, hitems, hitems', rfl⟩ := items_markStore ht'
      rw [ht', ← countP_isVector, mark_of_split hitems, eq_withItems hcycle hceiling hitems']

/-! ## Recorded tapes -/

/-- The tapes that recording leads to, with any pins and clocks at any time. -/
inductive Recorded : Tape → Prop
  | blank (ceiling : Option Nat) : Recorded (.blank ceiling)
  | push {t : Tape} {i : Item} (h : Recorded t) (hi : i.isVector = false) : Recorded (t.push i)
  | hold {b b' : Bench} {timeset : Timeset} {n : Nat} {m : Marks} (h : Recorded b.tape)
      (hb : b.hold timeset n m = .ok b') : Recorded b'.tape
  | markStore {t t' : Tape} {offset : Nat} (h : Recorded t) (ht : t.markStore offset = .ok t') : Recorded t'

theorem Recorded.gapless {t : Tape} (h : t.Recorded) : t.Gapless := by
  induction h with
  | blank ceiling => exact gapless_blank ceiling
  | push _ hi ih => exact ih.push hi
  | hold _ hb ih => exact .hold hb ih
  | markStore _ ht ih => exact ih.markStore ht

/-- The tape `t'` is the tape `t` with a store mark for the vector `r`, which is between `before` and `after`. -/
structure Captures (t : Tape) (before : List Item) (r : VectorRecord) (after : List Item) (t' : Tape) : Prop where
  place : t.items = before ++ .vector r :: after
  /-- Only the last vector group of `r` has changed, and it is stored now. -/
  cycles : spreadItems t'.items = spreadItems before ++ (r.singles.rdrop (max r.group 1) ++
    (r.singles.rtake (max r.group 1)).map VectorRecord.stored).map Item.vector ++ spreadItems after
  captured : (r.singles.rtake (max r.group 1)).length = min r.count (max r.group 1)
  length : t'.records.length = t.records.length + if max r.group 1 < r.count then 1 else 0
  cycle : t'.cycle = t.cycle
  ceiling : t'.ceiling = t.ceiling
  gapless : t'.Gapless

theorem Recorded.captures {t t' : Tape} (h : t.Recorded) {offset : Nat} (ht : t.markStore offset = .ok t') :
    ∃ before r after, after.countP Item.isVector + 1 = offset ∧ Captures t before r after t' := by
  obtain ⟨hcycle, hceiling, before, r, after, hitems, hitems', rfl⟩ := items_markStore ht
  refine ⟨before, r, after, by rw [countP_isVector], hitems, ?_, ?_, ?_, hcycle, hceiling, (h.markStore ht).gapless⟩
  · rw [hitems', spreadItems_append, spreadItems_append, spreadItems_vectors, singles_storedParts]
  · rw [List.rtake, List.length_drop, r.length_singles]
    omega
  · have hcount (t : Tape) : t.records.length = t.items.countP Item.isVector := (countP_isVector t.items).symm
    have hparts : ((storedParts r).map Item.vector).countP Item.isVector = (storedParts r).length := by
      rw [countP_isVector, filterMap_vector?]
    rw [hcount, hcount, hitems, hitems', List.countP_append, List.countP_append, hparts, length_storedParts,
      List.countP_append, List.countP_cons_of_pos rfl]
    omega

/-- Where there is no vector that far back, a mark fails and finds the tape unchanged. Otherwise it stores the last
vector group of this vector, and changes nothing else. -/
theorem mark_outcome {t : Tape} (h : t.Recorded) (offset : Nat) :
    (offset = 0 ∨ t.vectorCount < offset → t.mark offset = (.error (.storeOffset offset t.vectorCount), t)) ∧
      (0 < offset → offset ≤ t.vectorCount → ∃ t' before r after, t.mark offset = (.ok (), t') ∧
        after.countP Item.isVector + 1 = offset ∧ Captures t before r after t') ∧
      t.markStore offset = (t.mark offset).1.map fun _ => (t.mark offset).2 := by
  refine ⟨mark_of_outOfRange, fun hpos hle => ?_, ?_⟩
  · obtain ⟨t', ht'⟩ := exists_markStore hpos hle
    obtain ⟨before, r, after, hoffset, hcaptures⟩ := h.captures ht'
    exact ⟨t', before, r, after, by rw [mark_eq, ht'], hoffset, hcaptures⟩
  · rw [mark_eq]
    cases t.markStore offset <;> rfl

/-- Five cycles in vector groups of two, a comment and one more cycle. -/
def sensedTape : Tape where
  recent := [.vector ⟨[.compare1], 1, "tp", none, false, none, 1, 5⟩, .comment "settled",
    .vector ⟨[.compare1], 5, "tp", none, false, some "read", 2, 0⟩]
  cycle := 6
  ceiling := some 8

theorem recorded_sensedTape : sensedTape.Recorded := by
  let bench (tape : Tape) : Bench := ⟨⟨[⟨"tdo", .compare1, 0⟩]⟩, .empty, tape⟩
  let t : Timeset := ⟨"tp", some ⟨40000⟩, []⟩
  let first : Tape := ⟨[.vector ⟨[.compare1], 5, "tp", none, false, some "read", 2, 0⟩], 5, some 8⟩
  have hfirst : (bench (.blank (some 8))).hold t 5 ⟨false, some "read", none, 2⟩ = .ok (bench first) := by
    decide +kernel
  have hlast : (bench (first.push (.comment "settled"))).hold t 1 ⟨false, none, none, 1⟩ = .ok (bench sensedTape) := by
    decide +kernel
  exact .hold (.push (.hold (.blank (some 8)) hfirst) rfl) hlast

/-- The vector before the comment is the second one from the end. Its last two cycles are stored. -/
theorem sensedTape_captures : sensedTape.Recorded ∧ 0 < 2 ∧ 2 ≤ sensedTape.vectorCount ∧
    ∃ t' before r after, sensedTape.mark 2 = (.ok (), t') ∧ after.countP Item.isVector + 1 = 2 ∧
      Captures sensedTape before r after t' :=
  ⟨recorded_sensedTape, by decide, by decide, (mark_outcome recorded_sensedTape 2).2.1 (by decide) (by decide)⟩

example : sensedTape.markStore 2 = .ok { sensedTape with recent := [
    .vector ⟨[.compare1], 1, "tp", none, false, none, 1, 5⟩, .comment "settled",
    .vector ⟨[.compare1], 2, "tp", none, true, none, 2, 3⟩,
    .vector ⟨[.compare1], 3, "tp", none, false, some "read", 2, 0⟩] } := by decide

end Tape

end TestProgram
