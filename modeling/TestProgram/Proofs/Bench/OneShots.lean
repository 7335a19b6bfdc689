import TestProgram.Proofs.Pattern.Singles

/-!
# Marks of one record only

A call and a label go to one record each, the first one of the run that they are
given for: of the records of a run no other has one (`OneShot.hold`), and a record
that is cut in two by a store keeps them on one part (`OneShot.markStore`).

A store goes to the first record too. This is one vector group long if it is stored
and the ceiling has room for a group, or as long as the run if that is shorter, so that
the store is for the first vector group of the run (`Bench.hold_marks_first`).
-/

namespace TestProgram

/-- A mark of one record only, as records have it and as runs are given it. -/
structure OneShot (shown : VectorRecord → Option String) (given : Marks → Option String) : Prop where
  first : ∀ (states : List PinState) (count : Nat) (timeset : String) (m : Marks) (start : Nat),
    shown ⟨states, count, timeset, m.call, m.store, m.label, m.group, start⟩ = given m
  rest : ∀ m : Marks, given m.rest = none
  stored : ∀ r, (Tape.storedParts r).filterMap shown = (shown r).toList

namespace OneShot

theorem call : OneShot VectorRecord.call Marks.call where
  first _ _ _ _ _ := rfl
  rest _ := rfl
  stored r := by
    unfold Tape.storedParts
    dsimp only
    split <;> cases r.call <;> simp

theorem label : OneShot VectorRecord.label Marks.label where
  first _ _ _ _ _ := rfl
  rest _ := rfl
  stored r := by
    unfold Tape.storedParts
    dsimp only
    split <;> cases r.label <;> simp

section

variable {shown : VectorRecord → Option String} {given : Marks → Option String} (h : OneShot shown given)
include h

/-- Of the records of a vector the first one has the mark. -/
theorem records {states : List PinState} {timeset : String} : ∀ {m : Marks} {start : Nat} {ns : List Nat}, ns ≠ [] →
    (m.records states timeset start ns).filterMap shown = (given m).toList
  | m, start, n :: ns, _ => by
    have hrest : (m.rest.records states timeset (start + n) ns).filterMap shown = [] := by
      cases ns with
      | nil => rfl
      | cons k ns => rw [records (List.cons_ne_nil k ns), h.rest, Option.toList_none]
    rw [Marks.records, List.filterMap_cons, h.first, hrest]
    cases given m <;> rfl

theorem moment_records {ceiling : Option Nat} {timeset : String} : ∀ {slices : List Slice} {s : Moment} {m : Marks},
    slices ≠ [] → (∀ slice ∈ slices, 0 < slice.count) →
      (s.records ceiling timeset m slices).filterMap shown = (given m).toList
  | slice :: slices, s, m, _, hpos => by
    obtain ⟨hslice, hslices⟩ := List.forall_mem_cons.mp hpos
    have hrest : ((s.skip slice).records ceiling timeset m.rest slices).filterMap shown = [] := by
      cases slices with
      | nil => rfl
      | cons k slices => rw [moment_records (List.cons_ne_nil k slices) hslices, h.rest, Option.toList_none]
    rw [Moment.records, List.filterMap_append, h.records (pieces_ne_nil hslice), hrest, List.append_nil]

theorem hold {b b' : Bench} {t : Timeset} {n : Nat} {m : Marks} (hb : b.hold t n m = .ok b') :
    b'.tape.records.filterMap shown = b.tape.records.filterMap shown ++ (given m).toList := by
  have hn : 0 < n := (Bench.hold_eq_ok hb).1
  rw [Bench.records_of_hold hb, List.filterMap_append, h.moment_records (b.moment.slices_ne_nil hn)
    (b.moment.count_pos_of_mem_slices hn)]

/-- A record that is marked for capture keeps its call and its label. -/
theorem markStore {t t' : Tape} {offset : Nat} (ht : t.markStore offset = .ok t') :
    t'.records.filterMap shown = t.records.filterMap shown := by
  obtain ⟨-, -, a, r, b, hold, hnew, -⟩ := Tape.records_markStore ht
  have hone : [r].filterMap shown = (shown r).toList := by
    cases hshown : shown r <;> simp [hshown]
  rw [hold, hnew, ← List.singleton_append, List.filterMap_append, List.filterMap_append, List.filterMap_append,
    List.filterMap_append, h.stored, hone, List.append_assoc]

end

end OneShot

/-! ## The first record -/

/-- The record has no marks. -/
structure VectorRecord.Unmarked (r : VectorRecord) : Prop where
  store : r.store = false
  label : r.label = none
  call : r.call = none

/-- When the first record has taken the marks, there are none left. -/
theorem unmarked_of_mem_records {states : List PinState} {timeset : String} (m : Marks) {start : Nat} {ns : List Nat} :
    ∀ r ∈ m.rest.records states timeset start ns, r.Unmarked := by
  induction ns generalizing start with
  | nil => exact List.forall_mem_nil _
  | cons n ns ih => exact List.forall_mem_cons.mpr ⟨⟨rfl, rfl, rfl⟩, ih⟩

/-- If the ceiling has room for a vector group, the first piece of what is to be stored is one group
long, or it is all there is. -/
theorem head_pieces_of_store {ceiling : Option Nat} {group n : Nat} (hroom : HasRoom ceiling group) (hn : 0 < n) :
    ∃ ns, pieces ceiling true group n = min group n :: ns := by
  unfold pieces
  split
  · rename_i hlong
    exact ⟨_, by rw [Nat.min_eq_left (Nat.le_of_lt hlong.2)]⟩
  · rename_i hshort
    have hle : n ≤ group := Nat.not_lt.mp fun hlt => hshort ⟨rfl, hlt⟩
    exact ⟨[], by rw [chunks_of_le hroom hn hle, Nat.min_eq_right hle]⟩

namespace Moment

theorem unmarked_of_mem_records {ceiling : Option Nat} {timeset : String} (m : Marks) {slices : List Slice}
    {s : Moment} : ∀ r ∈ records ceiling timeset s m.rest slices, r.Unmarked := by
  induction slices generalizing s with
  | nil => exact List.forall_mem_nil _
  | cons slice slices ih => exact List.forall_mem_append.mpr ⟨TestProgram.unmarked_of_mem_records m, ih⟩

theorem group_of_mem_records {ceiling : Option Nat} {timeset : String} {slices : List Slice} {s : Moment} {m : Marks} :
    ∀ r ∈ records ceiling timeset s m slices, r.timeset = timeset ∧ r.group = m.group := by
  induction slices generalizing s m with
  | nil => exact List.forall_mem_nil _
  | cons slice slices ih => exact List.forall_mem_append.mpr ⟨fun r hr => (of_mem_records _ _ hr).2, ih⟩

/-- The first slice is the whole run, or made of whole vector groups. -/
theorem head_slices {group : Nat} {s : Moment} {n : Nat} (hn : 0 < n)
    (hedge : Bench.edgeInGroup? group s.cycle (s.slices n) = none) :
    ∃ slice slices, s.slices n = slice :: slices ∧ 0 < slice.count ∧ slice.count ≤ n ∧
      (slice.count < n → group ∣ slice.count) := by
  refine (slices_induction (motive := fun s n slices => Bench.edgeInGroup? group s.cycle slices = none →
    ∃ slice rest, slices = slice :: rest ∧ 0 < slice.count ∧ slice.count ≤ n ∧ (slice.count < n → group ∣ slice.count))
    ?_ ?_ s hn).2 hedge
  · intro s n hn _ _
    exact ⟨_, _, rfl, hn, Nat.le_refl n, fun hlt => absurd hlt (Nat.lt_irrefl n)⟩
  · intro s k n hk _ _ _ hne _ hedge
    refine ⟨_, _, rfl, hk, Nat.le_add_right k n, fun _ => ?_⟩
    rw [edgeInGroup?_cons hne] at hedge
    split at hedge
    · cases hedge
    · rename_i hmod
      exact Nat.dvd_of_mod_eq_zero (not_not.mp hmod)

/-- The first record of a run takes the marks. If it is stored, it is the first vector group. -/
theorem exists_first_record {ceiling : Option Nat} (s : Moment) (timeset : String) {m : Marks} {n : Nat} (hn : 0 < n)
    (hedge : Bench.edgeInGroup? m.unit s.cycle (s.slices n) = none) (hroom : HasRoom ceiling m.unit) :
    ∃ count later, records ceiling timeset s m (s.slices n) =
        ⟨s.pins.snapshot, count, timeset, m.call, m.store, m.label, m.group, s.cycle⟩ :: later ∧
      (∀ r ∈ later, r.Unmarked) ∧ (m.store = true → count = min m.unit n) := by
  obtain ⟨slice, slices, hslices, hpos, hle, hdvd⟩ := head_slices hn hedge
  have hsome : pieces ceiling m.store m.unit slice.count ≠ [] := pieces_ne_nil hpos
  obtain ⟨count, ns, hpieces⟩ := List.exists_cons_of_ne_nil hsome
  refine ⟨count, m.rest.records s.pins.snapshot timeset (s.cycle + count) ns ++
    records ceiling timeset (s.skip slice) m.rest slices, ?_, ?_, fun hstore => ?_⟩
  · rw [hslices, records, hpieces, Marks.records, List.cons_append]
  · exact List.forall_mem_append.mpr ⟨TestProgram.unmarked_of_mem_records m, unmarked_of_mem_records m⟩
  · -- a slice that ends before the run has room for a whole group
    have hgroup : min m.unit slice.count = min m.unit n := by
      rcases Nat.lt_or_ge slice.count n with hlt | hge
      · have := Nat.le_of_dvd hpos (hdvd hlt)
        omega
      · rw [Nat.le_antisymm hle hge]
    obtain ⟨ns', hhead⟩ := head_pieces_of_store hroom hpos
    rw [hstore, hhead] at hpieces
    rw [← (List.cons.inj hpieces).1, hgroup]

end Moment

namespace Bench

/-- The records `first :: later` of a run of `n` cycles from the cycle `start` on. What the run is marked with is for
its first record, or for its first vector group. -/
structure MarksFirst (timeset : String) (m : Marks) (start n : Nat) (first : VectorRecord)
    (later : List VectorRecord) : Prop where
  consecutive : Consecutive start (first :: later)
  total : totalCount (first :: later) = n
  /-- The stored records cover the first vector group of a run that is to be stored, and no other cycle. -/
  store : ∀ k < n, (∃ r ∈ first :: later, r.store = true ∧ r.start ≤ start + k ∧ start + k < r.start + r.count) ↔
    m.store = true ∧ k < min m.group n
  label : first.label = m.label ∧ ∀ r ∈ later, r.label = none
  call : first.call = m.call ∧ ∀ r ∈ later, r.call = none
  timeset : ∀ r ∈ first :: later, r.timeset = timeset
  group : ∀ r ∈ first :: later, r.group = m.group

/-- One-shot marks are for the start of a run only, however it is cut at clock edges and under the ceiling. -/
theorem hold_marks_first {b b' : Bench} {t : Timeset} {n : Nat} {m : Marks} (hgroup : 1 ≤ m.group)
    (hroom : HasRoom b.tape.ceiling m.group) (h : b.hold t n m = .ok b') :
    ∃ first later, b'.tape.items = b.tape.items ++ (first :: later).map Item.vector ∧
      MarksFirst t.name m b.tape.cycle n first later := by
  obtain ⟨hn, -, htape⟩ := hold_eq_ok h
  have hunit : m.unit = m.group := Nat.max_eq_left hgroup
  have hconsecutive := Moment.consecutive_records b.tape.ceiling t.name (b.moment.slices n) b.moment m
    (b.moment.count_pos_of_mem_slices hn)
  have hcommon : ∀ r ∈ b.moment.records b.tape.ceiling t.name m (b.moment.slices n),
      r.timeset = t.name ∧ r.group = m.group := Moment.group_of_mem_records
  have htotal : totalCount (b.moment.records b.tape.ceiling t.name m (b.moment.slices n)) = n := by
    have hcycle := cycle_of_hold h
    rw [htape, Tape.append] at hcycle
    exact Nat.add_left_cancel hcycle
  have hfits : HasRoom b.tape.ceiling m.unit := by rw [hunit]; exact hroom
  obtain ⟨count, later, hrecords, hlater, hcount⟩ :=
    b.moment.exists_first_record t.name hn (edgeInGroup?_of_hold h) hfits
  rw [hunit] at hcount
  rw [hrecords] at hconsecutive hcommon htotal htape
  refine ⟨_, later, by rw [htape, Tape.items_append], hconsecutive, htotal, fun k hk => ?_,
    ⟨rfl, fun r hr => (hlater r hr).label⟩, ⟨rfl, fun r hr => (hlater r hr).call⟩, fun r hr => (hcommon r hr).1,
    fun r hr => (hcommon r hr).2⟩
  have hstart : b.moment.cycle = b.tape.cycle := rfl
  constructor
  · rintro ⟨r, hr, hstore, hfrom, hto⟩
    rcases List.mem_cons.mp hr with rfl | hr
    · dsimp only at hstore hto
      have := hcount hstore
      exact ⟨hstore, by omega⟩
    · rw [(hlater r hr).store] at hstore
      cases hstore
  · rintro ⟨hstore, hlt⟩
    refine ⟨_, List.mem_cons_self, hstore, Nat.le_add_right _ k, ?_⟩
    dsimp only
    rw [hcount hstore]
    omega

/-- Seven cycles with an edge after the fourth are records of two, two and three; the first one is stored. -/
theorem hold_seven_marks_first :
    1 ≤ 2 ∧ HasRoom clockedBench.tape.ceiling 2 ∧
      ∃ b', clockedBench.hold ⟨"tp", some ⟨40000⟩, []⟩ 7 ⟨true, some "init", some "sub", 2⟩ = .ok b' ∧
        ∃ first later, b'.tape.items = clockedBench.tape.items ++ (first :: later).map Item.vector ∧
          MarksFirst "tp" ⟨true, some "init", some "sub", 2⟩ clockedBench.tape.cycle 7 first later := by
  obtain ⟨b', h⟩ := hold_of_unbroken (b := clockedBench) (t := ⟨"tp", some ⟨40000⟩, []⟩) (n := 7)
    (m := ⟨true, some "init", some "sub", 2⟩) (by decide) rfl (by decide)
  exact ⟨by decide, by decide, b', h, hold_marks_first (by decide) (by decide) h⟩

end Bench

end TestProgram
