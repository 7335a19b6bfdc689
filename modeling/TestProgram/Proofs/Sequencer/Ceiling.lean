import TestProgram.Proofs.Sequencer.Tiling

/-!
# Records and the ceiling

A record may be longer than the platform's largest repeat count, in one case:
the vector group at the start of a run that is to be stored is recorded as a
whole, whatever its size (`Moment.over_ceiling_iff`). No other record is above
the ceiling (`Bench.Capped`), and cutting one for a store puts none there
(`markStore_capped`). `reachable_over_ceiling` says so of all reachable states,
and which vectors lead to such a record; `storedPair` is a state that has one.
-/

namespace TestProgram

/-! ## The records of a run -/

/-- The records of a slice are above the ceiling where its pieces are. -/
theorem over_ceiling_records {k n start : Nat} {m : Marks} {states : List PinState} {timeset : String} (hn : 0 < n) :
    (∃ r ∈ m.records states timeset start (pieces (some k) m.store m.unit n), max k 1 < r.count) ↔
      m.store = true ∧ m.unit < n ∧ max k 1 < m.unit := by
  cases hp : pieces (some k) m.store m.unit n with
  | nil => exact absurd hp (pieces_ne_nil hn)
  | cons x xs =>
    obtain ⟨hx, -, hxs⟩ := pieces_over hn hp
    rw [← hx]
    constructor
    · rintro ⟨r, hr, hover⟩
      have hcount : r.count ∈ x :: xs := by
        rw [← map_count_records states timeset m start (x :: xs)]
        exact List.mem_map_of_mem hr
      rcases List.mem_cons.mp hcount with heq | hmem
      · rwa [← heq]
      · exact absurd hover (Nat.not_lt.mpr (hxs r.count hmem))
    · exact fun hover => ⟨_, List.mem_cons_self, hover⟩

/-- Such a record is a stored vector group. -/
theorem stored_of_over_ceiling {k n start : Nat} {m : Marks} {states : List PinState} {timeset : String} (hn : 0 < n)
    {r : VectorRecord} (hr : r ∈ m.records states timeset start (pieces (some k) m.store m.unit n))
    (hover : max k 1 < r.count) : r.store = true ∧ r.count = m.unit := by
  have hstore := ((over_ceiling_records hn).mp ⟨r, hr, hover⟩).1
  cases hp : pieces (some k) m.store m.unit n with
  | nil => exact absurd hp (pieces_ne_nil hn)
  | cons x xs =>
    obtain ⟨-, hx, hxs⟩ := pieces_over hn hp
    rw [hp] at hr
    rcases List.mem_cons.mp hr with rfl | hr
    · exact ⟨hstore, hx hover⟩
    · have hcount : r.count ∈ xs := by
        rw [← map_count_records states timeset m.rest (start + x) xs]
        exact List.mem_map_of_mem hr
      exact absurd hover (Nat.not_lt.mpr (hxs r.count hcount))

namespace Moment

variable {k : Nat} {timeset : String}

/-- Without a store no record is above the ceiling. -/
theorem le_ceiling_of_unstored : ∀ {slices : List Slice} {s : Moment} {m : Marks}, m.store = false →
    (∀ slice ∈ slices, 0 < slice.count) → ∀ r ∈ records (some k) timeset s m slices, r.count ≤ max k 1
  | slice :: slices, s, m, hm, hpos, r, hr => by
    obtain ⟨hslice, hslices⟩ := List.forall_mem_cons.mp hpos
    rcases List.mem_append.mp hr with hr | hr
    · refine Nat.not_lt.mp fun hover => ?_
      have hstore := ((over_ceiling_records hslice).mp ⟨r, hr, hover⟩).1
      rw [hm] at hstore
      exact nomatch hstore
    · exact le_ceiling_of_unstored (m := m.rest) rfl hslices r hr

theorem over_ceiling_iff {slices : List Slice} {s : Moment} {m : Marks} (hpos : ∀ slice ∈ slices, 0 < slice.count) :
    (∃ r ∈ records (some k) timeset s m slices, max k 1 < r.count) ↔
      m.store = true ∧ max k 1 < m.unit ∧ ∃ slice ∈ slices.head?, m.unit < slice.count := by
  cases slices with
  | nil => exact ⟨nofun, nofun⟩
  | cons slice slices =>
    obtain ⟨hslice, hslices⟩ := List.forall_mem_cons.mp hpos
    have hfirst : (∃ r ∈ m.records s.pins.snapshot timeset s.cycle
        (pieces (some k) m.store m.unit slice.count), max k 1 < r.count) ↔ _ := over_ceiling_records hslice
    constructor
    · rintro ⟨r, hr, hover⟩
      rcases List.mem_append.mp hr with hr | hr
      · obtain ⟨hstore, hlong, hk⟩ := hfirst.mp ⟨r, hr, hover⟩
        exact ⟨hstore, hk, slice, rfl, hlong⟩
      · exact absurd hover (Nat.not_lt.mpr (le_ceiling_of_unstored (m := m.rest) rfl hslices r hr))
    · rintro ⟨hstore, hk, first, hhead, hlong⟩
      obtain rfl := Option.some.inj hhead
      obtain ⟨r, hr, hover⟩ := hfirst.mpr ⟨hstore, hlong, hk⟩
      exact ⟨r, List.mem_append_left _ hr, hover⟩

theorem stored_of_over_ceiling {slices : List Slice} {s : Moment} {m : Marks}
    (hpos : ∀ slice ∈ slices, 0 < slice.count) {r : VectorRecord} (hr : r ∈ records (some k) timeset s m slices)
    (hover : max k 1 < r.count) : r.store = true ∧ r.count = m.unit ∧ r.group = m.group := by
  cases slices with
  | nil => exact nomatch hr
  | cons slice slices =>
    obtain ⟨hslice, hslices⟩ := List.forall_mem_cons.mp hpos
    rcases List.mem_append.mp hr with hr | hr
    · obtain ⟨hstore, hcount⟩ := TestProgram.stored_of_over_ceiling hslice hr hover
      exact ⟨hstore, hcount, (of_mem_records _ _ hr).2.2⟩
    · exact absurd hover (Nat.not_lt.mpr (le_ceiling_of_unstored (m := m.rest) rfl hslices r hr))

end Moment

/-! ## The records of a bench -/

namespace Bench

/-- No record is above the ceiling `k` but for stored vector groups. -/
structure Capped (k : Nat) (b : Bench) : Prop where
  ceiling : b.tape.ceiling = some k
  stored : ∀ r ∈ b.tape.records, max k 1 < r.count → r.store = true ∧ r.count = r.group

/-- A part of a record is above the ceiling only if the record is, which then
is a vector group and stays in one part. -/
theorem over_ceiling_storedParts {k : Nat} {r q : VectorRecord}
    (hr : max k 1 < r.count → r.store = true ∧ r.count = r.group) (hq : q ∈ Tape.storedParts r)
    (hover : max k 1 < q.count) : max k 1 < r.count ∧ q.store = true ∧ q.count = q.group := by
  unfold Tape.storedParts at hq
  dsimp only at hq
  split at hq
  · obtain rfl := List.mem_singleton.mp hq
    exact ⟨hover, rfl, (hr hover).2⟩
  · have hlow : r.count ≤ max k 1 := Nat.not_lt.mp fun hlt => by
      have := (hr hlt).2
      omega
    have hle : q.count ≤ r.count := by
      rcases List.mem_cons.mp hq with rfl | hq
      · exact Nat.sub_le _ _
      · obtain rfl := List.mem_singleton.mp hq
        dsimp only
        omega
    omega

theorem markStore_capped {k : Nat} {b : Bench} (h : Capped k b) {offset : Nat} {tape : Tape}
    (ht : b.tape.markStore offset = .ok tape) :
    Capped k { b with tape } ∧
      ((∃ r ∈ tape.records, max k 1 < r.count) → ∃ r ∈ b.tape.records, max k 1 < r.count) := by
  obtain ⟨-, hceiling, -⟩ := Tape.records_markStore ht
  obtain ⟨r, hmem, hparts⟩ := Tape.mem_records_markStore ht
  -- a record above the ceiling was there before, or is what became of `r`
  have hover : ∀ q ∈ tape.records, max k 1 < q.count →
      (q.store = true ∧ q.count = q.group) ∧ ∃ r ∈ b.tape.records, max k 1 < r.count := by
    intro q hq hover
    rcases hparts q hq with hq | hq
    · exact ⟨h.stored q hq hover, q, hq, hover⟩
    · obtain ⟨hr, hstored⟩ := over_ceiling_storedParts (h.stored r hmem) hq hover
      exact ⟨hstored, r, hmem, hr⟩
  refine ⟨⟨hceiling.trans h.ceiling, fun q hq ho => (hover q hq ho).1⟩, ?_⟩
  rintro ⟨q, hq, ho⟩
  exact (hover q hq ho).2

theorem hold_capped {k : Nat} {b b' : Bench} {t : Timeset} {n : Nat} {m : Marks} (hg : 0 < m.group)
    (h : b.hold t n m = .ok b') (hb : Capped k b) :
    Capped k b' ∧ ((∃ r ∈ b'.tape.records, max k 1 < r.count) ↔ (∃ r ∈ b.tape.records, max k 1 < r.count) ∨
      m.store = true ∧ max k 1 < m.group ∧ ∃ slice ∈ (b.clocks.slices n b.tape.cycle).head?, m.group < slice.count) := by
  obtain ⟨hn, -, htape⟩ := hold_eq_ok h
  have hunit : m.unit = m.group := Nat.max_eq_left hg
  have hpos := b.moment.count_pos_of_mem_slices hn
  have hrecords := records_of_hold h
  rw [hb.ceiling] at hrecords
  have hnew : (∃ r ∈ b.moment.records (some k) t.name m (b.moment.slices n), max k 1 < r.count) ↔ _ :=
    Moment.over_ceiling_iff hpos
  rw [hunit] at hnew
  refine ⟨⟨(congrArg Tape.ceiling htape).trans hb.ceiling, ?_⟩, ?_⟩
  · rw [hrecords]
    intro r hr hover
    rcases List.mem_append.mp hr with hr | hr
    · exact hb.stored r hr hover
    · obtain ⟨hstore, hcount, hgroup⟩ := Moment.stored_of_over_ceiling hpos hr hover
      exact ⟨hstore, by rw [hcount, hunit, hgroup]⟩
  · rw [hrecords, b.moment_slices n, ← hnew]
    simp only [List.mem_append, or_and_right, exists_or]

end Bench

/-! ## Reachable states -/

namespace Sequencer

theorem Move.capped {k : Nat} {a : Act} {c c' : Sequencer} (hm : Move c c' a) (hg : 0 < c.group)
    (hk : c.config.ceiling = some k) (hc : c.bench.Capped k) :
    c'.bench.Capped k ∧
      (a ≠ .emit → (∃ r ∈ c'.records, max k 1 < r.count) → ∃ r ∈ c.records, max k 1 < r.count) := by
  cases hm with
  | note h | setPin s hi h | mask ids h | unmask ids h | enable hi he h | start hi hg hs h | stop hi hs h
  | pause hi hp h | resume hi hr h =>
    rw [records, items, h.bench]
    exact ⟨⟨hc.ceiling, hc.stored⟩, fun _ => id⟩
  | group hpos hg hb hcfg =>
    rw [records, items, hb]
    exact ⟨hc, fun _ => id⟩
  | emit hi hb h =>
    rw [h.bench]
    exact ⟨(Bench.hold_capped (by exact hg) hb hc).1, fun hne => absurd rfl hne⟩
  | store ht h =>
    rw [records, items, h.bench]
    obtain ⟨hcapped, hover⟩ := Bench.markStore_capped hc ht
    exact ⟨hcapped, fun _ => hover⟩
  | item i hi h =>
    rw [records, items, h.bench]
    have hrecords : (c.bench.tape.push i).records = c.bench.tape.records := Tape.records_push hi
    refine ⟨⟨hc.ceiling, by rw [hrecords]; exact hc.stored⟩, ?_⟩
    rintro - ⟨r, hr, hover⟩
    rw [Tape.records] at hrecords
    exact ⟨r, by rwa [hrecords] at hr, hover⟩
  | finish h =>
    rw [records, items, h.bench]
    refine ⟨⟨hk, List.forall_mem_nil _⟩, ?_⟩
    rintro - ⟨r, hr, -⟩
    cases hr

section

variable {name : String} {pins : Pinout} {config : Config} {c : Sequencer} {k : Nat}

/-- What a state needs for `Move.capped`, and keeps. -/
structure UnderCeiling (k : Nat) (c : Sequencer) : Prop where
  group : 0 < c.group
  ceiling : c.config.ceiling = some k
  capped : c.bench.Capped k

theorem UnderCeiling.move {a : Act} {c c' : Sequencer} (hc : UnderCeiling k c) (hm : Move c c' a) :
    UnderCeiling k c' where
  group := hm.group_pos hc.group
  ceiling := by rw [hm.config]; exact hc.ceiling
  capped := (hm.capped hc.group hc.ceiling hc.capped).1

theorem Reachable.underCeiling (hk : config.ceiling = some k) (h : Reachable name pins config c) :
    UnderCeiling k c :=
  h.keep (P := UnderCeiling k) (fun hm hc => hc.move hm)
    ⟨Nat.lt_of_lt_of_le Nat.one_pos (Nat.le_max_right _ _), hk, hk, List.forall_mem_nil _⟩

/-- Without vectors no record comes to be above the ceiling. -/
theorem Moves.over_ceiling {A : Act → Prop} {c c' : Sequencer} (hA : ¬ A .emit) (hm : Moves A c c')
    (hc : UnderCeiling k c) (hover : ∃ r ∈ c'.records, max k 1 < r.count) : ∃ r ∈ c.records, max k 1 < r.count := by
  refine (hm.keep (P := fun c' => UnderCeiling k c' ∧
    ((∃ r ∈ c'.records, max k 1 < r.count) → ∃ r ∈ c.records, max k 1 < r.count)) ?_ ⟨hc, id⟩).2 hover
  rintro a c₁ c₂ ha hm ⟨hc₁, hback⟩
  have hne : a ≠ .emit := by
    rintro rfl
    rcases ha with ha | ha
    · exact nomatch ha
    · exact hA ha
  exact ⟨hc₁.move hm, fun hover => hback ((hm.capped hc₁.group hc₁.ceiling hc₁.capped).2 hne hover)⟩

/-- In a reachable state a record above the ceiling is a stored vector group.
A vector leads to one exactly if a store is pending, its groups are larger
than the ceiling, and more than one group goes by before the first clock edge.
Operations that record no vectors lead to none. -/
theorem reachable_over_ceiling (hk : config.ceiling = some k) (h : Reachable name pins config c) :
    (∀ r ∈ c.records, max k 1 < r.count → r.store = true ∧ r.count = r.group) ∧
      (∀ count timeset call c', c.inhibitVectors = 0 → c.emit count timeset call = (.ok (), c') →
        ((∃ r ∈ c'.records, max k 1 < r.count) ↔ (∃ r ∈ c.records, max k 1 < r.count) ∨
          c.pendingStore = true ∧ max k 1 < c.group ∧
            ∃ slice ∈ (c.clocks.slices count c.cycle).head?, c.group < slice.count)) ∧
      ∀ op : Operation, op.isLeaf = true → ¬ op.Does .emit →
        (∃ r ∈ (op.perform c).after.records, max k 1 < r.count) → ∃ r ∈ c.records, max k 1 < r.count := by
  have hc := h.underCeiling hk
  refine ⟨hc.capped.stored, fun count timeset call c' hi hc' => ?_, fun op hop hemit hover => ?_⟩
  · obtain ⟨t, b, hb, hafter⟩ := hold_of_emit hi hc'
    rw [records, items, hafter.bench]
    exact (Bench.hold_capped (by exact hc.group) hb hc.capped).2
  · exact (op.perform_does c hop).over_ceiling hemit hc hover

end

/-- Groups of two cycles and a store for the next vector. -/
def storingProgram : List Operation := [.setTimeset "tp" (some ⟨40000⟩), .setGroup 2, .store 0]

/-- The settings of a tester that repeats no vector. -/
def unrepeated : Config := { Config.standard .v93k with maxRepeat := some 1 }

def storing : Sequencer := (Operation.performAll storingProgram (new "storing" twoPins unrepeated)).2

theorem storing_over_ceiling :
    unrepeated.ceiling = some 1 ∧ Reachable "storing" twoPins unrepeated storing ∧ storing.inhibitVectors = 0 ∧
      storing.emit 4 none none = (.ok (), (storing.emit 4 none none).2) ∧
      ∃ r ∈ (storing.emit 4 none none).2.records, max 1 1 < r.count := by
  have hreach : Reachable "storing" twoPins unrepeated storing := .performAll storingProgram
  have hopen : storing.inhibitVectors = 0 := by decide +kernel
  have hok : storing.emit 4 none none = (.ok (), (storing.emit 4 none none).2) := Prod.ext (by decide +kernel) rfl
  have hslice : (storing.clocks.slices 4 storing.cycle).head? = some ⟨4, []⟩ := by decide +kernel
  refine ⟨rfl, hreach, hopen, hok, ?_⟩
  have hstored : storing.pendingStore = true ∧ max 1 1 < storing.group := by decide +kernel
  have hlong : storing.group < 4 := by decide +kernel
  exact ((reachable_over_ceiling rfl hreach).2.1 4 none none _ hopen hok).mpr
    (.inr ⟨hstored.1, hstored.2, _, hslice, hlong⟩)

/-- Four cycles in groups of two that are to be stored, on a tester that
repeats no vector. -/
def storedPair : Sequencer :=
  (Operation.performAll (storingProgram ++ [.hold (some 4) none]) (new "stored" twoPins unrepeated)).2

/-- The first record is held for two cycles. -/
theorem not_forall_le_ceiling :
    ¬ ∀ c, Reachable "stored" twoPins unrepeated c → ∀ k, unrepeated.ceiling = some k →
      ∀ r ∈ c.records, r.count ≤ max k 1 := by
  intro hall
  have hcounts : storedPair.records.map VectorRecord.count = [2, 1, 1] := by decide +kernel
  obtain ⟨r, hr, hcount⟩ : ∃ r ∈ storedPair.records, r.count = 2 :=
    List.mem_map.mp (by rw [hcounts]; exact List.mem_cons_self)
  have hle := hall storedPair (.performAll _) 1 rfl r hr
  omega

end Sequencer

end TestProgram
