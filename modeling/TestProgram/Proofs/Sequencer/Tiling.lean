import Mathlib.Order.Bounds.Defs
import TestProgram.Proofs.Bench.Emission
import TestProgram.Proofs.Sequencer.Paths

/-!
# Records tile the cycles

In every reachable state the records of a sequencer are the cycles up to the
present one, without a gap and without an overlap, and each of them has a
state for every pin (`Bench.Tiled`, `Reachable.tiled`). Whole runs of new
records keep it that way (`hold_tiled`), and so does a record that is cut in
two for a store (`Tiled.markStore`), as on any tape (`Tape.Gapless`).
`reachable_records_tile` adds by how much the operations that record vectors
move the present cycle.
-/

namespace TestProgram

/-! ## The records of a run -/

namespace Moment

theorem length_states_of_mem_records {ceiling : Option Nat} {timeset : String} {r : VectorRecord} :
    ∀ {slices : List Slice} {s : Moment} {m : Marks}, r ∈ records ceiling timeset s m slices →
      r.states.length = s.pins.pins.length
  | slice :: slices, s, m, h => by
    rcases List.mem_append.mp h with h | h
    · rw [(of_mem_records _ _ h).1, Pinout.snapshot, List.length_map]
    · rw [length_states_of_mem_records h, skip, Pinout.length_of_names (Pinout.names_foldl Pinout.names_toggle _ _)]

end Moment

namespace Bench

/-- The records are the cycles up to the present one, with `width` pins. -/
structure Tiled (width : Nat) (b : Bench) : Prop where
  consecutive : Consecutive 0 b.tape.records
  total : totalCount b.tape.records = b.tape.cycle
  states : ∀ r ∈ b.tape.records, r.states.length = width
  pins : b.pins.pins.length = width

namespace Tiled

variable {width : Nat} {b : Bench}

theorem gapless (h : Tiled width b) : b.tape.Gapless := ⟨h.consecutive, h.total⟩

theorem push (h : Tiled width b) {i : Item} (hi : i.isVector = false) :
    Tiled width { b with tape := b.tape.push i } := by
  have hgapless := h.gapless.push hi
  have hrecords : (b.tape.push i).records = b.tape.records := Tape.records_push hi
  exact ⟨hgapless.consecutive, hgapless.total, by rw [hrecords]; exact h.states, h.pins⟩

theorem markStore (h : Tiled width b) {offset : Nat} {tape : Tape} (ht : b.tape.markStore offset = .ok tape) :
    Tiled width { b with tape } := by
  have hgapless := h.gapless.markStore ht
  obtain ⟨marked, hmarked, hparts⟩ := Tape.mem_records_markStore ht
  refine ⟨hgapless.consecutive, hgapless.total, ?_, h.pins⟩
  show ∀ q ∈ tape.records, q.states.length = width
  intro q hq
  rcases hparts q hq with hq | hq
  · exact h.states q hq
  · rw [Tape.states_of_mem_storedParts hq]
    exact h.states marked hmarked

end Tiled

theorem hold_tiled {width : Nat} {b b' : Bench} {t : Timeset} {n : Nat} {m : Marks} (h : b.hold t n m = .ok b')
    (hb : Tiled width b) : Tiled width b' := by
  have hgapless := Tape.Gapless.hold h hb.gapless
  refine ⟨hgapless.consecutive, hgapless.total, ?_, ?_⟩
  · rw [records_of_hold h]
    intro r hr
    rcases List.mem_append.mp hr with hr | hr
    · exact hb.states r hr
    · exact (Moment.length_states_of_mem_records hr).trans hb.pins
  · exact (Pinout.length_of_names (names_of_hold h)).trans hb.pins

end Bench

/-! ## Moves and runs -/

namespace Sequencer

/-- The records in order. -/
def records (c : Sequencer) : List VectorRecord := c.items.filterMap Item.vector?

/-- The pins that are declared stay the same. -/
theorem Move.names {a : Act} {c c' : Sequencer} (hm : Move c c' a) : c'.pins.names = c.pins.names := by
  cases hm with
  | note h | enable hi he h | stop hi hs h | pause hi hp h | resume hi hr h | store ht h | item i hi h | finish h =>
    rw [pins, h.bench, pins]
  | group hpos hg hb hcfg => rw [pins, hb, pins]
  | setPin s hi h =>
    rw [pins, h.bench]
    exact Pinout.names_set c.pins _ s
  | mask ids h =>
    rw [pins, h.bench]
    exact Pinout.names_foldl Pinout.names_mask ids c.pins
  | unmask ids h =>
    rw [pins, h.bench]
    exact Pinout.names_foldl Pinout.names_unmask ids c.pins
  | start hi hg hs h =>
    rw [pins, h.bench]
    dsimp only
    split
    · rfl
    · exact Pinout.names_set c.pins _ .drive0
  | emit hi hb h =>
    rw [pins, h.bench]
    exact Bench.names_of_hold hb

theorem Moves.names {A : Act → Prop} {c c' : Sequencer} (hm : Moves A c c') : c'.pins.names = c.pins.names :=
  hm.keep (P := fun c' => c'.pins.names = c.pins.names) (fun _ hm h => hm.names.trans h) rfl

theorem Move.tiled {width : Nat} {a : Act} {c c' : Sequencer} (hm : Move c c' a) (hc : c.bench.Tiled width) :
    c'.bench.Tiled width := by
  have hpins : c'.pins.pins.length = width := (Pinout.length_of_names hm.names).trans hc.pins
  cases hm with
  | note h | setPin s hi h | mask ids h | unmask ids h | enable hi he h | start hi hg hs h | stop hi hs h
  | pause hi hp h | resume hi hr h =>
    rw [pins, h.bench] at hpins
    rw [h.bench]
    exact ⟨hc.consecutive, hc.total, hc.states, hpins⟩
  | group hpos hg hb hcfg =>
    rw [hb]
    exact hc
  | emit hi hb h =>
    rw [h.bench]
    exact Bench.hold_tiled hb hc
  | store ht h =>
    rw [h.bench]
    exact hc.markStore ht
  | item i hi h =>
    rw [h.bench]
    exact hc.push hi
  | finish h =>
    rw [h.bench]
    exact ⟨trivial, rfl, List.forall_mem_nil _, hc.pins⟩

theorem Move.group_pos {a : Act} {c c' : Sequencer} (hm : Move c c' a) (hc : 0 < c.group) : 0 < c'.group := by
  cases hm with
  | group hpos hg hb hcfg => exact Nat.pos_of_ne_zero hpos
  | note h | setPin s hi h | mask ids h | unmask ids h | enable hi he h | start hi hg hs h | stop hi hs h
  | pause hi hp h | resume hi hr h | emit hi hb h | store ht h | item i hi h | finish h =>
    rw [h.group]
    exact hc

/-- Only vectors take cycles, and only the end of a pattern takes them back. -/
theorem Move.cycle_eq {a : Act} {c c' : Sequencer} (hm : Move c c' a) (hemit : a ≠ .emit) (hfinish : a ≠ .finish) :
    c'.cycle = c.cycle := by
  cases hm with
  | note h | setPin s hi h | mask ids h | unmask ids h | enable hi he h | start hi hg hs h | stop hi hs h
  | pause hi hp h | resume hi hr h | item i hi h => rw [cycle, h.bench]; rfl
  | group hpos hg hb hcfg => rw [cycle, hb]; rfl
  | store ht h => rw [cycle, h.bench]; exact (Tape.records_markStore ht).1
  | emit hi hb h => exact absurd rfl hemit
  | finish h => exact absurd rfl hfinish

theorem Move.cycle_le {a : Act} {c c' : Sequencer} (hm : Move c c' a) (hfinish : a ≠ .finish) :
    c.cycle ≤ c'.cycle := by
  by_cases hemit : a = .emit
  · subst hemit
    cases hm with
    | emit hi hb h =>
      rw [cycle, cycle, h.bench, Bench.cycle_of_hold hb]
      exact Nat.le_add_right _ _
  · exact Nat.le_of_eq (hm.cycle_eq hemit hfinish).symm

theorem Moves.cycle_le {A : Act → Prop} {c c' : Sequencer} (hA : ¬ A .finish) (h : Moves A c c') :
    c.cycle ≤ c'.cycle := by
  refine h.keep (P := fun c' => c.cycle ≤ c'.cycle) (fun {a} _ _ ha hm hle => Nat.le_trans hle (hm.cycle_le ?_))
    (Nat.le_refl _)
  rintro rfl
  exact ha.elim nofun hA

section

variable {name : String} {pins : Pinout} {config : Config} {c : Sequencer}

theorem tiled_new (name : String) (pins : Pinout) (config : Config) :
    (new name pins config).bench.Tiled pins.pins.length :=
  ⟨trivial, rfl, List.forall_mem_nil _, rfl⟩

theorem Reachable.tiled (h : Reachable name pins config c) : c.bench.Tiled pins.pins.length :=
  h.keep (P := fun c => c.bench.Tiled pins.pins.length) (fun hm => hm.tiled) (tiled_new name pins config)

theorem Path.tiled {log : List LogEntry} (h : Path (new name pins config) log c) : c.bench.Tiled pins.pins.length :=
  (h.keep (P := fun c => c.bench.Tiled pins.pins.length) (fun hm => hm.tiled) (tiled_new name pins config)).2

theorem Reachable.group_pos (h : Reachable name pins config c) : 0 < c.group :=
  h.keep (P := fun c => 0 < c.group) (fun hm => hm.group_pos) (Nat.lt_of_lt_of_le Nat.one_pos (Nat.le_max_right _ _))

end

/-! ## Counting cycles -/

/-- A count is rounded up to the least number of whole groups. -/
theorem align_isLeast {c : Sequencer} (hg : 0 < c.group) (count : Nat) :
    IsLeast {m | c.group ∣ m ∧ count ≤ m} (c.align count).1 := by
  unfold align
  split
  · rename_i h
    refine ⟨⟨?_, Nat.le_refl count⟩, fun m hm => hm.2⟩
    rcases h with h | h
    · obtain h1 : c.group = 1 := by omega
      rw [h1]
      exact Nat.one_dvd count
    · exact Nat.dvd_of_mod_eq_zero h
  · refine ⟨⟨Nat.dvd_mul_left _ _, Word.ceilDiv_mul_ge count hg⟩, ?_⟩
    rintro m ⟨⟨k, rfl⟩, hk⟩
    show Word.ceilDiv count c.group * c.group ≤ c.group * k
    rw [Nat.mul_comm c.group k] at hk ⊢
    exact Nat.mul_le_mul_right c.group (Word.ceilDiv_le hk)

theorem align_keeps (c : Sequencer) (count : Nat) : (c.align count).2.bench = c.bench ∧
    (c.align count).2.inhibitVectors = c.inhibitVectors := by
  rw [align_eq]
  exact ⟨rfl, rfl⟩

theorem cycle_of_emit {c c' : Sequencer} {count : Nat} {timeset call : Option String} (hi : c.inhibitVectors = 0)
    (h : c.emit count timeset call = (.ok (), c')) : c'.cycle = c.cycle + count := by
  obtain ⟨t, b, hb, hc'⟩ := hold_of_emit hi h
  rw [cycle, hc'.bench, Bench.cycle_of_hold hb, cycle]

theorem cycle_of_hold {c c' : Sequencer} {count : Option Nat} {timeset : Option String}
    (hi : c.inhibitVectors = 0) (h : c.hold count timeset = (.ok (), c')) :
    c'.cycle = c.cycle + (c.align (count.getD 1)).1 := by
  unfold hold at h
  dsimp only at h
  split at h
  · exact nomatch congrArg Prod.fst h
  · obtain ⟨hbench, hinhibit⟩ := c.align_keeps (count.getD 1)
    rw [cycle_of_emit (hinhibit.trans hi) h, cycle, hbench, cycle]

theorem cycle_of_call {c c' : Sequencer} {subroutine : String} (hi : c.inhibitVectors = 0)
    (h : c.call subroutine = (.ok (), c')) : c'.cycle = c.cycle + 1 := by
  unfold call at h
  rw [cycle_of_emit (by exact hi) h]
  rfl

/-- In every reachable state the records follow one another from cycle 0 to the
present cycle, none of them empty, each with one state for every declared pin.
A vector that is held moves the present cycle on by the least number of whole
groups that covers the count, and a call by one. -/
theorem reachable_records_tile {name : String} {pins : Pinout} {config : Config} {c : Sequencer}
    (h : Reachable name pins config c) :
    Consecutive 0 c.records ∧ totalCount c.records = c.cycle ∧
      (∀ r ∈ c.records, r.states.length = pins.pins.length) ∧
      (∀ count timeset c', c.inhibitVectors = 0 → c.hold count timeset = (.ok (), c') →
        ∃ m, IsLeast {m | c.group ∣ m ∧ count.getD 1 ≤ m} m ∧ c'.cycle = c.cycle + m) ∧
      ∀ subroutine c', c.inhibitVectors = 0 → c.call subroutine = (.ok (), c') → c'.cycle = c.cycle + 1 := by
  have htiled := h.tiled
  refine ⟨htiled.consecutive, htiled.total, htiled.states, fun count timeset c' hi hc' => ?_,
    fun subroutine c' hi hc' => cycle_of_call hi hc'⟩
  exact ⟨_, align_isLeast h.group_pos _, cycle_of_hold hi hc'⟩

/-- A program that records a vector in groups of two and marks its last group. -/
def groupedProgram : List Operation :=
  [.setTimeset "tp" (some ⟨40000⟩), .setGroup 2, .hold (some 5) none, .store 1]

def twoPins : Pinout := ⟨[⟨"a", .drive0, 0⟩, ⟨"b", .dontCare, 0⟩]⟩

def grouped : Sequencer := (Operation.performAll groupedProgram (new "grouped" twoPins (.standard .v93k))).2

theorem grouped_records_tile :
    Reachable "grouped" twoPins (.standard .v93k) grouped ∧ grouped.inhibitVectors = 0 ∧
      grouped.hold (some 3) none = (.ok (), (grouped.hold (some 3) none).2) ∧
      Consecutive 0 grouped.records ∧
      ∃ m, IsLeast {m | grouped.group ∣ m ∧ 3 ≤ m} m ∧
        (grouped.hold (some 3) none).2.cycle = grouped.cycle + m := by
  have hreach : Reachable "grouped" twoPins (.standard .v93k) grouped := .performAll groupedProgram
  have hopen : grouped.inhibitVectors = 0 := by decide +kernel
  have hok : grouped.hold (some 3) none = (.ok (), (grouped.hold (some 3) none).2) :=
    Prod.ext (by decide +kernel) rfl
  obtain ⟨htiled, -, -, hhold, -⟩ := reachable_records_tile hreach
  exact ⟨hreach, hopen, hok, htiled, hhold (some 3) none _ hopen hok⟩

end Sequencer

end TestProgram
