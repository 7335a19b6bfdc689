import TestProgram.Proofs.Bench.OneShots
import TestProgram.Proofs.Sequencer.Steps
import TestProgram.Proofs.Sequencer.Tiling

/-!
# What records have in common

Records come from runs, and from records that are marked for a store and
perhaps cut. A property that runs give to their records and that cutting
leaves to the parts holds of all records, whatever a program does
(`Lasting`, `Recorded.path`).

The marks of a record bound its length (`Bounded`): a record with a call is
one cycle long, and a stored one is no longer than a vector group
(`bounded_lasting`).
-/

namespace TestProgram

namespace Sequencer

/-! ## Lasting properties -/

/-- A property that runs under a ceiling give to their records, and that a
record leaves to its parts when it is marked. -/
structure Lasting (ceiling : Option Nat) (P : VectorRecord → Prop) : Prop where
  run : ∀ {b b' : Bench} {t : Timeset} {n : Nat} {m : Marks}, b.hold t n m = .ok b' → Whole m.group m.call n →
    ∀ r ∈ b.moment.records ceiling t.name m (b.moment.slices n), P r
  parts : ∀ {r : VectorRecord}, P r → ∀ q ∈ Tape.storedParts r, P q

/-- All records have a property, and the tape has the ceiling of the
platform. -/
structure Recorded (ceiling : Option Nat) (P : VectorRecord → Prop) (c : Sequencer) : Prop where
  ceiling : c.bench.tape.ceiling = ceiling
  records : ∀ r ∈ c.records, P r

namespace Recorded

variable {ceiling : Option Nat} {P : VectorRecord → Prop} {c c' : Sequencer}

theorem of_tape (h : Recorded ceiling P c) (htape : c'.bench.tape = c.bench.tape) : Recorded ceiling P c' where
  ceiling := by rw [htape, h.ceiling]
  records := by rw [Sequencer.records, items, htape]; exact h.records

theorem push (h : Recorded ceiling P c) {i : Item} (hi : i.isVector = false)
    (htape : c'.bench.tape = c.bench.tape.push i) : Recorded ceiling P c' := by
  have hrecords : c'.records = c.records := by
    rw [Sequencer.records, items, htape]
    exact Tape.records_push hi
  exact ⟨by rw [htape]; exact h.ceiling, by rw [hrecords]; exact h.records⟩

theorem step (hP : Lasting ceiling P) (h : Recorded ceiling P c) (hstep : Step c c') : Recorded ceiling P c' := by
  cases hstep with
  | quiet hs hx hu ht => exact h.of_tape ht
  | comment text hs hx hu ht => exact h.push rfl ht
  | store hs hx hu ht =>
    obtain ⟨-, hceiling, -⟩ := Tape.records_markStore ht
    obtain ⟨r, hr, hparts⟩ := Tape.mem_records_markStore ht
    refine ⟨hceiling.trans h.ceiling, fun q hq => ?_⟩
    rcases hparts q hq with hq | hq
    · exact h.records q hq
    · exact hP.parts (h.records r hr) q hq
  | emit hs hi hn hr hx hu ht hb =>
    have hceiling : c'.bench.tape.ceiling = c.bench.tape.ceiling := by rw [(Bench.hold_eq_ok hb).2.2, Tape.append]
    refine ⟨hceiling.trans h.ceiling, ?_⟩
    show ∀ r ∈ c'.bench.tape.records, P r
    rw [Bench.records_of_hold hb, h.ceiling]
    exact List.forall_mem_append.mpr ⟨h.records, hP.run hb hn⟩

theorem turn (h : Recorded ceiling P c) {a : Act} (ha : a = .note ∨ ScopeActs a) (hm : Move c c' a) :
    Recorded ceiling P c' := by
  cases hm with
  | note hb | mask ids hb | unmask ids hb => exact h.of_tape (by rw [hb.bench])
  | item i hi hb => exact h.push hi (by rw [hb.bench])
  | setPin s hi hb | enable hi he hb | start hi hg hs hb | stop hi hs hb | pause hi hp hb | resume hi hr hb
  | group hpos hg hb hc | emit hi hb h | store ht h | finish h =>
    rcases ha with ha | ha | ha <;> exact nomatch ha

/-- Whatever a program does, its records have the property. -/
theorem path (hP : Lasting ceiling P) {log : List LogEntry} (hpath : Path c log c')
    (hceiling : c.config.ceiling = ceiling) (h : Recorded ceiling P c) : Recorded ceiling P c' := by
  have hmoves {A : Act → Prop} {c c' : Sequencer} (hm : Moves A c c') : c'.config = c.config :=
    hm.keep (P := fun c' => c'.config = c.config) (fun _ hm heq => hm.config.trans heq) rfl
  induction hpath with
  | done => exact h
  | @leaf c c' op log hop hrest ih =>
    refine ih ((hmoves (op.perform_does c hop)) ▸ hceiling) ?_
    cases hcloses : op.closes with
    | false => exact (Operation.perform_steps c hop hcloses).keep (fun hstep hc => hc.step hP hstep) h
    | true =>
      obtain ⟨platforms, rfl⟩ := Operation.eq_finish_of_closes hcloses
      exact ⟨hceiling, List.forall_mem_nil _⟩
  | turn ht _ ih => exact ih (hmoves ht.moves ▸ hceiling) (ht.moves.keep (fun ha hm hc => hc.turn ha hm) h)
  | closed _ _ ih => exact ih hceiling h

/-- Where a program finishes a pattern, the records of the pattern have the
property. -/
theorem of_finish {name : String} {pins : Pinout} {config : Config} (hP : Lasting config.ceiling P)
    (ops : List Operation) : ∀ e ∈ (Operation.performAll ops (new name pins config)).1, ∀ platforms,
      e.operation = .finish platforms → ∃ c texts, Recorded config.ceiling P c ∧
        c.bench.Tiled pins.pins.length ∧ e.answer = .ok (.finished c.pattern texts) := by
  intro e he platforms hfinish
  obtain ⟨past, rest, hlog⟩ := List.append_of_mem he
  obtain ⟨c, texts, hpast, hanswer, -⟩ :=
    (Operation.path_performAll ops (new name pins config)).exists_of_finish hlog hfinish
  exact ⟨c, texts, path hP hpast rfl ⟨rfl, List.forall_mem_nil _⟩, hpast.tiled, hanswer⟩

end Recorded

end Sequencer

/-! ## Marks and lengths -/

/-- What the marks of a record say of its length. -/
structure Bounded (r : VectorRecord) : Prop where
  call : r.call.isSome = true → r.count ≤ 1
  store : r.store = true → r.count ≤ max r.group 1

theorem VectorRecord.Unmarked.bounded {r : VectorRecord} (h : r.Unmarked) : Bounded r := by
  constructor <;> simp [h.call, h.store]

/-- The first of some pieces is no longer than what it is a piece of, and no
longer than a group if it is stored. -/
theorem head_pieces_le {ceiling : Option Nat} {store : Bool} {group n x : Nat} {xs : List Nat}
    (h : pieces ceiling store group n = x :: xs) : x ≤ n ∧ (store = true → x ≤ group) := by
  have hle : x ≤ n := by
    have hsum := sum_pieces ceiling store group n
    rw [h, List.sum_cons] at hsum
    omega
  refine ⟨hle, fun hs => ?_⟩
  rw [pieces] at h
  split at h
  · exact Nat.le_of_eq (List.cons.inj h).1.symm
  · rename_i hlong
    have hshort : ¬ group < n := fun hlt => hlong ⟨hs, hlt⟩
    omega

namespace Moment

/-- In a run, the lengths of the records fit their marks. -/
theorem bounded_of_mem_records {ceiling : Option Nat} {timeset : String} {slices : List Slice} {s : Moment}
    {m : Marks} (hcall : m.call.isSome = true → ∀ slice ∈ slices, slice.count ≤ 1) :
    ∀ r ∈ records ceiling timeset s m slices, Bounded r := by
  cases slices with
  | nil => exact List.forall_mem_nil _
  | cons slice slices =>
    intro r hr
    rcases List.mem_append.mp hr with hr | hr
    · cases hpieces : pieces ceiling m.store m.unit slice.count with
      | nil =>
        rw [hpieces] at hr
        exact absurd hr List.not_mem_nil
      | cons x xs =>
        obtain ⟨hle, hgroup⟩ := head_pieces_le hpieces
        rw [hpieces] at hr
        rcases List.mem_cons.mp hr with rfl | hr
        · exact ⟨fun hsome => Nat.le_trans hle (hcall hsome slice List.mem_cons_self), hgroup⟩
        · exact (TestProgram.unmarked_of_mem_records m r hr).bounded
    · exact (unmarked_of_mem_records m r hr).bounded

end Moment

theorem bounded_storedParts {r : VectorRecord} (h : Bounded r) : ∀ q ∈ Tape.storedParts r, Bounded q := by
  intro q hq
  unfold Tape.storedParts at hq
  dsimp only at hq
  split at hq
  · rename_i hshort
    obtain rfl := List.mem_singleton.mp hq
    exact ⟨h.call, fun _ => hshort⟩
  · rename_i hlong
    have hunstored : r.store = false := by
      cases hs : r.store with
      | false => rfl
      | true => exact absurd (h.store hs) hlong
    rcases List.mem_cons.mp hq with rfl | hq
    · exact ⟨fun hcall => Nat.le_trans (Nat.sub_le _ _) (h.call hcall), fun hs => by simp [hunstored] at hs⟩
    · obtain rfl := List.mem_singleton.mp hq
      exact ⟨fun hcall => (nomatch hcall), fun _ => Nat.le_refl _⟩

theorem Sequencer.bounded_lasting (ceiling : Option Nat) : Lasting ceiling Bounded where
  run {b b' t n m} _ hn := by
    refine Moment.bounded_of_mem_records fun hcall => ?_
    rcases hn with ⟨hnone, -⟩ | ⟨-, rfl⟩
    · simp [hnone] at hcall
    · obtain ⟨toggles, hslices⟩ := b.moment.slices_one
      rw [hslices]
      exact List.forall_mem_singleton.mpr (Nat.le_refl 1)
  parts := bounded_storedParts

end TestProgram
