import TestProgram.Proofs.Sequencer.Records

/-!
# Whole vector groups

A tester that counts in vector groups can take a record if its length is a
number of whole groups. Without a ceiling on repeat counts all divisions of a
run respect the groups: the slices between clock edges, the pieces of a slice
and the parts of a record that is marked for a store. The one exception is a
call, which takes a single cycle in groups of any size (`Whole`). So a finished
pattern can be written exactly if all calls in it were made in groups of one
(`finished_groups`); `calledInGroup` is a program that makes one in a group of
two.
-/

namespace TestProgram

open Sequencer (Whole)

/-! ## Records in whole groups -/

/-- Pieces of a vector without a call, in whole groups. -/
theorem whole_of_mem_pieces {states : List PinState} {timeset : String} {m : Marks} {start n : Nat}
    (hcall : m.call = none) (hn : m.unit ∣ n) :
    ∀ r ∈ m.records states timeset start (pieces none m.store m.unit n), Whole r.group r.call r.count := by
  have hcalls : ∀ (ns : List Nat) (m : Marks) (start : Nat), m.call = none →
      ∀ r ∈ m.records states timeset start ns, r.call = none := by
    intro ns
    induction ns with
    | nil => exact fun _ _ _ _ hr => absurd hr List.not_mem_nil
    | cons n ns ih =>
      intro m start hcall r hr
      rcases List.mem_cons.mp hr with rfl | hr
      · exact hcall
      · exact ih m.rest _ rfl r hr
  intro r hr
  have hcount : r.count ∈ pieces none m.store m.unit n := by
    rw [← map_count_records states timeset m start (pieces none m.store m.unit n)]
    exact List.mem_map_of_mem hr
  refine .inl ⟨hcalls _ _ _ hcall r hr, ?_⟩
  rw [(of_mem_records states timeset hr).2.2]
  exact dvd_of_mem_pieces hn hcount

theorem Moment.whole_of_mem_records {timeset : String} : ∀ {slices : List Slice} {s : Moment} {m : Marks},
    m.call = none → (∀ slice ∈ slices, m.unit ∣ slice.count) →
      ∀ r ∈ records none timeset s m slices, Whole r.group r.call r.count
  | [], _, _, _, _, _, hr => absurd hr List.not_mem_nil
  | slice :: slices, s, m, hcall, hslices, r, hr => by
    obtain ⟨hslice, hrest⟩ := List.forall_mem_cons.mp hslices
    rcases List.mem_append.mp hr with hr | hr
    · exact whole_of_mem_pieces hcall hslice r hr
    · exact whole_of_mem_records (m := m.rest) rfl hrest r hr

/-- The parts of a record that is marked. -/
theorem whole_storedParts {r : VectorRecord} (h : Whole r.group r.call r.count) :
    ∀ p ∈ Tape.storedParts r, Whole p.group p.call p.count := by
  intro p hp
  unfold Tape.storedParts at hp
  dsimp only at hp
  split at hp
  · obtain rfl := List.mem_singleton.mp hp
    exact h
  · rename_i hlong
    rcases h with ⟨hcall, hdvd⟩ | ⟨-, hone⟩
    · rcases List.mem_cons.mp hp with rfl | hp
      · exact .inl ⟨hcall, Nat.dvd_sub hdvd (Nat.dvd_refl _)⟩
      · obtain rfl := List.mem_singleton.mp hp
        exact .inl ⟨rfl, Nat.dvd_refl _⟩
    · omega

/-- The records of a run in whole groups, or of the cycle of a call. -/
theorem Bench.whole_of_hold {b b' : Bench} {t : Timeset} {n : Nat} {m : Marks} (h : b.hold t n m = .ok b')
    (hn : Whole m.group m.call n) :
    ∀ r ∈ b.moment.records none t.name m (b.moment.slices n), Whole r.group r.call r.count := by
  rcases hn with ⟨hcall, hdvd⟩ | ⟨hcall, rfl⟩
  · exact Moment.whole_of_mem_records hcall
      (Moment.dvd_of_mem_slices (hold_eq_ok h).1 (edgeInGroup?_of_hold h) hdvd)
  · obtain ⟨toggles, hslices⟩ := b.moment.slices_one
    have hunit : 0 < m.unit := Nat.lt_of_lt_of_le Nat.one_pos (Nat.le_max_right _ _)
    rw [hslices, Moment.records, Moment.records, List.append_nil, pieces_one hunit]
    exact List.forall_mem_singleton.mpr (.inr ⟨hcall, rfl⟩)

/-! ## Programs -/

namespace Sequencer

theorem whole_lasting : Lasting none fun r => Whole r.group r.call r.count where
  run := Bench.whole_of_hold
  parts := whole_storedParts

/-- All records are calls or in whole groups, and no ceiling divides later
ones otherwise. -/
structure Grouped (c : Sequencer) : Prop where
  ceiling : c.bench.tape.ceiling = none
  whole : ∀ r ∈ c.records, Whole r.group r.call r.count

namespace Grouped

variable {c c' : Sequencer}

/-- Whatever a program does, its records are calls or in whole groups. -/
theorem path {log : List LogEntry} (hpath : Path c log c') (hceiling : c.config.ceiling = none) (h : Grouped c) :
    Grouped c' := by
  have hrecorded := Recorded.path whole_lasting hpath hceiling ⟨h.ceiling, h.whole⟩
  exact ⟨hrecorded.ceiling, hrecorded.records⟩

end Grouped

end Sequencer

/-! ## Writing in groups -/

namespace GroupTable

theorem itemLines_vector (r : VectorRecord) :
    (max r.group 1 ∣ r.count ∧ ∃ lines, itemLines (.vector r) = .ok lines) ∨
      (¬ max r.group 1 ∣ r.count ∧
        itemLines (.vector r) = .error (.brokenGroup r.count r.start (max r.group 1))) := by
  by_cases hmod : r.count % max r.group 1 = 0
  · exact .inl ⟨Nat.dvd_of_mod_eq_zero hmod, _, if_neg (not_not.mpr hmod)⟩
  · exact .inr ⟨fun hdvd => hmod (Nat.mod_eq_zero_of_dvd hdvd), if_pos hmod⟩

/-- A pattern is written if all its records are in whole groups. Otherwise the
first one that is not is to blame. -/
theorem lines_cases (p : Pattern) :
    ((∀ r ∈ p.vectors, max r.group 1 ∣ r.count) ∧ ∃ text, lines p = .ok text) ∨
      ∃ r ∈ p.vectors, ¬ max r.group 1 ∣ r.count ∧
        lines p = .error (.brokenGroup r.count r.start (max r.group 1)) := by
  rcases mapM_cases itemLines p.items with ⟨body, hbody, hall⟩ | ⟨i, hi, e, he, hbody⟩
  · refine .inl ⟨fun r hr => ?_, ?_⟩
    · obtain ⟨i, hi, hvector⟩ := List.mem_filterMap.mp hr
      cases i with
      | vector q =>
        obtain rfl := Option.some.inj hvector
        rcases itemLines_vector q with ⟨hdvd, -⟩ | ⟨-, hq⟩
        · exact hdvd
        · obtain ⟨text, htext⟩ := hall _ hi
          exact nomatch hq.symm.trans htext
      | comment text => exact nomatch hvector
      | loopStart label count => exact nomatch hvector
      | loopEnd label => exact nomatch hvector
    · rw [lines, hbody]
      exact ⟨_, rfl⟩
  · cases i with
    | vector r =>
      refine .inr ⟨r, List.mem_filterMap.mpr ⟨_, hi, rfl⟩, ?_⟩
      rcases itemLines_vector r with ⟨-, text, hok⟩ | ⟨hdvd, hr⟩
      · exact nomatch hok.symm.trans he
      · obtain rfl := Except.error.inj (hr.symm.trans he)
        exact ⟨hdvd, by rw [lines, hbody]; rfl⟩
    | comment text => exact nomatch he
    | loopStart label count => exact nomatch he
    | loopEnd label => exact nomatch he

end GroupTable

theorem Platform.render_v93k_cases (header : List String) (p : Pattern) :
    ((∀ r ∈ p.vectors, max r.group 1 ∣ r.count) ∧ ∃ text, Platform.v93k.render header p = .ok text) ∨
      ∃ r ∈ p.vectors, ¬ max r.group 1 ∣ r.count ∧ Platform.v93k.render header p =
        .error (.unrenderable "v93k" (.brokenGroup r.count r.start (max r.group 1))) := by
  rcases GroupTable.lines_cases p with ⟨hall, lines, hlines⟩ | ⟨r, hr, hdvd, hlines⟩
  · refine .inl ⟨hall, ?_⟩
    rw [render, patternLines, hlines]
    exact ⟨_, rfl⟩
  · refine .inr ⟨r, hr, hdvd, ?_⟩
    rw [render, patternLines, hlines]
    rfl

namespace Sequencer

open Operation

theorem Whole.dvd {group n : Nat} (h : Whole group none n) : max group 1 ∣ n := by
  rcases h with ⟨-, hdvd⟩ | ⟨hcall, -⟩
  · exact hdvd
  · exact nomatch hcall

theorem Whole.eq_one {group n : Nat} {call : Option String} (h : Whole group call n) (hcall : call.isSome = true) :
    n = 1 := by
  rcases h with ⟨rfl, -⟩ | ⟨-, hone⟩
  · exact nomatch hcall
  · exact hone

/-- A record that is a call or in whole groups ends inside a group exactly if it
is a call in a group of two or more. -/
theorem Whole.dvd_iff {group n : Nat} {call : Option String} (h : Whole group call n) :
    max group 1 ∣ n ↔ (call.isSome = true → group ≤ 1) := by
  rcases h with ⟨rfl, hdvd⟩ | ⟨hcall, rfl⟩
  · exact ⟨fun _ hcall => (nomatch hcall), fun _ => hdvd⟩
  · rw [Nat.dvd_one]
    exact ⟨fun hone _ => by omega, fun hgroup => by have := hgroup hcall; omega⟩

/-- On a tester that counts in vector groups and has no ceiling on repeat
counts, all records of a finished pattern but calls are in whole groups, and
calls take one cycle. The pattern is written exactly if the calls in it are in
groups of one; otherwise one that is not is to blame. -/
theorem finished_groups (name : String) (pins : Pinout) {config : Config} (hplatform : config.platform = .v93k)
    (hrepeat : config.maxRepeat = none) (ops : List Operation) :
    ∀ e ∈ (performAll ops (new name pins config)).1, ∀ platforms, e.operation = .finish platforms →
      ∃ p texts, e.answer = .ok (.finished p texts) ∧
        (∀ r ∈ p.vectors, r.call = none → max r.group 1 ∣ r.count) ∧
        (∀ r ∈ p.vectors, r.call.isSome → r.count = 1) ∧
        ∀ header, ((∃ text, Platform.v93k.render header p = .ok text) ↔
            ∀ r ∈ p.vectors, r.call.isSome → r.group ≤ 1) ∧
          ∀ fault, Platform.v93k.render header p = .error fault → ∃ r ∈ p.vectors, r.call.isSome ∧ 1 < r.group ∧
            fault = .unrenderable "v93k" (.brokenGroup 1 r.start r.group) := by
  intro e he platforms hfinish
  have hceiling : (new name pins config).config.ceiling = none := by
    show config.ceiling = none
    rw [Config.ceiling, hplatform, hrepeat]
    rfl
  obtain ⟨past, rest, hlog⟩ := List.append_of_mem he
  obtain ⟨c, texts, hpast, hanswer, -⟩ := (path_performAll ops (new name pins config)).exists_of_finish hlog hfinish
  have hgrouped : Grouped c := Grouped.path hpast hceiling ⟨hceiling, List.forall_mem_nil _⟩
  have hwhole : ∀ r ∈ c.pattern.vectors, Whole r.group r.call r.count := hgrouped.whole
  refine ⟨c.pattern, texts, hanswer, fun r hr hcall => (hcall ▸ hwhole r hr).dvd,
    fun r hr => (hwhole r hr).eq_one, fun header => ?_⟩
  rcases Platform.render_v93k_cases header c.pattern with ⟨hall, text, htext⟩ | ⟨r, hr, hdvd, herror⟩
  · rw [htext]
    exact ⟨⟨fun _ r hr => (hwhole r hr).dvd_iff.mp (hall r hr), fun _ => ⟨text, rfl⟩⟩, fun _ h => nomatch h⟩
  · rw [herror]
    have hgroup : ¬ (r.call.isSome = true → r.group ≤ 1) := fun h => hdvd ((hwhole r hr).dvd_iff.mpr h)
    obtain ⟨hcall, hle⟩ := Classical.not_imp.mp hgroup
    have hlarge : 1 < r.group := Nat.lt_of_not_le hle
    refine ⟨⟨fun ⟨_, h⟩ => (nomatch h), fun h => absurd (h r hr) hgroup⟩, fun fault hfault => ?_⟩
    refine ⟨r, hr, hcall, hlarge, ?_⟩
    rw [← Except.error.inj hfault, (hwhole r hr).eq_one hcall, Nat.max_eq_left (Nat.le_of_lt hlarge)]

/-- A call before the groups of two, with a store in them. -/
def calledBeforeGroups : List LogEntry :=
  (performAll [.setTimeset "tp" (some ⟨40000⟩), .call "sub", .setGroup 2, .store 0, .hold (some 5) none, .finish []]
    (new "called" twoPins (.standard .v93k))).1

theorem calledBeforeGroups_written :
    (Config.standard .v93k).platform = .v93k ∧ (Config.standard .v93k).maxRepeat = none ∧
      ∃ e ∈ calledBeforeGroups, ∃ p texts, e.answer = .ok (.finished p texts) ∧
        (∀ r ∈ p.vectors, r.call = none → max r.group 1 ∣ r.count) ∧
        ∃ text, Platform.v93k.render [] p = .ok text := by
  have hclosed : calledBeforeGroups.any (fun e => e.operation.closes) = true := by decide +kernel
  have hcalls : calledBeforeGroups.all (fun e => e.pattern?.all fun p =>
      p.vectors.all fun r => decide (r.call.isSome = true → r.group ≤ 1)) = true := by decide +kernel
  obtain ⟨e, he, hcloses⟩ := List.any_eq_true.mp hclosed
  obtain ⟨platforms, hfinish⟩ := eq_finish_of_closes hcloses
  obtain ⟨p, texts, hanswer, hwhole, -, hwritten⟩ := finished_groups _ _ rfl rfl _ e he platforms hfinish
  have h := LogEntry.of_all_pattern? hcalls he hanswer
  refine ⟨rfl, rfl, e, he, p, texts, hanswer, hwhole, (hwritten []).1.mpr fun r hr => ?_⟩
  exact of_decide_eq_true (List.all_eq_true.mp h r hr)

/-- A call in groups of two. -/
def calledInGroup : List LogEntry :=
  (performAll [.setTimeset "tp" (some ⟨40000⟩), .setGroup 2, .call "sub", .finish [.v93k]]
    (new "called" twoPins (.standard .v93k))).1

theorem calledInGroup_unwritable : ∃ e ∈ calledInGroup, ∃ p texts, e.answer = .ok (.finished p texts) ∧
    (∃ r ∈ p.vectors, ¬ max r.group 1 ∣ r.count) ∧
    Platform.v93k.render [] p = .error (.unrenderable "v93k" (.brokenGroup 1 0 2)) := by
  have hany : calledInGroup.any (fun e => e.pattern?.any fun p =>
      p.vectors.any (fun r => decide (¬ max r.group 1 ∣ r.count)) &&
        decide (Platform.v93k.render [] p = .error (.unrenderable "v93k" (.brokenGroup 1 0 2)))) = true := by
    decide +kernel
  obtain ⟨e, he, p, texts, hanswer, h⟩ := LogEntry.exists_of_any_pattern? hany
  obtain ⟨hbroken, herror⟩ := Bool.and_eq_true_iff.mp h
  obtain ⟨r, hr, hdvd⟩ := List.any_eq_true.mp hbroken
  exact ⟨e, he, p, texts, hanswer, ⟨r, hr, of_decide_eq_true hdvd⟩, of_decide_eq_true herror⟩

end Sequencer

end TestProgram
