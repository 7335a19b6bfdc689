import TestProgram.Proofs.Sequencer.Periods

/-!
# Where records come from

Until a pattern is closed its cycles only go on, so the operation that recorded
a vector is the first one after which they have come to the end of its record
(`recorder?`). It leaves all timesets as they are (`timing_or_tape`), and the
record lies in its cycles, whatever stores have cut it down to since
(`RecordedBy`). Every record of a sequencer has been recorded so by an
operation in the log (`Traced`, `Path.traced`).
-/

namespace TestProgram

/-- A record, or a part of it. -/
structure VectorRecord.PartOf (q r : VectorRecord) : Prop where
  timeset : q.timeset = r.timeset
  start : r.start ≤ q.start
  stop : q.start + q.count ≤ r.start + r.count

namespace VectorRecord.PartOf

theorem refl (r : VectorRecord) : r.PartOf r := ⟨rfl, Nat.le_refl _, Nat.le_refl _⟩

theorem trans {p q r : VectorRecord} (h : p.PartOf q) (h' : q.PartOf r) : p.PartOf r :=
  ⟨h.timeset.trans h'.timeset, Nat.le_trans h'.start h.start, Nat.le_trans h.stop h'.stop⟩

end VectorRecord.PartOf

theorem Tape.partOf_of_mem_storedParts {r q : VectorRecord} (h : q ∈ storedParts r) : q.PartOf r := by
  have htimeset := timeset_of_mem_storedParts h
  unfold storedParts at h
  dsimp only at h
  split at h
  · obtain rfl := List.mem_singleton.mp h
    exact ⟨htimeset, Nat.le_refl _, Nat.le_refl _⟩
  · rcases List.mem_cons.mp h with rfl | h
    · exact ⟨htimeset, Nat.le_refl _, by dsimp only; omega⟩
    · obtain rfl := List.mem_singleton.mp h
      exact ⟨htimeset, by dsimp only; omega, by dsimp only; omega⟩

namespace Sequencer

variable {c c' c'' : Sequencer}

/-! ## Growing tapes -/

/-- The records of `c'` are those of `c`, perhaps cut, and new ones in the
cycles since. -/
structure Extends (c c' : Sequencer) : Prop where
  cycle : c.cycle ≤ c'.cycle
  records : ∀ q ∈ c'.records, (∃ r ∈ c.records, q.PartOf r) ∨ (c.cycle ≤ q.start ∧ q.start + q.count ≤ c'.cycle)

namespace Extends

theorem refl (c : Sequencer) : Extends c c := ⟨Nat.le_refl _, fun q hq => .inl ⟨q, hq, .refl q⟩⟩

theorem trans (h : Extends c c') (h' : Extends c' c'') : Extends c c'' := by
  refine ⟨Nat.le_trans h.cycle h'.cycle, fun q hq => ?_⟩
  have hcycle := h.cycle
  have hcycle' := h'.cycle
  rcases h'.records q hq with ⟨r, hr, hpart⟩ | ⟨hstart, hstop⟩
  · rcases h.records r hr with ⟨r₀, hr₀, hpart₀⟩ | ⟨hstart, hstop⟩
    · exact .inl ⟨r₀, hr₀, hpart.trans hpart₀⟩
    · have hle := hpart.start
      have hle' := hpart.stop
      exact .inr ⟨by omega, by omega⟩
  · exact .inr ⟨by omega, hstop⟩

theorem of_records (hcycle : c'.cycle = c.cycle) (hrecords : c'.records = c.records) : Extends c c' :=
  ⟨Nat.le_of_eq hcycle.symm, fun q hq => .inl ⟨q, hrecords ▸ hq, .refl q⟩⟩

end Extends

/-- The records of a run lie in its cycles. -/
theorem Move.extends {a : Act} (hm : Move c c' a) (ha : a ≠ .finish) : Extends c c' := by
  have hcycle := hm.cycle_le ha
  have hsame (htape : c'.bench.tape = c.bench.tape) : Extends c c' :=
    .of_records (by rw [cycle, htape]; rfl) (by rw [records, items, htape]; rfl)
  cases hm with
  | note h | setPin s hi h | mask ids h | unmask ids h | enable hi he h | start hi hg hs h | stop hi hs h
  | pause hi hp h | resume hi hr h => exact hsame (by rw [h.bench])
  | group hpos hg hb hcfg => exact hsame (by rw [hb])
  | item i hi h =>
    refine .of_records (by rw [cycle, h.bench]; rfl) ?_
    rw [records, items, h.bench]
    exact Tape.records_push hi
  | store ht h =>
    refine ⟨hcycle, fun q hq => .inl ?_⟩
    obtain ⟨r, hr, hparts⟩ := Tape.mem_records_markStore ht
    rw [records, items, h.bench] at hq
    rcases hparts q hq with hq | hq
    · exact ⟨q, hq, .refl q⟩
    · exact ⟨r, hr, Tape.partOf_of_mem_storedParts hq⟩
  | @emit t n call b hi hb h =>
    refine ⟨hcycle, fun q hq => ?_⟩
    have hnew := Moment.consecutive_records c.bench.tape.ceiling t.name (c.bench.moment.slices n) c.bench.moment
      ⟨c.pendingStore, c.pendingLabel, call, c.group⟩ (c.bench.moment.count_pos_of_mem_slices (Bench.hold_eq_ok hb).1)
    have htape : c'.cycle = c.cycle + totalCount (c.bench.moment.records c.bench.tape.ceiling t.name
        ⟨c.pendingStore, c.pendingLabel, call, c.group⟩ (c.bench.moment.slices n)) := by
      rw [cycle, h.bench, (Bench.hold_eq_ok hb).2.2]
      rfl
    have hq : q ∈ b.tape.records := by rwa [records, items, h.bench] at hq
    rw [Bench.records_of_hold hb] at hq
    rcases List.mem_append.mp hq with hq | hq
    · exact .inl ⟨q, hq, .refl q⟩
    · exact .inr (htape ▸ hnew.end_le q hq)
  | finish h => exact absurd rfl ha

/-- A scope that begins or ends records nothing. -/
theorem Moves.turn_records (h : Moves ScopeActs c c') : c'.cycle = c.cycle ∧ c'.records = c.records := by
  refine h.keep (P := fun c' => c'.cycle = c.cycle ∧ c'.records = c.records) ?_ ⟨rfl, rfl⟩
  rintro a c₁ c₂ ha hm ⟨hcycle, hrecords⟩
  rw [← hcycle, ← hrecords]
  cases hm with
  | note h | mask ids h | unmask ids h => exact ⟨by rw [cycle, h.bench]; rfl, by rw [records, items, h.bench]; rfl⟩
  | item i hi h =>
    refine ⟨by rw [cycle, h.bench]; rfl, ?_⟩
    rw [records, items, h.bench]
    exact Tape.records_push hi
  | _ => exact absurd ha (by simp [ScopeActs])

/-! ## Operations that record -/

section

variable (c : Sequencer)

theorem emit_timing (count : Nat) (timeset call : Option String) :
    (c.emit count timeset call).2.timing = c.timing := by
  have huse (name : String) : (c.touch.use name).timing = c.timing := by
    unfold use
    split <;> rfl
  unfold emit
  dsimp only
  split
  · rfl
  · rename_i t _
    split
    · rfl
    · cases (c.touch.use t.name).bench.hold t count ⟨_, _, call, _⟩ <;> exact huse t.name

theorem timing_acrossVectors : AcrossVectors fun c c' => c'.timing = c.timing where
  trans h h' := h'.trans h
  note _ _ _ := rfl
  emit c _ timeset _ := c.emit_timing _ timeset none

theorem setPin_timing (pin : String) (s : PinState) : (c.setPin pin s).2.timing = c.timing := by
  unfold setPin
  dsimp only
  cases c.touch.pins.id pin <;> rfl

theorem store_timing (offset : Nat) : (c.store offset).2.timing = c.timing := by
  unfold store
  dsimp only
  split
  · rfl
  · split
    · rfl
    · cases c.touch.bench.tape.markStore offset <;> rfl

theorem comment_timing (text : String) : (c.comment text).timing = c.timing := by
  unfold comment
  dsimp only
  split <;> rfl

end

theorem Moves.tape_of_silent {A : Act → Prop} (hA : ∀ a, A a → a.Silent) (h : Moves A c c') :
    c'.bench.tape = c.bench.tape := by
  refine h.keep (P := fun c' => c'.bench.tape = c.bench.tape) (fun {a} _ _ ha hm heq => ?_) rfl
  have hsilent : a.Silent := by
    rcases ha with rfl | ha
    · trivial
    · exact hA a ha
  exact (hm.silent hsilent).1.trans heq

end Sequencer

namespace Operation

open Sequencer

theorem not_does_finish : ∀ {op : Operation}, op.closes = false → ¬ op.Does .finish
  | .threads _, _, h => by
    rcases h with h | ⟨_, _, _, _, _, h⟩ <;> exact nomatch h
  | .finish _, h, _ => nomatch h
  | .setPin _ _, _, h | .enableClock _ _, _, h | .startClock _, _, h | .stopClock _, _, h | .pauseClock _, _, h
  | .resumeClock _ _, _, h | .hold _ _, _, h | .delay _, _, h | .wait _, _, h | .call _, _, h | .store _, _, h
  | .comment _, _, h | .setGroup _, _, h => nomatch h

theorem perform_extends (c : Sequencer) {op : Operation} (hop : op.isLeaf = true) (hcloses : op.closes = false) :
    Extends c (op.perform c).after := by
  refine (op.perform_does c hop).keep (P := Extends c) (fun {a} _ _ ha hm h => h.trans (hm.extends ?_)) (.refl c)
  rintro rfl
  exact ha.elim nofun (not_does_finish hcloses)

/-- An operation without a body changes the timesets or the tape, but not
both. -/
theorem timing_or_tape (c : Sequencer) : ∀ {op : Operation}, op.isLeaf = true →
    (op.perform c).after.timing = c.timing ∨ (op.perform c).after.bench.tape = c.bench.tape
  | .hold count timeset, _ => .inl (timing_acrossVectors.hold c count timeset)
  | .delay count, _ => .inl (timing_acrossVectors.delay c count)
  | .wait d, _ => .inl (timing_acrossVectors.wait c d)
  | .call name, _ => .inl (emit_timing _ 1 none (some name))
  | .threads ts, _ => .inl (timing_acrossVectors.runThreads c fun c _ _ pin s _ => c.setPin_timing pin s)
  | .store offset, _ => .inl (c.store_timing offset)
  | .comment text, _ => .inl (c.comment_timing text)
  | .finish _, _ => .inl rfl
  | .setPin _ _, h | .enableClock _ _, h | .startClock _, h | .stopClock _, h | .pauseClock _, h
  | .resumeClock _ _, h | .setGroup _, h =>
    .inr ((perform_does c h).tape_of_silent fun _ ha => by subst ha; trivial)
  | .setTimeset _ _, h | .addWave _ _ _ _, h | .label _, h | .define _, h | .pinState _, h | .imported, h
  | .items, h => .inr ((perform_does c h).tape_of_silent fun _ ha => ha.elim)

end Operation

namespace Sequencer

/-! ## Records and the log -/

/-- What was carried out since the pattern before was closed. -/
def sinceClose (log : List LogEntry) : List LogEntry := (log.reverse.takeWhile fun e => !e.operation.closes).reverse

/-- The operation that recorded a vector: the first one after which the cycles
of the pattern have come to the end of the record. -/
def recorder? (log : List LogEntry) (r : VectorRecord) : Option LogEntry :=
  (sinceClose log).find? fun e => r.start + r.count ≤ e.after.cycle

/-- The operation of an entry recorded `r`. -/
structure RecordedBy (e : LogEntry) (r : VectorRecord) : Prop where
  /-- It begins before the record does, and leaves all timesets as it finds
  them. -/
  start : ∃ c, e = e.operation.entry c ∧ c.cycle ≤ r.start ∧ e.after.timing = c.timing
  stop : r.start + r.count ≤ e.after.cycle
  record : ∃ q ∈ e.after.records, r.PartOf q

theorem RecordedBy.part {e : LogEntry} {q r : VectorRecord} (h : RecordedBy e r) (hpart : q.PartOf r) :
    RecordedBy e q := by
  obtain ⟨c, hentry, hcycle, htiming⟩ := h.start
  obtain ⟨r₀, hr₀, hpart₀⟩ := h.record
  exact ⟨⟨c, hentry, Nat.le_trans hcycle hpart.start, htiming⟩, Nat.le_trans hpart.stop h.stop,
    ⟨r₀, hr₀, hpart.trans hpart₀⟩⟩

/-- All records of `c` have been recorded by the operations in the log. -/
structure Traced (log : List LogEntry) (c : Sequencer) : Prop where
  cycle : ∀ e ∈ sinceClose log, e.after.cycle ≤ c.cycle
  records : ∀ r ∈ c.records, ∃ earlier e later, sinceClose log = earlier ++ e :: later ∧
    (∀ f ∈ earlier, f.after.cycle ≤ r.start) ∧ RecordedBy e r

theorem sinceClose_append (log : List LogEntry) {e : LogEntry} (h : e.operation.closes = false) :
    sinceClose (log ++ [e]) = sinceClose log ++ [e] := by
  simp [sinceClose, h]

theorem sinceClose_append_of_closes (log : List LogEntry) {e : LogEntry} (h : e.operation.closes = true) :
    sinceClose (log ++ [e]) = [] := by
  simp [sinceClose, h]

/-- The first operation to reach the end of a record is the one that recorded
it. -/
theorem recorder?_eq {log earlier later : List LogEntry} {e : LogEntry} {r : VectorRecord} (hpos : 0 < r.count)
    (hlog : sinceClose log = earlier ++ e :: later) (hearlier : ∀ f ∈ earlier, f.after.cycle ≤ r.start)
    (hstop : r.start + r.count ≤ e.after.cycle) : recorder? log r = some e := by
  have hnone : (earlier.find? fun f => decide (r.start + r.count ≤ f.after.cycle)) = none := by
    refine List.find?_eq_none.mpr fun f hf => ?_
    have := hearlier f hf
    simp only [decide_eq_true_eq]
    omega
  rw [recorder?, hlog, List.find?_append, hnone, Option.none_or, List.find?_cons_of_pos (by simpa using hstop)]

theorem mem_of_recorder? {log : List LogEntry} {r : VectorRecord} {e : LogEntry} (h : recorder? log r = some e) :
    e ∈ log := by
  have hmem := List.mem_of_find?_eq_some h
  rw [sinceClose, List.mem_reverse] at hmem
  exact List.mem_reverse.mp ((List.takeWhile_sublist _).subset hmem)

namespace Traced

variable {log : List LogEntry}

theorem of_records (h : Traced log c) (hcycle : c'.cycle = c.cycle) (hrecords : c'.records = c.records) :
    Traced log c' :=
  ⟨hcycle ▸ h.cycle, hrecords ▸ h.records⟩

theorem closed (h : Traced log c) {op : Operation} (hop : op.isLeaf = false) (answer : Except Fault Answer) :
    Traced (log ++ [⟨op, answer, c⟩]) c := by
  have hcloses : op.closes = false := by cases op <;> first | rfl | exact nomatch hop
  have hlog := sinceClose_append log (e := ⟨op, answer, c⟩) hcloses
  refine ⟨fun e he => ?_, fun r hr => ?_⟩
  · rw [hlog] at he
    rcases List.mem_append.mp he with he | he
    · exact h.cycle e he
    · obtain rfl := List.mem_singleton.mp he
      exact Nat.le_refl _
  · obtain ⟨earlier, e, later, hsplit, hby⟩ := h.records r hr
    exact ⟨earlier, e, later ++ [⟨op, answer, c⟩], by rw [hlog, hsplit, List.append_assoc, List.cons_append], hby⟩

/-- The recorder of a record of at least one cycle has recorded it. -/
theorem exists_recorder (h : Traced log c) {r : VectorRecord} (hr : r ∈ c.records) (hpos : 0 < r.count) :
    ∃ e ∈ log, recorder? log r = some e ∧ RecordedBy e r := by
  obtain ⟨earlier, e, later, hsplit, hearlier, hby⟩ := h.records r hr
  have hfound := recorder?_eq hpos hsplit hearlier hby.stop
  exact ⟨e, mem_of_recorder? hfound, hfound, hby⟩

theorem leaf (h : Traced log c) {op : Operation} (hop : op.isLeaf = true) :
    Traced (log ++ [op.entry c]) (op.perform c).after := by
  cases hcloses : op.closes with
  | true =>
    obtain ⟨platforms, rfl⟩ := Operation.eq_finish_of_closes hcloses
    have hlog := sinceClose_append_of_closes log (e := (Operation.finish platforms).entry c) rfl
    exact ⟨fun e he => absurd (hlog ▸ he) List.not_mem_nil, List.forall_mem_nil _⟩
  | false =>
    have hlog := sinceClose_append log (e := op.entry c) hcloses
    have hextends := op.perform_extends c hop hcloses
    refine ⟨fun e he => ?_, fun q hq => ?_⟩
    · rw [hlog] at he
      rcases List.mem_append.mp he with he | he
      · exact Nat.le_trans (h.cycle e he) hextends.cycle
      · obtain rfl := List.mem_singleton.mp he
        exact Nat.le_refl _
    · have hold (hpart : ∃ r ∈ c.records, q.PartOf r) : ∃ earlier e later,
          sinceClose (log ++ [op.entry c]) = earlier ++ e :: later ∧
            (∀ f ∈ earlier, f.after.cycle ≤ q.start) ∧ RecordedBy e q := by
        obtain ⟨r, hr, hpart⟩ := hpart
        obtain ⟨earlier, e, later, hsplit, hearlier, hby⟩ := h.records r hr
        exact ⟨earlier, e, later ++ [op.entry c], by rw [hlog, hsplit, List.append_assoc, List.cons_append],
          fun f hf => Nat.le_trans (hearlier f hf) hpart.start, hby.part hpart⟩
      rcases op.timing_or_tape c hop with htiming | htape
      · rcases hextends.records q hq with hpart | ⟨hstart, hstop⟩
        · exact hold hpart
        · exact ⟨sinceClose log, op.entry c, [], hlog, fun f hf => Nat.le_trans (h.cycle f hf) hstart,
            ⟨c, rfl, hstart, htiming⟩, hstop, q, hq, .refl q⟩
      · exact hold ⟨q, by rwa [Sequencer.records, items, htape] at hq, .refl q⟩

end Traced

/-- Whatever a program does, its records are those that the log accounts
for. -/
theorem Path.traced {log log' : List LogEntry} (hpath : Path c log' c') (h : Traced log c) :
    Traced (log ++ log') c' := by
  induction hpath generalizing log with
  | done => rwa [List.append_nil]
  | @leaf c c' op log' hop _ ih =>
    rw [List.append_cons]
    exact ih (h.leaf hop)
  | turn ht _ ih =>
    obtain ⟨hcycle, hrecords⟩ := ht.moves.turn_records
    exact ih (h.of_records hcycle hrecords)
  | @closed c c' op answer log' hop _ ih =>
    rw [List.append_cons]
    exact ih (h.closed hop answer)

end Sequencer

end TestProgram
