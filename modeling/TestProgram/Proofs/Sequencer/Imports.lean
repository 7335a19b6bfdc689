import TestProgram.Proofs.Bench.OneShots
import TestProgram.Proofs.Sequencer.Emissions
import TestProgram.Proofs.Text.Names

/-!
# Imports of finished patterns

A pattern imports the subroutines that were called since the pattern before was
closed and are not defined in it, in the order of their bytes and none of them
twice. Its records have the calls that were recorded, in the order in which they
were made (`Path.accounted`). These differ by the calls that left no record,
because they failed or because vectors were inhibited; so a pattern imports what
its records call and it does not define, exactly if it defines or calls in some
record every subroutine that was called in vain (`finished_imports`).
-/

namespace TestProgram

/-! ## Calls in records -/

/-- The subroutines that records call, in order. -/
def recordedCalls (records : List VectorRecord) : List String := records.filterMap VectorRecord.call

/-! ## Calls and definitions in a log -/

namespace LogEntry

/-- The subroutine that a step called. -/
def called? (e : LogEntry) : Option String :=
  match e.operation with
  | .call name => some name
  | _ => none

/-- The subroutine that a step defined. -/
def defined? (e : LogEntry) : Option String :=
  match e.operation with
  | .define name => some name
  | _ => none

/-- The subroutine whose call a step recorded: it succeeded, and vectors were
not inhibited. -/
def recorded? (e : LogEntry) : Option String :=
  if e.answer.toBool = true ∧ e.after.inhibitVectors = 0 then e.called? else none

/-- A step that calls nothing records no call. -/
theorem recorded?_of_called? {e : LogEntry} (h : e.called? = none) : e.recorded? = none := by
  rw [recorded?, h, ite_self]

theorem called?_of_recorded? {e : LogEntry} {name : String} (h : e.recorded? = some name) : e.called? = some name := by
  unfold recorded? at h
  split at h
  · exact h
  · cases h

end LogEntry

namespace Sequencer

variable {c c' : Sequencer}

/-- Moves other than vectors and the end of the pattern leave its calls
alone. -/
theorem Moves.recordedCalls {A : Act → Prop} (hemit : ¬ A .emit) (hfinish : ¬ A .finish) (h : Moves A c c') :
    recordedCalls c'.records = recordedCalls c.records := by
  refine h.keep (P := fun c' => TestProgram.recordedCalls c'.records = TestProgram.recordedCalls c.records)
    (fun {a} c₁ c₂ ha hm hc => Eq.trans ?_ hc) rfl
  have hsame (htape : c₂.bench.tape = c₁.bench.tape) :
      TestProgram.recordedCalls c₂.records = TestProgram.recordedCalls c₁.records := by
    rw [records, items, htape]
    rfl
  cases hm with
  | note h | setPin s hi h | mask ids h | unmask ids h | enable hi he h | start hi hg hs h | stop hi hs h
  | pause hi hp h | resume hi hr h => exact hsame (by rw [h.bench])
  | group hpos hg hb hcfg => exact hsame (by rw [hb])
  | item i hi h =>
    rw [records, items, h.bench]
    exact congrArg _ (Tape.records_push hi)
  | store ht h =>
    rw [records, items, h.bench]
    exact OneShot.call.markStore ht
  | emit hi hb h =>
    rcases ha with ha | ha
    · cases ha
    · exact absurd ha hemit
  | finish h =>
    rcases ha with ha | ha
    · cases ha
    · exact absurd ha hfinish

/-- An emission records its call, unless it fails or vectors are inhibited. -/
theorem emit_recordedCalls (c : Sequencer) (count : Nat) (timeset call : Option String) :
    (recordedCalls (c.emit count timeset call).2.records = recordedCalls c.records ∧
        (c.inhibitVectors = 0 → (c.emit count timeset call).1 ≠ .ok ())) ∨
      (recordedCalls (c.emit count timeset call).2.records = recordedCalls c.records ++ call.toList ∧
        c.inhibitVectors = 0 ∧ (c.emit count timeset call).1 = .ok ()) := by
  rcases c.emit_cases count timeset call with ⟨h, hok⟩ | ⟨hi, t, b, hb, h, hok⟩
  · refine .inl ⟨?_, hok⟩
    rw [records, items, h.bench]
    rfl
  · refine .inr ⟨?_, hi, hok⟩
    rw [records, items, h.bench]
    exact OneShot.call.hold hb

theorem call_recordedCalls (c : Sequencer) (name : String) :
    (recordedCalls (c.call name).2.records = recordedCalls c.records ∧
        (c.inhibitVectors = 0 → (c.call name).1 ≠ .ok ())) ∨
      (recordedCalls (c.call name).2.records = recordedCalls c.records ++ [name] ∧
        c.inhibitVectors = 0 ∧ (c.call name).1 = .ok ()) :=
  emit_recordedCalls { c with called := Names.insert name c.called } 1 none (some name)

/-- A vector without a call adds none. -/
theorem emit_recordedCalls_none (c : Sequencer) (count : Nat) (timeset : Option String) :
    recordedCalls (c.emit count timeset none).2.records = recordedCalls c.records := by
  rcases c.emit_recordedCalls count timeset none with ⟨h, -⟩ | ⟨h, -⟩
  · exact h
  · rw [h, Option.toList_none, List.append_nil]

theorem recordedCalls_acrossVectors :
    AcrossVectors fun c c' => recordedCalls c'.records = recordedCalls c.records where
  trans h h' := h'.trans h
  note _ _ _ := rfl
  emit c _ timeset _ := c.emit_recordedCalls_none _ timeset

theorem setPin_recordedCalls (c : Sequencer) (pin : String) (s : PinState) :
    recordedCalls (c.setPin pin s).2.records = recordedCalls c.records :=
  ((c.setPin_settles pin s).moves (A := (· = .setPin pin)) (.inr rfl)).recordedCalls nofun nofun

/-- What an operation without a body adds to the calls of the records, unless it
closes the pattern. -/
theorem perform_recordedCalls (c : Sequencer) {op : Operation} (hop : op.isLeaf = true) (hcloses : op.closes = false) :
    recordedCalls (op.perform c).after.records = recordedCalls c.records ++ (op.entry c).recorded?.toList := by
  have of_same (hcalled : (op.entry c).called? = none)
      (h : recordedCalls (op.perform c).after.records = recordedCalls c.records) :
      recordedCalls (op.perform c).after.records = recordedCalls c.records ++ (op.entry c).recorded?.toList := by
    rw [h, LogEntry.recorded?_of_called? hcalled, Option.toList_none, List.append_nil]
  cases op with
  | hold count timeset => exact of_same rfl (recordedCalls_acrossVectors.hold c count timeset)
  | delay count => exact of_same rfl (recordedCalls_acrossVectors.delay c count)
  | wait d => exact of_same rfl (recordedCalls_acrossVectors.wait c d)
  | threads ts =>
    exact of_same rfl (recordedCalls_acrossVectors.runThreads c fun c _ _ pin s _ => c.setPin_recordedCalls pin s)
  | call name =>
    have hinhibit : (c.call name).2.inhibitVectors = c.inhibitVectors := ((Operation.call name).steady_perform c).inhibitVectors
    have hentry : ((Operation.call name).entry c).recorded? =
        if (c.call name).1.toBool = true ∧ c.inhibitVectors = 0 then some name else none := by
      rw [← hinhibit]
      show LogEntry.recorded? ⟨_, (c.call name).1.map fun _ => .done, (c.call name).2⟩ = _
      cases (c.call name).1 <;> rfl
    rw [hentry]
    show recordedCalls (c.call name).2.records = _
    rcases c.call_recordedCalls name with ⟨h, hfail⟩ | ⟨h, hi, hok⟩
    · have hlost : ¬ ((c.call name).1.toBool = true ∧ c.inhibitVectors = 0) := by
        rintro ⟨hok, hi⟩
        refine hfail hi ?_
        cases hcall : (c.call name).1 with
        | error e =>
          rw [hcall] at hok
          cases hok
        | ok _ => rfl
      rw [h, if_neg hlost, Option.toList_none, List.append_nil]
    · rw [h, if_pos ⟨by rw [hok]; rfl, hi⟩]
      rfl
  | finish platforms => cases hcloses
  | scope s body | block body | attempt body => cases hop
  | _ => exact of_same rfl (Moves.recordedCalls (fun h => by cases h) (fun h => by cases h) (Operation.perform_does c hop))

/-- What a log says of the subroutines of a sequencer: which of them have been
called and defined since the pattern before was closed, and which calls have
been recorded. -/
structure Accounted (log : List LogEntry) (c : Sequencer) : Prop where
  called : ∀ n, n ∈ c.called ↔ n ∈ (sinceClose log).filterMap LogEntry.called?
  defined : ∀ n, n ∈ c.defined ↔ n ∈ (sinceClose log).filterMap LogEntry.defined?
  calls : recordedCalls c.records = (sinceClose log).filterMap LogEntry.recorded?

namespace Accounted

variable {log : List LogEntry}

theorem turn (h : Accounted log c) (ht : Turns c c') : Accounted log c' where
  called := by
    rw [ht.names.called]
    exact h.called
  defined := by
    rw [ht.names.defined]
    exact h.defined
  calls := by
    rw [ht.moves.turn_records.2]
    exact h.calls

/-- One more step, with what it calls, defines and records. -/
theorem step (h : Accounted log c) {e : LogEntry} (hcloses : e.operation.closes = false)
    (hcalled : ∀ n, n ∈ c'.called ↔ n ∈ c.called ∨ e.called? = some n)
    (hdefined : ∀ n, n ∈ c'.defined ↔ n ∈ c.defined ∨ e.defined? = some n)
    (hcalls : recordedCalls c'.records = recordedCalls c.records ++ e.recorded?.toList) : Accounted (log ++ [e]) c' where
  called n := by
    rw [hcalled, h.called, sinceClose_append log hcloses, List.filterMap_append, List.mem_append]
    simp
  defined n := by
    rw [hdefined, h.defined, sinceClose_append log hcloses, List.filterMap_append, List.mem_append]
    simp
  calls := by
    rw [hcalls, h.calls, sinceClose_append log hcloses, List.filterMap_append]
    cases hrecorded : e.recorded? <;> simp [hrecorded]

theorem closed (h : Accounted log c) {op : Operation} (hop : op.isLeaf = false) (answer : Except Fault Answer) :
    Accounted (log ++ [⟨op, answer, c⟩]) c := by
  cases op with
  | scope s body | block body | attempt body =>
    refine h.step rfl (fun n => ?_) (fun n => ?_) ?_
    · simp [LogEntry.called?]
    · simp [LogEntry.defined?]
    · rw [LogEntry.recorded?_of_called? rfl, Option.toList_none, List.append_nil]
  | _ => cases hop

theorem leaf (h : Accounted log c) {op : Operation} (hop : op.isLeaf = true) :
    Accounted (log ++ [op.entry c]) (op.perform c).after := by
  obtain ⟨-, hcalled, hdefined⟩ := Operation.perform_names c hop
  cases hcloses : op.closes with
  | true =>
    obtain ⟨platforms, rfl⟩ := Operation.eq_finish_of_closes hcloses
    have hlog := sinceClose_append_of_closes log (e := (Operation.finish platforms).entry c) rfl
    refine ⟨fun n => ?_, fun n => ?_, ?_⟩
    · rw [hcalled, hlog]
      exact Iff.rfl
    · rw [hdefined, hlog]
      exact Iff.rfl
    · rw [hlog]
      rfl
  | false =>
    refine h.step hcloses (fun n => ?_) (fun n => ?_) (perform_recordedCalls c hop hcloses)
    · rw [hcalled]
      cases op with
      | call name =>
        show n ∈ Names.insert name c.called ↔ n ∈ c.called ∨ some name = some n
        rw [Names.mem_insert, or_comm, Option.some_inj, eq_comm]
      | finish platforms => cases hcloses
      | _ => simp [Operation.calledAfter, LogEntry.called?, Operation.entry]
    · rw [hdefined]
      cases op with
      | define name =>
        show n ∈ Names.insert name c.defined ↔ n ∈ c.defined ∨ some name = some n
        rw [Names.mem_insert, or_comm, Option.some_inj, eq_comm]
      | finish platforms => cases hcloses
      | _ => simp [Operation.definedAfter, LogEntry.defined?, Operation.entry]

end Accounted

/-- Whatever a program does, the log accounts for its subroutines. -/
theorem Path.accounted {log log' : List LogEntry} (hpath : Path c log' c') (h : Accounted log c) :
    Accounted (log ++ log') c' := by
  induction hpath generalizing log with
  | done => rwa [List.append_nil]
  | @leaf c c' op log' hop _ ih =>
    rw [List.append_cons]
    exact ih (h.leaf hop)
  | turn ht _ ih => exact ih (h.turn ht)
  | @closed c c' op answer log' hop _ ih =>
    rw [List.append_cons]
    exact ih (h.closed hop answer)

theorem accounted_new (name : String) (pins : Pinout) (config : Config) : Accounted [] (new name pins config) :=
  ⟨fun _ => Iff.rfl, fun _ => Iff.rfl, rfl⟩

open Operation in
/-- Wherever a program closes a pattern, the pattern imports the subroutines
that were called since the one before was closed and not defined, each once and
in the order of their bytes; and its records call those whose calls succeeded
while vectors were not inhibited. The imports are the subroutines that the
records call and the pattern does not define, exactly if every subroutine
called since then is defined or called in a record. -/
theorem finished_imports {name : String} {pins : Pinout} {config : Config} {ops : List Operation}
    {past rest : List LogEntry} {e : LogEntry} (hlog : (performAll ops (new name pins config)).1 = past ++ e :: rest)
    {platforms : List Platform} (hfinish : e.operation = .finish platforms) :
    ∃ p texts, e.answer = .ok (.finished p texts) ∧
      p.imported.Pairwise (fun a b => Names.bytes a < Names.bytes b) ∧
      (∀ n, n ∈ p.imported ↔ n ∈ (sinceClose past).filterMap LogEntry.called? ∧ n ∉ p.defined) ∧
      (∀ n, n ∈ p.defined ↔ n ∈ (sinceClose past).filterMap LogEntry.defined?) ∧
      recordedCalls p.vectors = (sinceClose past).filterMap LogEntry.recorded? ∧
      ((∀ n, n ∈ p.imported ↔ n ∈ recordedCalls p.vectors ∧ n ∉ p.defined) ↔
        ∀ f ∈ sinceClose past, ∀ n, f.called? = some n → n ∈ recordedCalls p.vectors ∨ n ∈ p.defined) := by
  obtain ⟨c, texts, hpast, hanswer, -⟩ := (path_performAll ops (new name pins config)).exists_of_finish hlog hfinish
  have haccount : Accounted past c := hpast.accounted (accounted_new name pins config)
  have hascending : Names.Ascending c.called := hpast.ascending List.Pairwise.nil
  have himported (n : String) : n ∈ c.pattern.imported ↔
      n ∈ (sinceClose past).filterMap LogEntry.called? ∧ n ∉ c.pattern.defined := by
    rw [← haccount.called]
    exact Names.mem_difference
  refine ⟨c.pattern, texts, hanswer, (hascending.difference c.defined).imp Names.bytes_lt_bytes, himported,
    haccount.defined, haccount.calls, fun hexact f hf n hcalled => ?_, fun hall n => ?_⟩
  · by_cases hn : n ∈ c.pattern.defined
    · exact .inr hn
    · have hmem : n ∈ c.pattern.imported := (himported n).mpr ⟨List.mem_filterMap.mpr ⟨f, hf, hcalled⟩, hn⟩
      exact .inl ((hexact n).mp hmem).1
  · rw [himported]
    refine and_congr_left fun hn => ⟨fun hcalled => ?_, fun hrecorded => ?_⟩
    · obtain ⟨f, hf, hcalled⟩ := List.mem_filterMap.mp hcalled
      exact (hall f hf n hcalled).resolve_right hn
    · have hrecorded : n ∈ recordedCalls c.records := hrecorded
      rw [haccount.calls] at hrecorded
      obtain ⟨f, hf, hrecorded⟩ := List.mem_filterMap.mp hrecorded
      exact List.mem_filterMap.mpr ⟨f, hf, LogEntry.called?_of_recorded? hrecorded⟩

/-- Calls in a loop, where vectors are inhibited, and of a subroutine that the
pattern defines. -/
def callingLog : List LogEntry :=
  (Operation.performAll [.setTimeset "tp" (some ⟨40000⟩), .define "own", .call "second",
    .scope (.loop "l" 2) [.call "first"], .scope .withoutVectors [.call "second"], .call "own", .finish []]
    (new "calling" twoPins (.standard .j750))).1

theorem callingLog_imports : ∃ past e platforms, callingLog = past ++ [e] ∧ e.operation = .finish platforms ∧
    ∃ p texts, e.answer = .ok (.finished p texts) ∧
      p.imported.Pairwise (fun a b => Names.bytes a < Names.bytes b) ∧
      ∀ n, n ∈ p.imported ↔ n ∈ ["second", "first", "own"] ∧ n ∉ ["own"] := by
  have hlast : callingLog.getLast?.any (fun e => e.operation.closes) = true := by decide +kernel
  have hpattern : callingLog.all (fun e => e.pattern?.all fun p =>
      decide (recordedCalls p.vectors = ["second", "first", "own"] ∧ p.defined = ["own"])) = true := by decide +kernel
  have hcalled : (sinceClose callingLog.dropLast).all (fun f => f.called?.all fun n =>
      decide (n ∈ ["second", "first", "own"])) = true := by decide +kernel
  obtain ⟨e, he, hcloses⟩ := (Option.any_eq_true _ _).mp hlast
  have hlog : callingLog = callingLog.dropLast ++ [e] := (List.dropLast_append_getLast? e he).symm
  obtain ⟨platforms, hfinish⟩ := Operation.eq_finish_of_closes hcloses
  obtain ⟨p, texts, hanswer, hbytes, -, -, -, hexact⟩ := finished_imports hlog hfinish
  obtain ⟨hcalls, hdefined⟩ := of_decide_eq_true (LogEntry.of_all_pattern? hpattern (List.mem_of_getLast? he) hanswer)
  refine ⟨_, _, platforms, hlog, hfinish, p, texts, hanswer, hbytes, ?_⟩
  rw [hcalls, hdefined] at hexact
  refine hexact.mpr fun f hf n hn => .inl ?_
  have htest := List.all_eq_true.mp hcalled f hf
  rw [hn] at htest
  exact of_decide_eq_true htest

/-- A call that leaves no record, because vectors are inhibited, is imported all
the same, though every operation succeeds. -/
theorem not_forall_imports_recorded : ¬ ∀ ops : List Operation,
    (∀ e ∈ (Operation.performAll ops (new "muted" twoPins (.standard .j750))).1, e.answer.toBool = true) →
      ∀ e ∈ (Operation.performAll ops (new "muted" twoPins (.standard .j750))).1, ∀ p texts,
        e.answer = .ok (.finished p texts) → ∀ n, n ∈ p.imported ↔ n ∈ recordedCalls p.vectors ∧ n ∉ p.defined := by
  intro hall
  have hops := hall [.setTimeset "tp" (some ⟨40000⟩), .scope .withoutVectors [.call "sub"], .finish []]
    (List.all_eq_true.mp (by decide +kernel))
  have hany : (Operation.performAll [.setTimeset "tp" (some ⟨40000⟩), .scope .withoutVectors [.call "sub"], .finish []]
      (new "muted" twoPins (.standard .j750))).1.any (fun e => e.pattern?.any fun p =>
        decide (p.imported = ["sub"] ∧ recordedCalls p.vectors = [])) = true := by decide +kernel
  obtain ⟨e, he, p, texts, hanswer, h⟩ := LogEntry.exists_of_any_pattern? hany
  obtain ⟨himported, hcalls⟩ := of_decide_eq_true h
  have hsub := (hops e he p texts hanswer "sub").mp (by rw [himported]; exact List.mem_singleton_self "sub")
  rw [hcalls] at hsub
  exact absurd hsub.1 List.not_mem_nil

end Sequencer

end TestProgram
