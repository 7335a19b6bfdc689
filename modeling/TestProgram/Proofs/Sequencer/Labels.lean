import TestProgram.Proofs.Sequencer.Imports

/-!
# Labels of finished patterns

A label goes to the next vector that is recorded, unless another label is set
before that one. So what becomes of it can be told from the log: it is taken, or
replaced, or still pending (`LogEntry.fate`). The labels of the records are those
that were taken (`Path.labelled`). A subroutine that a pattern defines is not
imported, whatever becomes of the label that its definition sets; so the calls in
the records lead somewhere exactly if each subroutine that is called and defined
has its name taken as a label at least once (`finished_labels`).
-/

namespace TestProgram

/-! ## Labels in a log -/

/-- What becomes of a label. -/
inductive LabelFate where
  | pending
  /-- A record has it. -/
  | taken
  /-- Another label was set before a vector was recorded. -/
  | replaced
  deriving DecidableEq, Repr

namespace LogEntry

/-- The label that a step sets. -/
def label? (e : LogEntry) : Option String :=
  match e.operation with
  | .label name | .define name => some name
  | _ => none

/-- What becomes of the label that a step sets, in the steps after it. A step has
recorded vectors if more cycles have passed after it. -/
def fate (e : LogEntry) : List LogEntry → LabelFate
  | [] => .pending
  | f :: later =>
    if e.after.cycle < f.after.cycle then .taken
    else if f.label?.isSome then .replaced
    else e.fate later

theorem fate_concat (e f : LogEntry) : ∀ later : List LogEntry,
    e.fate (later ++ [f]) = if e.fate later = .pending then e.fate [f] else e.fate later
  | [] => rfl
  | g :: later => by
    rw [List.cons_append, fate, fate, fate_concat e f later]
    split
    · rfl
    · split <;> rfl

end LogEntry

/-- An entry of a log with one more step is this step or was there before. -/
theorem concat_eq_append_cons {log earlier later : List LogEntry} {e f : LogEntry} :
    log ++ [f] = earlier ++ e :: later ↔
      (log = earlier ∧ f = e ∧ later = []) ∨ ∃ later', later = later' ++ [f] ∧ log = earlier ++ e :: later' := by
  constructor
  · intro h
    rcases List.eq_nil_or_concat later with rfl | ⟨later', g, rfl⟩
    · obtain ⟨hlog, hlast⟩ := List.append_inj' h rfl
      exact .inl ⟨hlog, (List.cons.inj hlast).1, rfl⟩
    · rw [List.concat_eq_append, ← List.cons_append, ← List.append_assoc] at h
      obtain ⟨hlog, hlast⟩ := List.append_inj' h rfl
      obtain rfl := (List.cons.inj hlast).1
      exact .inr ⟨later', List.concat_eq_append, hlog⟩
  · rintro (⟨rfl, rfl, rfl⟩ | ⟨later', rfl, rfl⟩)
    · rfl
    · rw [List.append_assoc, List.cons_append]

/-- A step of the log sets the label `name`, and this becomes of it. -/
def Fated (log : List LogEntry) (name : String) (fate : LabelFate) : Prop :=
  ∃ earlier e later, log = earlier ++ e :: later ∧ e.label? = some name ∧ e.fate later = fate

/-- If one more step makes `next` of all labels that are pending, then it leaves
the others alone, and the label that it sets itself is pending. -/
theorem fated_concat {log : List LogEntry} {f : LogEntry} {next : LabelFate}
    (hnext : ∀ {earlier e later}, log = earlier ++ e :: later → e.fate later = .pending → e.fate [f] = next)
    {name : String} {fate : LabelFate} : Fated (log ++ [f]) name fate ↔
      (f.label? = some name ∧ fate = .pending) ∨ (Fated log name fate ∧ fate ≠ .pending) ∨
        (Fated log name .pending ∧ fate = next) := by
  constructor
  · rintro ⟨earlier, e, later, hsplit, hname, rfl⟩
    rcases concat_eq_append_cons.mp hsplit with ⟨-, rfl, rfl⟩ | ⟨later, rfl, hold⟩
    · exact .inl ⟨hname, rfl⟩
    · rw [LogEntry.fate_concat]
      by_cases hpend : e.fate later = .pending
      · rw [if_pos hpend]
        exact .inr (.inr ⟨⟨earlier, e, later, hold, hname, hpend⟩, hnext hold hpend⟩)
      · rw [if_neg hpend]
        exact .inr (.inl ⟨⟨earlier, e, later, hold, hname, rfl⟩, hpend⟩)
  · rintro (⟨hname, rfl⟩ | ⟨⟨earlier, e, later, rfl, hname, rfl⟩, hpend⟩ |
      ⟨⟨earlier, e, later, rfl, hname, hpend⟩, rfl⟩)
    · exact ⟨log, f, [], rfl, hname, rfl⟩
    · exact ⟨earlier, e, later ++ [f], by rw [List.append_assoc, List.cons_append], hname,
        by rw [LogEntry.fate_concat, if_neg hpend]⟩
    · exact ⟨earlier, e, later ++ [f], by rw [List.append_assoc, List.cons_append], hname,
        by rw [LogEntry.fate_concat, if_pos hpend, hnext rfl hpend]⟩

namespace Sequencer

variable {c c' c'' : Sequencer}

/-- The labels of the records, in order. -/
def labels (c : Sequencer) : List String := c.records.filterMap VectorRecord.label

/-! ## What a step does to labels -/

/-- What becomes of the pending label from `c` to `c'`, if `given` is set in
between. -/
inductive Hands (c c' : Sequencer) : (given : Option String) → Prop where
  /-- Nothing is recorded. -/
  | keeps {given : Option String} (hcycle : c'.cycle = c.cycle) (hlabels : c'.labels = c.labels)
      (hpending : c'.pendingLabel = given.or c.pendingLabel) : Hands c c' given
  /-- Vectors are recorded, and the first one takes the label. -/
  | takes (hcycle : c.cycle < c'.cycle) (hlabels : c'.labels = c.labels ++ c.pendingLabel.toList)
      (hpending : c'.pendingLabel = none) : Hands c c' none

namespace Hands

theorem of_tape (htape : c'.bench.tape = c.bench.tape) (hmarks : SameMarks c c') : Hands c c' none :=
  .keeps (by rw [cycle, htape]; rfl) (by rw [labels, records, items, htape]; rfl) hmarks.label

theorem of_core (h : c'.core = c.core) : Hands c c' none :=
  .of_tape (congrArg (fun c => c.bench.tape) h :) (.of_core h)

theorem trans (h : Hands c c' none) (h' : Hands c' c'' none) : Hands c c'' none := by
  cases h with
  | keeps hcycle hlabels hpending =>
    cases h' with
    | keeps hcycle' hlabels' hpending' =>
      exact .keeps (hcycle'.trans hcycle) (hlabels'.trans hlabels) (hpending'.trans hpending)
    | takes hcycle' hlabels' hpending' =>
      rw [hlabels, hpending] at hlabels'
      exact .takes (hcycle ▸ hcycle') hlabels' hpending'
  | takes hcycle hlabels hpending =>
    cases h' with
    | keeps hcycle' hlabels' hpending' =>
      exact .takes (hcycle' ▸ hcycle) (hlabels'.trans hlabels) (hpending'.trans hpending)
    | takes hcycle' hlabels' hpending' =>
      rw [hpending, Option.toList_none, List.append_nil, hlabels] at hlabels'
      exact .takes (Nat.lt_trans hcycle hcycle') hlabels' hpending'

end Hands

theorem emit_hands (c : Sequencer) (count : Nat) (timeset call : Option String) :
    Hands c (c.emit count timeset call).2 none := by
  rcases c.emit_cases count timeset call with ⟨hbench, hfail⟩ | ⟨hi, t, b, hb, hbench, hok⟩
  · rcases c.emit_marks count timeset call with ⟨hmarks, -⟩ | ⟨hi, hok, -⟩
    · exact .of_tape (congrArg Bench.tape hbench.bench) hmarks
    · exact absurd hok (hfail hi)
  · rcases c.emit_marks count timeset call with ⟨-, hfail⟩ | ⟨-, -, -, hpending⟩
    · exact absurd hok (hfail hi)
    · refine .takes ?_ ?_ hpending
      · rw [cycle, cycle, hbench.bench, Bench.cycle_of_hold hb]
        exact Nat.lt_add_of_pos_right (Bench.hold_eq_ok hb).1
      · rw [labels, records, items, hbench.bench]
        exact OneShot.label.hold hb

theorem hands_acrossVectors : AcrossVectors fun c c' => Hands c c' none where
  trans := .trans
  note _ _ _ := .of_core rfl
  emit c _ timeset _ := c.emit_hands _ timeset none

theorem store_hands (c : Sequencer) (offset : Nat) : Hands c (c.store offset).2 none := by
  unfold store
  dsimp only
  split
  · exact .keeps rfl rfl rfl
  · split
    · exact .keeps rfl rfl rfl
    · cases ht : c.touch.bench.tape.markStore offset with
      | error e => exact .keeps rfl rfl rfl
      | ok tape => exact .keeps (Tape.records_markStore ht).1 (OneShot.label.markStore ht) rfl

theorem comment_hands (c : Sequencer) (text : String) : Hands c (c.comment text) none := by
  unfold comment
  dsimp only
  split
  · exact .keeps rfl (congrArg (List.filterMap VectorRecord.label) (Tape.records_push rfl)) rfl
  · exact .keeps rfl rfl rfl

theorem perform_hands (c : Sequencer) {op : Operation} (hop : op.isLeaf = true) (hcloses : op.closes = false) :
    Hands c (op.perform c).after (op.entry c).label? := by
  cases op with
  | hold count timeset => exact hands_acrossVectors.hold c count timeset
  | delay count => exact hands_acrossVectors.delay c count
  | wait d => exact hands_acrossVectors.wait c d
  | threads ts => exact hands_acrossVectors.runThreads c fun c _ _ pin s _ => .of_core (c.setPin_core pin s)
  | call name =>
    have hcalled : Hands c { c with called := Names.insert name c.called } none := .keeps rfl rfl rfl
    exact hcalled.trans (emit_hands _ 1 none (some name))
  | store offset => exact c.store_hands offset
  | comment text => exact c.comment_hands text
  | label name | define name => exact .keeps rfl rfl rfl
  | finish platforms => cases hcloses
  | scope s body | block body | attempt body => cases hop
  | _ => exact .of_core (Operation.perform_core c rfl)

/-! ## Labels of records and the log -/

/-- What the log says of the labels of a sequencer. -/
structure Labelled (log : List LogEntry) (c : Sequencer) : Prop where
  taken : ∀ name, name ∈ c.labels ↔ Fated (sinceClose log) name .taken
  pending : ∀ name, c.pendingLabel = some name ↔ Fated (sinceClose log) name .pending
  cycle : ∀ {earlier e later}, sinceClose log = earlier ++ e :: later →
    e.after.cycle ≤ c.cycle ∧ (e.fate later = .pending → e.after.cycle = c.cycle)

namespace Labelled

variable {log : List LogEntry}

/-- A pattern begins without labels. -/
theorem of_nil (hlog : sinceClose log = []) (hlabels : c.labels = []) (hpending : c.pendingLabel = none) :
    Labelled log c := by
  have hempty {earlier later : List LogEntry} {e : LogEntry} : sinceClose log ≠ earlier ++ e :: later := by
    rw [hlog]
    exact (List.append_ne_nil_of_right_ne_nil earlier (List.cons_ne_nil e later)).symm
  refine ⟨fun name => ⟨fun h => ?_, fun ⟨_, _, _, h, _⟩ => absurd h hempty⟩,
    fun name => ⟨fun h => ?_, fun ⟨_, _, _, h, _⟩ => absurd h hempty⟩, fun h => absurd h hempty⟩
  · rw [hlabels] at h
    cases h
  · rw [hpending] at h
    cases h

theorem turn (h : Labelled log c) (ht : Turns c c') : Labelled log c' := by
  obtain ⟨hcycle, hrecords⟩ := ht.moves.turn_records
  refine ⟨fun name => ?_, fun name => ?_, fun hsplit => ?_⟩
  · rw [labels, hrecords]
    exact h.taken name
  · rw [ht.marks.label]
    exact h.pending name
  · rw [hcycle]
    exact h.cycle hsplit

/-- One more step, with what becomes of the label that is pending before it and
of the one that it sets. -/
theorem step (h : Labelled log c) {f : LogEntry} (hcloses : f.operation.closes = false)
    (hands : Hands c f.after f.label?) : Labelled (log ++ [f]) f.after := by
  have hlog := sinceClose_append log hcloses
  generalize hgiven : f.label? = given at hands
  cases hands with
  | keeps hcycle hlabels hpending =>
    have hnext {earlier later : List LogEntry} {e : LogEntry} (hsplit : sinceClose log = earlier ++ e :: later)
        (hlater : e.fate later = .pending) :
        e.fate [f] = if given.isSome then .replaced else .pending := by
      have heq := (h.cycle hsplit).2 hlater
      rw [LogEntry.fate, if_neg (by omega), hgiven, LogEntry.fate]
    refine ⟨fun name => ?_, fun name => ?_, fun {earlier e later} hsplit => ?_⟩
    · rw [hlabels, h.taken, hlog, fated_concat hnext]
      cases given <;> simp
    · rw [hpending, hlog, fated_concat hnext, hgiven, ← h.pending]
      cases given <;> simp
    · rw [hlog] at hsplit
      rcases concat_eq_append_cons.mp hsplit with ⟨-, rfl, rfl⟩ | ⟨later, rfl, hold⟩
      · exact ⟨Nat.le_refl _, fun _ => rfl⟩
      · rw [hcycle]
        refine ⟨(h.cycle hold).1, fun hlater => (h.cycle hold).2 ?_⟩
        rw [LogEntry.fate_concat] at hlater
        split at hlater
        · assumption
        · exact hlater
  | takes hcycle hlabels hpending =>
    have hnext {earlier later : List LogEntry} {e : LogEntry} (hsplit : sinceClose log = earlier ++ e :: later)
        (hlater : e.fate later = .pending) : e.fate [f] = .taken := by
      have heq := (h.cycle hsplit).2 hlater
      rw [LogEntry.fate, if_pos (by omega)]
    refine ⟨fun name => ?_, fun name => ?_, fun {earlier e later} hsplit => ?_⟩
    · rw [hlabels, List.mem_append, Option.mem_toList, h.taken, h.pending, hlog, fated_concat hnext]
      simp [hgiven]
    · rw [hpending, hlog, fated_concat hnext]
      simp [hgiven]
    · rw [hlog] at hsplit
      rcases concat_eq_append_cons.mp hsplit with ⟨-, rfl, rfl⟩ | ⟨later, rfl, hold⟩
      · exact ⟨Nat.le_refl _, fun _ => rfl⟩
      · refine ⟨Nat.le_trans (h.cycle hold).1 (Nat.le_of_lt hcycle), fun hlater => ?_⟩
        rw [LogEntry.fate_concat] at hlater
        split at hlater
        · rename_i hpend
          exact nomatch (hnext hold hpend).symm.trans hlater
        · exact absurd hlater ‹_›

theorem closed (h : Labelled log c) {op : Operation} (hop : op.isLeaf = false) (answer : Except Fault Answer) :
    Labelled (log ++ [⟨op, answer, c⟩]) c := by
  cases op with
  | scope s body | block body | attempt body => exact h.step (f := ⟨_, answer, c⟩) rfl (.keeps rfl rfl rfl)
  | _ => cases hop

theorem leaf (h : Labelled log c) {op : Operation} (hop : op.isLeaf = true) :
    Labelled (log ++ [op.entry c]) (op.perform c).after := by
  cases hcloses : op.closes with
  | true =>
    obtain ⟨platforms, rfl⟩ := Operation.eq_finish_of_closes hcloses
    exact .of_nil (sinceClose_append_of_closes log rfl) rfl rfl
  | false => exact h.step (f := op.entry c) hcloses (perform_hands c hop hcloses)

end Labelled

/-- Whatever a program does, the log accounts for the labels of its records. -/
theorem Path.labelled {log log' : List LogEntry} (hpath : Path c log' c') (h : Labelled log c) :
    Labelled (log ++ log') c' := by
  induction hpath generalizing log with
  | done => rwa [List.append_nil]
  | @leaf c c' op log' hop _ ih =>
    rw [List.append_cons]
    exact ih (h.leaf hop)
  | turn ht _ ih => exact ih (h.turn ht)
  | @closed c c' op answer log' hop _ ih =>
    rw [List.append_cons]
    exact ih (h.closed hop answer)

theorem labelled_new (name : String) (pins : Pinout) (config : Config) : Labelled [] (new name pins config) :=
  .of_nil rfl rfl rfl

open Operation in
/-- Wherever a program closes a pattern, each call in the records is of a
subroutine that is imported or defined. The labels of the records are those that
were set since the pattern before was closed and that were taken, by the first
vector recorded after them, before another one was set. So each call in the records
leads to an import or to a label of a record, exactly if that happened to the name
of each subroutine that is called in the records and defined. -/
theorem finished_labels {name : String} {pins : Pinout} {config : Config} {ops : List Operation}
    {past rest : List LogEntry} {e : LogEntry} (hlog : (performAll ops (new name pins config)).1 = past ++ e :: rest)
    {platforms : List Platform} (hfinish : e.operation = .finish platforms) :
    ∃ p texts, e.answer = .ok (.finished p texts) ∧
      (∀ n ∈ recordedCalls p.vectors, n ∈ p.imported ↔ n ∉ p.defined) ∧
      (∀ n, (∃ r ∈ p.vectors, r.label = some n) ↔ Fated (sinceClose past) n .taken) ∧
      ((∀ n ∈ recordedCalls p.vectors, n ∈ p.imported ∨ ∃ r ∈ p.vectors, r.label = some n) ↔
        ∀ n ∈ recordedCalls p.vectors, n ∈ p.defined → Fated (sinceClose past) n .taken) := by
  obtain ⟨c, texts, hpast, hanswer, -⟩ := (path_performAll ops (new name pins config)).exists_of_finish hlog hfinish
  have haccount : Accounted past c := hpast.accounted (accounted_new name pins config)
  have hlabelled : Labelled past c := hpast.labelled (labelled_new name pins config)
  have himported (n : String) (hn : n ∈ recordedCalls c.pattern.vectors) :
      n ∈ c.pattern.imported ↔ n ∉ c.pattern.defined := by
    have hn : n ∈ recordedCalls c.records := hn
    rw [haccount.calls] at hn
    obtain ⟨f, hf, hrecorded⟩ := List.mem_filterMap.mp hn
    have hcalled : n ∈ c.called :=
      (haccount.called n).mpr (List.mem_filterMap.mpr ⟨f, hf, LogEntry.called?_of_recorded? hrecorded⟩)
    exact Names.mem_difference.trans (and_iff_right hcalled)
  have hlabels (n : String) : (∃ r ∈ c.pattern.vectors, r.label = some n) ↔ Fated (sinceClose past) n .taken :=
    List.mem_filterMap.symm.trans (hlabelled.taken n)
  refine ⟨c.pattern, texts, hanswer, himported, hlabels, forall₂_congr fun n hn => ?_⟩
  rw [himported n hn, hlabels, imp_iff_not_or]

/-- A subroutine that is defined under a label of its own and called, and one that
is called only. -/
def routinesLog : List LogEntry :=
  (Operation.performAll [.setTimeset "tp" (some ⟨40000⟩), .define "own", .hold none none, .call "other", .call "own",
    .finish []] (new "routines" twoPins (.standard .j750))).1

theorem routinesLog_labels : ∃ past e platforms, routinesLog = past ++ [e] ∧ e.operation = .finish platforms ∧
    ∃ p texts, e.answer = .ok (.finished p texts) ∧ recordedCalls p.vectors = ["other", "own"] ∧
      ∀ n ∈ recordedCalls p.vectors, n ∈ p.imported ∨ ∃ r ∈ p.vectors, r.label = some n := by
  have hlast : routinesLog.getLast?.any (fun e => e.operation.closes) = true := by decide +kernel
  have hpattern : routinesLog.all (fun e => e.pattern?.all fun p =>
      decide (recordedCalls p.vectors = ["other", "own"] ∧ p.defined = ["own"] ∧
        p.vectors.any (fun r => r.label == some "own") = true)) = true := by decide +kernel
  obtain ⟨e, he, hcloses⟩ := (Option.any_eq_true _ _).mp hlast
  have hlog : routinesLog = routinesLog.dropLast ++ [e] := (List.dropLast_append_getLast? e he).symm
  obtain ⟨platforms, hfinish⟩ := Operation.eq_finish_of_closes hcloses
  obtain ⟨p, texts, hanswer, -, hlabels, hiff⟩ := finished_labels hlog hfinish
  obtain ⟨hcalls, hdefined, hany⟩ :=
    of_decide_eq_true (LogEntry.of_all_pattern? hpattern (List.mem_of_getLast? he) hanswer)
  refine ⟨_, _, platforms, hlog, hfinish, p, texts, hanswer, hcalls, hiff.mpr fun n _ hn => ?_⟩
  rw [hdefined, List.mem_singleton] at hn
  subst hn
  obtain ⟨r, hr, hlabel⟩ := List.any_eq_true.mp hany
  exact (hlabels "own").mp ⟨r, hr, eq_of_beq hlabel⟩

/-- A definition keeps its subroutine from being imported even if another label is
set before its own is taken. -/
theorem not_forall_calls_lead : ¬ ∀ ops : List Operation,
    ∀ e ∈ (Operation.performAll ops (new "relabelled" twoPins (.standard .j750))).1, ∀ p texts,
      e.answer = .ok (.finished p texts) → ∀ n ∈ recordedCalls p.vectors,
        n ∈ p.imported ∨ ∃ r ∈ p.vectors, r.label = some n := by
  intro hall
  have hany : (Operation.performAll [.setTimeset "tp" (some ⟨40000⟩), .define "sub", .label "entry", .call "sub",
      .finish []] (new "relabelled" twoPins (.standard .j750))).1.any (fun e => e.pattern?.any fun p =>
        decide (p.imported = [] ∧ recordedCalls p.vectors = ["sub"] ∧
          p.vectors.filterMap VectorRecord.label = ["entry"])) = true := by decide +kernel
  obtain ⟨e, he, p, texts, hanswer, h⟩ := LogEntry.exists_of_any_pattern? hany
  obtain ⟨himported, hcalls, hlabels⟩ := of_decide_eq_true h
  have hsub : "sub" ∈ recordedCalls p.vectors := by
    rw [hcalls]
    exact List.mem_singleton_self "sub"
  rcases hall _ e he p texts hanswer "sub" hsub with hn | ⟨r, hr, hlabel⟩
  · rw [himported] at hn
    exact absurd hn List.not_mem_nil
  · have hmem : "sub" ∈ p.vectors.filterMap VectorRecord.label := List.mem_filterMap.mpr ⟨r, hr, hlabel⟩
    rw [hlabels] at hmem
    exact absurd hmem (by decide)

end Sequencer

end TestProgram
