import TestProgram.Proofs.Sequencer.Labels

/-!
# Where vectors are inhibited

While vectors are inhibited nothing is recorded, and no cycle passes or is
executed. Of what operations do otherwise to the records to come, the marks for the
next vector remain: a store of it, and the label that was set last (`Muted`). That
holds for single operations, and since a scope within the inhibited one can only
inhibit vectors further, for whole bodies (`muted_logged`).
-/

namespace TestProgram

/-- A store of the next vector. -/
def Operation.storesNext : Operation → Bool
  | .store 0 => true
  | _ => false

theorem Operation.storesNext_iff {op : Operation} : op.storesNext = true ↔ op = .store 0 := by
  constructor
  · intro h
    unfold storesNext at h
    split at h
    · rfl
    · cases h
  · rintro rfl
    rfl

namespace Sequencer

/-- From `c` to `c'` nothing is recorded, and the marks that were set in the log
are pending at the end. -/
structure Muted (c : Sequencer) (log : List LogEntry) (c' : Sequencer) : Prop where
  tape : c'.bench.tape = c.bench.tape
  executed : c'.executed = c.executed
  store : c'.pendingStore = (c.pendingStore || log.any fun e => e.operation.storesNext)
  label : c'.pendingLabel = (log.filterMap LogEntry.label?).getLast?.or c.pendingLabel

namespace Muted

variable {c c' c'' : Sequencer} {log log' : List LogEntry}

theorem of_marks (htape : c'.bench.tape = c.bench.tape) (hexecuted : c'.executed = c.executed)
    (h : SameMarks c c') : Muted c [] c' :=
  ⟨htape, hexecuted, h.store.trans (Bool.or_false _).symm, h.label⟩

theorem of_core (h : c'.core = c.core) : Muted c [] c' :=
  .of_marks (congrArg (fun c => c.bench.tape) h :) (congrArg Sequencer.executed h :) (.of_core h)

theorem trans (h : Muted c log c') (h' : Muted c' log' c'') : Muted c (log ++ log') c'' where
  tape := h'.tape.trans h.tape
  executed := h'.executed.trans h.executed
  store := by
    rw [h'.store, h.store, List.any_append, Bool.or_assoc]
  label := by
    rw [h'.label, h.label, List.filterMap_append, List.getLast?_append, Option.or_assoc]

/-- What goes before a log and after it sets no mark. -/
theorem around {c₁ c₂ : Sequencer} (h : Muted c₁ log c₂) (hopen : Muted c [] c₁) (hclose : Muted c₂ [] c') :
    Muted c log c' := by
  have hrun := (hopen.trans h).trans hclose
  rwa [List.append_nil] at hrun

/-- One step that stores nothing and sets at most a label. -/
theorem marked (htape : c'.bench.tape = c.bench.tape) (hexecuted : c'.executed = c.executed)
    (hpending : c'.pendingStore = c.pendingStore) {e : LogEntry} (hstore : e.operation.storesNext = false)
    (hlabel : c'.pendingLabel = e.label?.or c.pendingLabel) : Muted c [e] c' := by
  refine ⟨htape, hexecuted, ?_, hlabel.trans ?_⟩
  · rw [hpending, List.any_cons, hstore, List.any_nil, Bool.or_false, Bool.or_false]
  · cases hlabel : e.label? <;> simp [hlabel]

/-- A step that sets no mark. -/
theorem append_entry (h : Muted c log c') {e : LogEntry} (hstore : e.operation.storesNext = false)
    (hlabel : e.label? = none) : Muted c (log ++ [e]) c' :=
  h.trans (.marked rfl rfl rfl hstore (by rw [hlabel]; rfl))

end Muted

/-! ## Operations where vectors are inhibited -/

theorem emit_of_inhibited {c : Sequencer} (hi : 0 < c.inhibitVectors) (count : Nat) (timeset call : Option String) :
    (c.emit count timeset call).2 = c.touch := by
  unfold emit
  dsimp only
  split
  · rfl
  · rw [if_pos (by exact hi)]

/-- Emissions leave the core alone as long as vectors are inhibited. -/
theorem core_acrossVectors : AcrossVectors fun c c' => 0 < c.inhibitVectors → c'.core = c.core where
  trans h h' hi := (h' ((congrArg Sequencer.inhibitVectors (h hi) :).symm ▸ hi)).trans (h hi)
  note _ _ _ _ := rfl
  emit c _ timeset _ hi := by
    rw [emit_of_inhibited hi]
    rfl

/-- Nothing is recorded by an operation that finds vectors inhibited. -/
def MutedIfInhibited (c : Sequencer) (log : List LogEntry) (c' : Sequencer) : Prop :=
  0 < c.inhibitVectors → Muted c log c' ∧ c'.inhibitVectors = c.inhibitVectors

theorem perform_muted (c : Sequencer) {op : Operation} (hop : op.isLeaf = true) (hcloses : op.closes = false) :
    MutedIfInhibited c [op.entry c] (op.perform c).after := by
  intro hi
  refine ⟨?_, (op.steady_perform c).inhibitVectors⟩
  have of_core (hstore : op.storesNext = false) (hlabel : (op.entry c).label? = none)
      (h : (op.perform c).after.core = c.core) : Muted c [op.entry c] (op.perform c).after :=
    (Muted.of_core h).append_entry hstore hlabel
  cases op with
  | hold count timeset => exact of_core rfl rfl (core_acrossVectors.hold c count timeset hi)
  | delay count => exact of_core rfl rfl (core_acrossVectors.delay c count hi)
  | wait d => exact of_core rfl rfl (core_acrossVectors.wait c d hi)
  | threads ts =>
    exact of_core rfl rfl (core_acrossVectors.runThreads c (fun c _ _ pin s _ _ => c.setPin_core pin s) hi)
  | call name =>
    have hcall : (c.call name).2 = { c with called := Names.insert name c.called }.touch :=
      emit_of_inhibited (c := { c with called := Names.insert name c.called }) hi 1 none (some name)
    have hmuted : Muted c [] (c.call name).2 := by
      rw [hcall]
      exact .of_marks rfl rfl ⟨rfl, rfl⟩
    exact hmuted.append_entry rfl rfl
  | store offset =>
    cases offset with
    | zero => exact ⟨rfl, rfl, (Bool.or_true c.pendingStore).symm, rfl⟩
    | succ offset =>
      have hstore : (c.store (offset + 1)).2 = c.touch := by
        rw [store, if_neg (Nat.succ_ne_zero offset), if_pos (by exact hi)]
      have hcore : (c.store (offset + 1)).2.core = c.core := by
        rw [hstore]
        rfl
      exact of_core rfl rfl hcore
  | comment text =>
    have hcomment : c.comment text = c.touch := if_neg fun h => absurd h.1 (Nat.ne_of_gt hi)
    have hcore : (c.comment text).core = c.core := by
      rw [hcomment]
      rfl
    exact of_core rfl rfl hcore
  | label name | define name => refine .marked ?_ ?_ ?_ ?_ ?_ <;> rfl
  | finish platforms => cases hcloses
  | scope s body | block body | attempt body => cases hop
  | _ => exact of_core rfl rfl (Operation.perform_core c rfl)

/-! ## Bodies where vectors are inhibited -/

section

variable {body : Sequencer → (Except Fault Unit × List LogEntry) × Sequencer}

theorem enterLoop_of_inhibited {c : Sequencer} (hi : 0 < c.inhibitVectors) (label : String) (count : Nat) :
    c.enterLoop label count = { c with loopFactor := Word.mul c.loopFactor count } := by
  rw [enterLoop, if_neg (Nat.ne_of_gt hi)]

theorem leaveLoop_of_inhibited {c : Sequencer} (hi : 0 < c.inhibitVectors) (label : String) (c' : Sequencer) :
    c.leaveLoop label c' = { c' with loopFactor := c.loopFactor } := by
  rw [leaveLoop, if_neg (Nat.ne_of_gt hi)]

theorem within_muted (hbody : ∀ c, MutedIfInhibited c (body c).1.2 (body c).2) (c : Sequencer) : ∀ s : Scope,
    MutedIfInhibited c (bodyLog (c.within s body).1) (c.within s body).2
  | .timeset name period => fun hi => by
    have hset := c.setTimeset_core name period
    rw [within, withTimeset]
    split
    · rename_i heq
      rw [heq] at hset
      exact ⟨.of_core hset, (congrArg Sequencer.inhibitVectors hset :)⟩
    · rename_i c₁ heq
      rw [heq] at hset
      have hsame : c₁.inhibitVectors = c.inhibitVectors := (congrArg Sequencer.inhibitVectors hset :)
      obtain ⟨hmuted, hinhibit⟩ := hbody c₁ (hsame ▸ hi)
      exact ⟨hmuted.around (.of_core hset) (.of_core rfl), hinhibit.trans hsame⟩
  | .loop label 0 => fun _ => ⟨.of_core rfl, rfl⟩
  | .loop label 1 => fun hi =>
    have ⟨hmuted, hinhibit⟩ := hbody c.touch hi
    ⟨hmuted.around (.of_core rfl) (.of_core rfl), hinhibit⟩
  | .loop label (count + 2) => fun hi => by
    have hcount : 2 ≤ count + 2 := Nat.le_add_left 2 count
    have hbefore : (c.beforeLoop label).core = c.core := by
      unfold beforeLoop
      split <;> rfl
    rw [fst_within, opened_loop c label hcount, within, loop_snd c label hcount]
    generalize c.beforeLoop label = c₁ at hbefore ⊢
    have hsame : c₁.inhibitVectors = c.inhibitVectors := (congrArg Sequencer.inhibitVectors hbefore :)
    have hi : 0 < c₁.inhibitVectors := hsame ▸ hi
    rw [enterLoop_of_inhibited hi, leaveLoop_of_inhibited hi]
    obtain ⟨hmuted, hinhibit⟩ := hbody { c₁ with loopFactor := Word.mul c₁.loopFactor (count + 2) } hi
    have hopen : Muted c [] c₁ := .of_core hbefore
    exact ⟨hmuted.around ⟨hopen.tape, hopen.executed, hopen.store, hopen.label⟩ (.of_marks rfl rfl ⟨rfl, rfl⟩),
      hinhibit.trans hsame⟩
  | .ignoreFails pins => fun hi => by
    rw [within, ignoreFails]
    dsimp only
    split
    · exact ⟨.of_core rfl, rfl⟩
    · rename_i ids _
      obtain ⟨hmuted, hinhibit⟩ := hbody (c.touch.withPins (ids.foldl Pinout.mask c.touch.pins)) hi
      exact ⟨hmuted.around (.of_core rfl) (.of_core rfl), hinhibit⟩
  | .withoutVectors => fun hi =>
    have ⟨hmuted, hinhibit⟩ := hbody { c.touch with inhibitVectors := c.touch.inhibitVectors + 1 } (Nat.succ_pos _)
    ⟨hmuted.around (.of_marks rfl rfl ⟨rfl, rfl⟩) (.of_marks rfl rfl ⟨rfl, rfl⟩), congrArg (· - 1) hinhibit⟩
  | .withoutComments => fun hi =>
    have ⟨hmuted, hinhibit⟩ := hbody { c.touch with inhibitComments := c.touch.inhibitComments + 1 } hi
    ⟨hmuted.around (.of_marks rfl rfl ⟨rfl, rfl⟩) (.of_marks rfl rfl ⟨rfl, rfl⟩), hinhibit⟩

end

theorem muted_logged : Logged (fun op => op.closes = false) MutedIfInhibited where
  nil _ _ := ⟨.of_core rfl, rfl⟩
  append h h' hi :=
    have ⟨hmuted, hinhibit⟩ := h hi
    have ⟨hmuted', hinhibit'⟩ := h' (hinhibit ▸ hi)
    ⟨hmuted.trans hmuted', hinhibit'.trans hinhibit⟩
  leaf c hop hcloses := c.perform_muted hop hcloses
  closed {op} answer c hop _ := by
    cases op with
    | scope s body | block body | attempt body =>
      exact ⟨(Muted.of_core rfl).append_entry (e := ⟨_, answer, c⟩) rfl rfl, rfl⟩
    | _ => cases hop
  scope s c hbody := within_muted hbody c s

/-- Whatever is done where vectors are inhibited, in nested scopes or not, and
whether it fails or not: the items of the pattern, its cycles and the cycles
executed are as before. If the next vector is to be stored afterwards, that was so
before or has been asked for; and the label pending is the last one that was set,
or else the one from before. -/
theorem inhibited_records_nothing (c : Sequencer) {body : List Operation}
    (hbody : ∀ op ∈ body, op.All fun op => op.closes = false) {run : Performance Answer}
    (hrun : (Operation.scope .withoutVectors body).perform c = run) :
    run.after.items = c.items ∧ run.after.cycle = c.cycle ∧ run.after.executed = c.executed ∧
      (run.after.pendingStore = true ↔ c.pendingStore = true ∨ ∃ e ∈ run.log, e.operation = .store 0) ∧
      run.after.pendingLabel = (run.log.filterMap LogEntry.label?).getLast?.or c.pendingLabel := by
  subst hrun
  obtain ⟨hmuted, -⟩ := muted_logged.performBody (fun op hop => muted_logged.perform (hbody op hop))
    { c.touch with inhibitVectors := c.touch.inhibitVectors + 1 } (Nat.succ_pos _)
  have hbody : Muted c (Operation.performBody body _).log ((Operation.scope .withoutVectors body).perform c).after :=
    hmuted.around (.of_marks rfl rfl ⟨rfl, rfl⟩) (.of_marks rfl rfl ⟨rfl, rfl⟩)
  have hscope := hbody.append_entry (e := (Operation.scope .withoutVectors body).entry c) rfl rfl
  refine ⟨?_, ?_, hscope.executed, ?_, hscope.label⟩
  · rw [items, hscope.tape]
    rfl
  · rw [cycle, hscope.tape]
    rfl
  · rw [hscope.store, Bool.or_eq_true, List.any_eq_true]
    simp only [Operation.storesNext_iff]
    rfl

/-- A body with a loop, threads, stores and a comment in nested scopes, which fails
in the end. -/
def mutedBody : List Operation :=
  [.label "first", .scope (.loop "l" 3) [.hold (some 4) none, .store 1, .store 0],
    .attempt [.scope .withoutVectors [.comment "unseen", .define "second"], .setPin "missing" .drive1],
    .threads [⟨"t", [.set "a" .drive1, .cycles 2]⟩], .call "sub", .setPin "missing" .drive1]

def beforeMuted : Sequencer :=
  (Operation.performAll [.setTimeset "tp" (some ⟨40000⟩), .hold (some 3) none, .label "zeroth"]
    (new "muted" twoPins (.standard .j750))).2

theorem mutedBody_records_nothing : ∃ run, (Operation.scope .withoutVectors mutedBody).perform beforeMuted = run ∧
    run.answer.toBool = false ∧ run.after.items = beforeMuted.items ∧ run.after.cycle = 3 ∧
      run.after.pendingStore = true ∧ run.after.pendingLabel = some "second" := by
  have hopen : ∀ op ∈ mutedBody, op.All fun op => op.closes = false := by
    simp only [mutedBody, List.forall_mem_cons, List.not_mem_nil, false_imp_iff, implies_true, and_true]
    refine ⟨.leaf rfl rfl, .scope ?_, .attempt ?_, .leaf rfl rfl, .leaf rfl rfl, .leaf rfl rfl⟩
    all_goals simp only [List.forall_mem_cons, List.not_mem_nil, false_imp_iff, implies_true, and_true]
    · exact ⟨.leaf rfl rfl, .leaf rfl rfl, .leaf rfl rfl⟩
    · refine ⟨.scope ?_, .leaf rfl rfl⟩
      simp only [List.forall_mem_cons, List.not_mem_nil, false_imp_iff, implies_true, and_true]
      exact ⟨.leaf rfl rfl, .leaf rfl rfl⟩
  obtain ⟨hitems, hcycle, -, hstore, hlabel⟩ := inhibited_records_nothing beforeMuted hopen rfl
  refine ⟨_, rfl, by decide +kernel, hitems, hcycle.trans (by decide +kernel), hstore.mpr (.inr ?_),
    hlabel.trans (by decide +kernel)⟩
  have hany : ((Operation.scope .withoutVectors mutedBody).perform beforeMuted).log.any
      (fun e => e.operation.storesNext) = true := by decide +kernel
  obtain ⟨e, he, hstores⟩ := List.any_eq_true.mp hany
  exact ⟨e, he, Operation.storesNext_iff.mp hstores⟩

end Sequencer

end TestProgram
