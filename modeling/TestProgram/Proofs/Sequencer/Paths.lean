import TestProgram.Proofs.Sequencer.Setups
import TestProgram.Proofs.Sequencer.Subroutines
import TestProgram.Proofs.Text.Names

/-!
# Paths

A program takes a sequencer along a `Path`: turns, where scopes begin and end,
and between them the entries of the log. An operation without a body is one
step of it; a scope is the path of its body, with turns in front and behind and
an entry at the end (`within_turns`). Whatever the program and however its
operations are nested, its log is that of a path (`path_performAll`), and the
path can be taken up again at any entry (`Path.split`). A property that every
move keeps holds at every entry (`Path.keep`), hence of all sequencers that
programs lead to (`Reachable.keep`).
-/

namespace TestProgram

/-- The pattern that an entry says is finished. -/
def LogEntry.pattern? (e : LogEntry) : Option Pattern :=
  match e.answer with
  | .ok (.finished p _) => some p
  | _ => none

/-- What a test of all finished patterns in a log says of one of them. -/
theorem LogEntry.of_all_pattern? {log : List LogEntry} {P : Pattern → Bool}
    (h : log.all (fun e => e.pattern?.all P) = true) {e : LogEntry} (he : e ∈ log) {p : Pattern}
    {texts : List (Platform × Except Fault String)} (hanswer : e.answer = .ok (.finished p texts)) : P p = true := by
  have htest := List.all_eq_true.mp h e he
  rwa [pattern?, hanswer] at htest

/-- A test that a finished pattern in a log passes. -/
theorem LogEntry.exists_of_any_pattern? {log : List LogEntry} {P : Pattern → Bool}
    (h : log.any (fun e => e.pattern?.any P) = true) :
    ∃ e ∈ log, ∃ p texts, e.answer = .ok (.finished p texts) ∧ P p = true := by
  obtain ⟨e, he, htest⟩ := List.any_eq_true.mp h
  refine ⟨e, he, ?_⟩
  unfold pattern? at htest
  split at htest
  · rename_i p texts hanswer
    exact ⟨p, texts, hanswer, htest⟩
  · cases htest

namespace Sequencer

/-- What the beginning and the end of a scope may do. -/
def ScopeActs (a : Act) : Prop := a = .masks ∨ a = .item

/-- The beginning or the end of a scope. -/
structure Turns (c c' : Sequencer) : Prop where
  moves : Moves ScopeActs c c'
  names : SameNames c c'
  marks : SameMarks c c'

theorem Turns.refl (c : Sequencer) : Turns c c := ⟨.refl, .refl c, .refl c⟩

theorem Turns.trans {c c' c'' : Sequencer} (h : Turns c c') (h' : Turns c' c'') : Turns c c'' :=
  ⟨h.moves.trans h'.moves, h.names.trans h'.names, h.marks.trans h'.marks⟩

theorem Turns.note {c c' : Sequencer} (hb : AtBench c c.bench c') (hn : SameNames c c') (hm : SameMarks c c') :
    Turns c c' := ⟨.note hb, hn, hm⟩

theorem Turns.touch (c : Sequencer) : Turns c c.touch := .note ⟨rfl, rfl, rfl⟩ c.touch_names ⟨rfl, rfl⟩

/-- The way from one sequencer to another, with the log of what was carried
out. -/
inductive Path : Sequencer → List LogEntry → Sequencer → Prop where
  | done (c : Sequencer) : Path c [] c
  | leaf {c c' : Sequencer} {op : Operation} {log : List LogEntry} (hop : op.isLeaf = true)
      (rest : Path (op.perform c).after log c') :
      Path c (⟨op, (op.perform c).answer, (op.perform c).after⟩ :: log) c'
  /-- A scope begins or ends. -/
  | turn {c c₁ c' : Sequencer} {log : List LogEntry} (h : Turns c c₁) (rest : Path c₁ log c') : Path c log c'
  /-- An operation with a body is over. -/
  | closed {c c' : Sequencer} {op : Operation} {answer : Except Fault Answer} {log : List LogEntry}
      (hop : op.isLeaf = false) (rest : Path c log c') : Path c (⟨op, answer, c⟩ :: log) c'

namespace Path

variable {c c' c'' : Sequencer} {log log' : List LogEntry}

theorem append (h : Path c log c') (h' : Path c' log' c'') : Path c (log ++ log') c'' := by
  induction h with
  | done => exact h'
  | leaf hop _ ih => exact .leaf hop (ih h')
  | turn ht _ ih => exact .turn ht (ih h')
  | closed hop _ ih => exact .closed hop (ih h')

/-- What an entry says of the step from `c` that it is about. -/
def Entry (c : Sequencer) (e : LogEntry) : Prop :=
  (e.operation.isLeaf = true ∧ e.answer = (e.operation.perform c).answer ∧
      e.after = (e.operation.perform c).after) ∨
    e.operation.isLeaf = false ∧ e.after = c

/-- A path up to an entry, the step that the entry is about, and the path from
there on. -/
theorem split (h : Path c log c') : ∀ {past rest : List LogEntry} {e : LogEntry}, log = past ++ e :: rest →
    ∃ c₀, Path c past c₀ ∧ Entry c₀ e ∧ Path e.after rest c' := by
  induction h with
  | done =>
    intro past rest e heq
    exact absurd heq.symm (by simp)
  | @leaf c c' op log hop hrest ih =>
    intro past rest e heq
    cases past with
    | nil =>
      obtain ⟨rfl, rfl⟩ := List.cons.inj heq
      exact ⟨c, .done c, .inl ⟨hop, rfl, rfl⟩, hrest⟩
    | cons f past =>
      obtain ⟨rfl, htail⟩ := List.cons.inj heq
      obtain ⟨c₀, hpast, hstep⟩ := ih htail
      exact ⟨c₀, .leaf hop hpast, hstep⟩
  | turn ht _ ih =>
    intro past rest e heq
    obtain ⟨c₀, hpast, hstep⟩ := ih heq
    exact ⟨c₀, .turn ht hpast, hstep⟩
  | @closed c c' op answer log hop hrest ih =>
    intro past rest e heq
    cases past with
    | nil =>
      obtain ⟨rfl, rfl⟩ := List.cons.inj heq
      exact ⟨c, .done c, .inr ⟨hop, rfl⟩, hrest⟩
    | cons f past =>
      obtain ⟨rfl, htail⟩ := List.cons.inj heq
      obtain ⟨c₀, hpast, hstep⟩ := ih htail
      exact ⟨c₀, .closed hop hpast, hstep⟩

/-- A pattern is finished by the sequencer that the path has led to. -/
theorem exists_of_finish (h : Path c log c') {past rest : List LogEntry} {e : LogEntry} {platforms : List Platform}
    (hlog : log = past ++ e :: rest) (hfinish : e.operation = .finish platforms) :
    ∃ c₀ texts, Path c past c₀ ∧ e.answer = .ok (.finished c₀.pattern texts) ∧ e.after = c₀.finish.2 := by
  obtain ⟨c₀, hpast, hentry, -⟩ := h.split hlog
  rw [Entry, hfinish] at hentry
  rcases hentry with ⟨-, hanswer, hafter⟩ | ⟨hbody, -⟩
  · exact ⟨c₀, _, hpast, hanswer, hafter⟩
  · exact nomatch hbody

/-- The step of an entry as a path. -/
theorem of_entry {e : LogEntry} (h : Entry c e) : Path c [e] e.after := by
  obtain ⟨op, answer, after⟩ := e
  dsimp only [Entry] at h
  rcases h with ⟨hop, rfl, rfl⟩ | ⟨hop, rfl⟩
  · exact .leaf hop (.done _)
  · exact .closed hop (.done _)

/-- What every move keeps holds at the end of a path and at every entry. -/
theorem keep {P : Sequencer → Prop} (hP : ∀ {a c c'}, Move c c' a → P c → P c') (h : Path c log c') :
    P c → (∀ e ∈ log, P e.after) ∧ P c' := by
  have hmoves {A : Act → Prop} {c c' : Sequencer} (h : Moves A c c') : P c → P c' := h.keep fun _ => hP
  induction h with
  | done => exact fun hc => ⟨List.forall_mem_nil _, hc⟩
  | @leaf c c' op log hop _ ih =>
    intro hc
    have hafter := hmoves (op.perform_does c hop) hc
    exact ⟨List.forall_mem_cons.mpr ⟨hafter, (ih hafter).1⟩, (ih hafter).2⟩
  | turn ht _ ih => exact fun hc => ih (hmoves ht.moves hc)
  | closed _ _ ih => exact fun hc => ⟨List.forall_mem_cons.mpr ⟨hc, (ih hc).1⟩, (ih hc).2⟩

/-- The pattern keeps its name. -/
theorem name_eq (h : Path c log c') : c'.name = c.name := by
  induction h with
  | done => rfl
  | leaf hop _ ih => exact ih.trans (Operation.perform_names _ hop).1
  | turn ht _ ih => exact ih.trans ht.names.name
  | closed _ _ ih => exact ih

/-- The subroutines that are called stay in order. -/
theorem ascending (h : Path c log c') : Names.Ascending c.called → Names.Ascending c'.called := by
  induction h with
  | done => exact id
  | leaf hop _ ih =>
    intro hc
    refine ih ?_
    rw [(Operation.perform_names _ hop).2.1]
    unfold Operation.calledAfter
    split
    · exact hc.insert
    · exact List.Pairwise.nil
    · exact hc
  | turn ht _ ih =>
    intro hc
    exact ih (by rwa [ht.names.called])
  | closed _ _ ih => exact ih

end Path

/-! ## Scopes as paths -/

/-- The log of a scope's body, if it ran. -/
def bodyLog {α : Type} : Except Fault (α × List LogEntry) → List LogEntry
  | .ok (_, log) => log
  | .error _ => []

theorem factor_turns (c : Sequencer) (loopFactor : Nat) : Turns c { c with loopFactor } :=
  .note ⟨rfl, rfl, rfl⟩ ⟨rfl, rfl, rfl⟩ ⟨rfl, rfl⟩

/-- The mark at an end of a hardware loop. -/
theorem mark_turns (c : Sequencer) (recording : Bool) {i : Item} (hi : i.isVector = false) :
    Turns c (if recording then c.withTape (c.bench.tape.push i) else c) := by
  split
  · exact ⟨.one (.inr (.inr rfl)) (.item i hi ⟨rfl, rfl, rfl⟩), ⟨rfl, rfl, rfl⟩, ⟨rfl, rfl⟩⟩
  · exact .refl c

/-- A scope fails to open, or its body runs between the beginning and the end
of the scope. -/
theorem within_turns {β : Type} (body : Sequencer → β × Sequencer) (c : Sequencer) : ∀ s : Scope,
    (∃ e c', c.within s body = (.error e, c') ∧ Turns c c') ∨
      ∃ c₁ c', c.within s body = (.ok (body c₁).1, c') ∧ Turns c c₁ ∧ Turns (body c₁).2 c'
  | .timeset name period => by
    have hset : Turns c (c.setTimeset name period).2 :=
      ⟨(c.setTimeset_settles name period).moves (.inl rfl), .of_core (c.setTimeset_core name period),
        .of_core (c.setTimeset_core name period)⟩
    rw [within, withTimeset]
    split
    · rename_i heq
      rw [heq] at hset
      exact .inl ⟨_, _, rfl, hset⟩
    · rename_i c₁ heq
      rw [heq] at hset
      exact .inr ⟨c₁, _, rfl, hset, .note ⟨rfl, rfl, rfl⟩ ⟨rfl, rfl, rfl⟩ ⟨rfl, rfl⟩⟩
  | .loop label count => by
    rw [within, loop]
    dsimp only
    split
    · exact .inl ⟨_, _, rfl, .touch c⟩
    · split
      · exact .inr ⟨c.touch, _, rfl, .touch c, .refl _⟩
      · have hwarn : Turns c
            (if c.touch.clocks.anyRunning then c.touch.warn (.clockAcrossLoop label) else c.touch) := by
          split
          · exact .note ⟨rfl, rfl, rfl⟩ ⟨rfl, rfl, rfl⟩ ⟨rfl, rfl⟩
          · exact .touch c
        exact .inr ⟨_, _, rfl, (hwarn.trans (mark_turns _ _ rfl)).trans (factor_turns _ _),
          (factor_turns _ _).trans (mark_turns _ _ rfl)⟩
  | .ignoreFails pins => by
    rw [within, ignoreFails]
    dsimp only
    split
    · exact .inl ⟨_, _, rfl, .touch c⟩
    · rename_i ids _
      refine .inr ⟨_, _, rfl, ⟨?_, ⟨rfl, rfl, rfl⟩, ⟨rfl, rfl⟩⟩, ⟨?_, ⟨rfl, rfl, rfl⟩, ⟨rfl, rfl⟩⟩⟩
      · exact (Turns.touch c).moves.trans (.one (.inr (.inl rfl)) (.mask ids ⟨rfl, rfl, rfl⟩))
      · exact .one (.inr (.inl rfl)) (.unmask ids ⟨rfl, rfl, rfl⟩)
  | .withoutVectors | .withoutComments =>
    .inr ⟨_, _, rfl, .note ⟨rfl, rfl, rfl⟩ ⟨rfl, rfl, rfl⟩ ⟨rfl, rfl⟩, .note ⟨rfl, rfl, rfl⟩ ⟨rfl, rfl, rfl⟩ ⟨rfl, rfl⟩⟩

/-- A scope is on the path of its body. -/
theorem path_within {body : Sequencer → (Except Fault Unit × List LogEntry) × Sequencer}
    (hbody : ∀ c, Path c (body c).1.2 (body c).2) (s : Scope) (c : Sequencer) :
    Path c (bodyLog (c.within s body).1) (c.within s body).2 := by
  rcases within_turns body c s with ⟨e, c', heq, hturns⟩ | ⟨c₁, c', heq, hopen, hclose⟩
  · rw [heq]
    exact .turn hturns (.done c')
  · rw [heq]
    have hrun := (hbody c₁).append (.turn hclose (.done c'))
    rw [List.append_nil] at hrun
    exact .turn hopen hrun

theorem path_closed {c : Sequencer} {op : Operation} (hop : op.isLeaf = false)
    {p : Except Fault (Except Fault Unit × List LogEntry) × Sequencer} (hp : Path c (bodyLog p.1) p.2) :
    Path c (Performance.closed op p).log (Performance.closed op p).after := by
  obtain ⟨(e | ⟨r, log⟩), c'⟩ := p
  · exact hp.append (.closed hop (.done c'))
  · exact hp.append (.closed hop (.done c'))

end Sequencer

/-! ## Programs as paths -/

namespace Operation

open Sequencer

theorem log_of_leaf (c : Sequencer) : ∀ {op : Operation}, op.isLeaf = true →
    (op.perform c).log = [⟨op, (op.perform c).answer, (op.perform c).after⟩]
  | .setPin _ _, _ | .pinState _, _ | .setTimeset _ _, _ | .addWave _ _ _ _, _ | .enableClock _ _, _
  | .startClock _, _ | .stopClock _, _ | .pauseClock _, _ | .resumeClock _ _, _ | .hold _ _, _ | .delay _, _
  | .wait _, _ | .store _, _ | .label _, _ | .comment _, _ | .call _, _ | .define _, _ | .imported, _
  | .items, _ | .setGroup _, _ | .threads _, _ | .finish _, _ => rfl

theorem path_of_leaf (c : Sequencer) {op : Operation} (hop : op.isLeaf = true) :
    Path c (op.perform c).log (op.perform c).after := by
  rw [log_of_leaf c hop]
  exact .leaf hop (.done _)

mutual

theorem path_perform : ∀ (op : Operation) (c : Sequencer), Path c (op.perform c).log (op.perform c).after
  | .scope s body, c => path_closed rfl
      (@path_within (fun c => (performBody body c).inner) (path_performBody body) s c)
  | .block body, c => path_closed (p := (.ok (_, _), _)) rfl (path_performBody body c)
  | .attempt body, c => path_closed (p := (.ok (_, _), _)) rfl (path_performBody body c)
  | .setPin _ _, c | .pinState _, c | .setTimeset _ _, c | .addWave _ _ _ _, c | .enableClock _ _, c
  | .startClock _, c | .stopClock _, c | .pauseClock _, c | .resumeClock _ _, c | .hold _ _, c | .delay _, c
  | .wait _, c | .store _, c | .label _, c | .comment _, c | .call _, c | .define _, c | .imported, c
  | .items, c | .setGroup _, c | .threads _, c | .finish _, c => path_of_leaf c rfl

theorem path_performBody : ∀ (ops : List Operation) (c : Sequencer),
    Path c (performBody ops c).log (performBody ops c).after
  | [], c => .done c
  | op :: ops, c => by
    have hfirst := path_perform op c
    rw [performBody]
    dsimp only
    split
    · exact hfirst
    · exact hfirst.append (path_performBody ops _)

end

theorem path_performAll : ∀ (ops : List Operation) (c : Sequencer), Path c (performAll ops c).1 (performAll ops c).2
  | [], c => .done c
  | op :: ops, c => (op.path_perform c).append (path_performAll ops _)

/-- The last entry of an operation's log is about the operation itself. -/
theorem exists_after_perform (c : Sequencer) : ∀ op : Operation,
    ∃ e ∈ (op.perform c).log, e.after = (op.perform c).after
  | .scope s body => by
    rw [perform]
    obtain ⟨r | r, c'⟩ := c.within s fun c => (performBody body c).inner
    · exact ⟨_, List.mem_append_right _ List.mem_cons_self, rfl⟩
    · exact ⟨_, List.mem_append_right _ List.mem_cons_self, rfl⟩
  | .block _ | .attempt _ => ⟨_, List.mem_append_right _ List.mem_cons_self, rfl⟩
  | .setPin _ _ | .pinState _ | .setTimeset _ _ | .addWave _ _ _ _ | .enableClock _ _ | .startClock _
  | .stopClock _ | .pauseClock _ | .resumeClock _ _ | .hold _ _ | .delay _ | .wait _ | .store _ | .label _
  | .comment _ | .call _ | .define _ | .imported | .items | .setGroup _ | .threads _ | .finish _ =>
    ⟨_, List.mem_cons_self, rfl⟩

theorem exists_after_performAll : ∀ (ops : List Operation) (c : Sequencer),
    (performAll ops c).2 = c ∨ ∃ e ∈ (performAll ops c).1, e.after = (performAll ops c).2
  | [], _ => .inl rfl
  | op :: ops, c => by
    right
    rcases exists_after_performAll ops (op.perform c).after with h | ⟨e, he, h⟩
    · obtain ⟨e, he, hafter⟩ := op.exists_after_perform c
      exact ⟨e, List.mem_append_left _ he, hafter.trans h.symm⟩
    · exact ⟨e, List.mem_append_right _ he, h⟩

end Operation

namespace Sequencer

/-- The states that programs lead a sequencer for a new pattern to, between
any two of their steps, inside scopes too. -/
def Reachable (name : String) (pins : Pinout) (config : Config) (c : Sequencer) : Prop :=
  c = new name pins config ∨
    ∃ ops, ∃ e ∈ (Operation.performAll ops (new name pins config)).1, e.after = c

theorem Reachable.performAll {name : String} {pins : Pinout} {config : Config} (ops : List Operation) :
    Reachable name pins config (Operation.performAll ops (new name pins config)).2 :=
  (Operation.exists_after_performAll ops _).imp_right fun h => ⟨ops, h⟩

/-- What holds at the start and is kept by every move holds in all reachable
states. -/
theorem Reachable.keep {name : String} {pins : Pinout} {config : Config} {c : Sequencer} {P : Sequencer → Prop}
    (hP : ∀ {a c c'}, Move c c' a → P c → P c') (hnew : P (new name pins config))
    (h : Reachable name pins config c) : P c := by
  rcases h with rfl | ⟨ops, e, he, rfl⟩
  · exact hnew
  · exact ((Operation.path_performAll ops _).keep hP hnew).1 e he

end Sequencer

end TestProgram
