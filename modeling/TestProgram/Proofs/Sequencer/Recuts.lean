import Mathlib.Data.List.Forall2
import TestProgram.Proofs.Pattern.Singles
import TestProgram.Proofs.Sequencer.Twins

/-!
# Programs under other ceilings

The ceiling of a tape decides where vectors are cut into records, and nothing else that
a program could find out: two sequencers that differ in their ceilings only (`Recut`)
are twins. They emit side by side, as long as both ceilings have room for the vector
groups in force (`recut_emit`), and so do all operations but stores that mark a vector
that has been recorded, for these count records. Of a whole program that has no such
store it follows that it does the same under both ceilings, step by step
(`performAll_ceiling`).
-/

namespace TestProgram

/-- The pattern with all vectors spread out. -/
def Pattern.spread (p : Pattern) : Pattern := { p with items := spreadItems p.items }

/-- An answer with all vectors spread out. What platforms write of a pattern is left
out. -/
def Answer.spread : Answer → Answer
  | .items recorded => .items (spreadItems recorded)
  | .finished p _ => .finished p.spread []
  | a => a

/-- All but stores that mark a vector that has been recorded. -/
def Operation.StoresAhead : Operation → Prop
  | .store offset => offset = 0
  | _ => True

namespace Sequencer

/-- The sequencer with all vectors spread out, and without a ceiling of its own. -/
def spread (c : Sequencer) : Sequencer :=
  { c with
    config := { c.config with maxRepeat := none }
    bench := c.bench.spread }

/-- Both have recorded the same, under the ceilings `k'` and `k`. -/
structure Recut (k' k : Option Nat) (c' c : Sequencer) : Prop where
  spread : c'.spread = c.spread
  ceiling' : c'.config.ceiling = k' ∧ c'.bench.tape.ceiling = k'
  ceiling : c.config.ceiling = k ∧ c.bench.tape.ceiling = k

/-- Both ceilings have room for the vector groups in force. -/
def Fits (k' k : Option Nat) (c' c : Sequencer) : Prop :=
  Recut k' k c' c ∧ 0 < c.group ∧ HasRoom k' c.group ∧ HasRoom k c.group

section

variable {k' k : Option Nat} {c' c : Sequencer}

theorem Recut.taped (h : Recut k' k c' c) {t' t : Tape} (ht : t'.spread = t.spread) (hk' : t'.ceiling = k')
    (hk : t.ceiling = k) : Recut k' k (c'.withTape t') (c.withTape t) where
  spread := by
    have hspread (c : Sequencer) (t : Tape) : (c.withTape t).spread = c.spread.withTape t.spread := rfl
    rw [hspread, hspread, h.spread, ht]
  ceiling' := ⟨h.ceiling'.1, hk'⟩
  ceiling := ⟨h.ceiling.1, hk⟩

theorem Recut.pushed (h : Recut k' k c' c) (i : Item) :
    Recut k' k (c'.withTape (c'.bench.tape.push i)) (c.withTape (c.bench.tape.push i)) :=
  h.taped (Tape.spread_push (congrArg (·.bench.tape) h.spread) i) h.ceiling'.2 h.ceiling.2

theorem loopTwins_recut (k' k : Option Nat) : LoopTwins (Recut k' k) where
  timing h := congrArg (·.timing) h.spread
  rounding h := congrArg (·.config.rounding) h.spread
  clocks h := congrArg (·.clocks) h.spread
  cycle h := congrArg (·.cycle) h.spread
  group h := congrArg (·.group) h.spread
  id h pin := congrArg (·.pins.id pin) h.spread
  pinName h i := congrArg (·.pins.name i) h.spread
  state h i := congrArg (·.pins.state i) h.spread
  touched h := ⟨congrArg touch h.spread, h.ceiling', h.ceiling⟩
  warned h w := ⟨congrArg (·.warn w) h.spread, h.ceiling', h.ceiling⟩
  timed h timing := ⟨congrArg (fun c => { c with timing }) h.spread, h.ceiling', h.ceiling⟩
  clocked h clocks := ⟨congrArg (·.withClocks clocks) h.spread, h.ceiling', h.ceiling⟩
  pinned h i s := ⟨congrArg (fun c => c.withPins (c.pins.set i s)) h.spread, h.ceiling', h.ceiling⟩
  inhibitVectors h := congrArg (·.inhibitVectors) h.spread
  loopFactor h := congrArg (·.loopFactor) h.spread
  inhibited h inhibitVectors := ⟨congrArg (fun c => { c with inhibitVectors }) h.spread, h.ceiling', h.ceiling⟩
  repeated h loopFactor := ⟨congrArg (fun c => { c with loopFactor }) h.spread, h.ceiling', h.ceiling⟩
  started h label count := h.pushed (.loopStart label count)
  ended h label := h.pushed (.loopEnd label)

theorem loopTwins_fits (k' k : Option Nat) : LoopTwins (Fits k' k) :=
  (loopTwins_recut k' k).provided fun _ group => 0 < group ∧ HasRoom k' group ∧ HasRoom k group

theorem Fits.used (h : Fits k' k c' c) (timeset : String) : Fits k' k (c'.use timeset) (c.use timeset) := by
  have hused : c'.usedTimesets = c.usedTimesets := congrArg (·.usedTimesets) h.1.spread
  unfold use
  rw [hused]
  split
  · exact h
  · exact ⟨⟨congrArg (fun c₁ => { c₁ with usedTimesets := c.usedTimesets ++ [timeset] }) h.1.spread, h.1.ceiling',
      h.1.ceiling⟩, h.2⟩

/-- A run that is recorded in both, or in none. -/
theorem Fits.held (h : Fits k' k c' c) (t : Timeset) (count : Nat) (call : Option String) :
    Alike (Fits k' k) (do
        let bench ← c'.bench.hold t count ⟨c'.pendingStore, c'.pendingLabel, call, c'.group⟩
        pure { c' with
          bench
          pendingStore := false
          pendingLabel := none
          executed := Word.add c'.executed (Word.mul count c'.loopFactor) })
      (do
        let bench ← c.bench.hold t count ⟨c.pendingStore, c.pendingLabel, call, c.group⟩
        pure { c with
          bench
          pendingStore := false
          pendingLabel := none
          executed := Word.add c.executed (Word.mul count c.loopFactor) }) := by
  obtain ⟨hrecut, hfits⟩ := h
  have hgroup := hfits.1
  have hroom' := hfits.2.1
  have hroom := hfits.2.2
  have hmarks : (⟨c'.pendingStore, c'.pendingLabel, call, c'.group⟩ : Marks) =
      ⟨c.pendingStore, c.pendingLabel, call, c.group⟩ :=
    congrArg (fun c => (⟨c.pendingStore, c.pendingLabel, call, c.group⟩ : Marks)) hrecut.spread
  have hunit : (⟨c.pendingStore, c.pendingLabel, call, c.group⟩ : Marks).unit = c.group := Nat.max_eq_left hgroup
  rw [hmarks]
  generalize (⟨c.pendingStore, c.pendingLabel, call, c.group⟩ : Marks) = m at hunit
  rw [← hunit] at hroom hroom'
  rw [← hrecut.ceiling'.2] at hroom'
  rw [← hrecut.ceiling.2] at hroom
  have hhold := Bench.hold_spread (congrArg (·.bench) hrecut.spread) t count hroom' hroom
  have hceiling {b b' : Bench} {t : Timeset} (hb : b.hold t count m = .ok b') : b'.tape.ceiling = b.tape.ceiling := by
    rw [(Bench.hold_eq_ok hb).2.2, Tape.append]
  refine .next (.of_map_eq hhold) fun {b' b} hboth => ?_
  obtain ⟨hb', hb, hbench⟩ := hboth
  refine .ok ⟨⟨?_, ?_, ?_⟩, hfits⟩
  · have hspread (c : Sequencer) (b : Bench) : Sequencer.spread { c with
          bench := b
          pendingStore := false
          pendingLabel := none
          executed := Word.add c.executed (Word.mul count c.loopFactor) } = { c.spread with
        bench := b.spread
        pendingStore := false
        pendingLabel := none
        executed := Word.add c.spread.executed (Word.mul count c.spread.loopFactor) } := rfl
    exact (hspread c' b').trans (hrecut.spread ▸ hbench ▸ hspread c b).symm
  · exact ⟨hrecut.ceiling'.1, (hceiling hb').trans hrecut.ceiling'.2⟩
  · exact ⟨hrecut.ceiling.1, (hceiling hb).trans hrecut.ceiling.2⟩

/-- Vectors are emitted side by side. -/
theorem fits_emit (h : Fits k' k c' c) (count : Nat) (timeset call : Option String) :
    Abreast (Fits k' k) (c'.emit count timeset call) (c.emit count timeset call) := by
  have ht := (loopTwins_fits k' k).touched h
  have hresolve : c'.touch.timing.resolve timeset "cycle" = c.touch.timing.resolve timeset "cycle" :=
    congrArg (Timing.resolve · timeset "cycle") ((loopTwins_fits k' k).timing ht)
  unfold emit
  dsimp only
  rw [hresolve, (loopTwins_fits k' k).inhibitVectors ht]
  split
  · exact ⟨rfl, ht⟩
  · rename_i t _
    split
    · exact ⟨rfl, ht⟩
    · have hused := ht.used t.name
      exact .settle hused <| hused.held t count call

/-! ## Scopes -/

/-- A scope begins in both, or in none. -/
theorem fits_opened (h : Fits k' k c' c) (s : Scope) : Alike (Fits k' k) (c'.opened s) (c.opened s) := by
  have ht := (loopTwins_fits k' k).touched h
  cases s with
  | ignoreFails names =>
    have hids : c'.touch.pins.ids names = c.touch.pins.ids names := congrArg (·.pins.ids names) ht.1.spread
    simp only [opened, within, ignoreFails]
    rw [hids]
    split
    · exact .error _
    · rename_i ids _
      exact .ok ⟨⟨congrArg (fun c => c.withPins (ids.foldl Pinout.mask c.pins)) ht.1.spread, ht.1.ceiling',
        ht.1.ceiling⟩, ht.2⟩
  | withoutComments =>
    exact .ok ⟨⟨congrArg (fun c => { c with inhibitComments := c.inhibitComments + 1 }) ht.1.spread, ht.1.ceiling',
      ht.1.ceiling⟩, ht.2⟩
  | timeset _ _ | loop _ _ | withoutVectors => exact (loopTwins_fits k' k).opened h rfl

/-- It ends in both. -/
theorem fits_closing (h : Fits k' k c' c) {c₁' c₁ : Sequencer} (h₁ : Fits k' k c₁' c₁) (s : Scope) :
    Fits k' k (c'.closing s c₁') (c.closing s c₁) := by
  cases s with
  | ignoreFails names =>
    have hids : names.filterMap c'.pins.id? = names.filterMap c.pins.id? :=
      congrArg (fun c => names.filterMap c.pins.id?) h.1.spread
    simp only [closing, hids]
    exact ⟨⟨congrArg (fun c₁ => c₁.withPins ((names.filterMap c.pins.id?).foldl Pinout.unmask c₁.pins)) h₁.1.spread,
      h₁.1.ceiling', h₁.1.ceiling⟩, h₁.2⟩
  | withoutComments =>
    exact ⟨⟨congrArg (fun c => { c with inhibitComments := c.inhibitComments - 1 }) h₁.1.spread, h₁.1.ceiling',
      h₁.1.ceiling⟩, h₁.2⟩
  | timeset _ _ | loop _ _ | withoutVectors => exact (loopTwins_fits k' k).closing h (loopTwins_fits k' k) h₁ rfl

/-! ## All steps -/

theorem Recut.items (h : Recut k' k c' c) : spreadItems c'.items = spreadItems c.items :=
  (Tape.spread_inj.mp (congrArg (·.bench.tape) h.spread)).2

theorem recut_plain (op : Operation) {R : Sequencer → Sequencer → Prop} (hR : ∀ {c' c}, R c' c → Recut k' k c' c)
    {r' r : Except Fault Unit × Sequencer} (h : Abreast R r' r) :
    (Performance.plain op r').answer.map Answer.spread = (Performance.plain op r).answer.map Answer.spread ∧
      Recut k' k (Performance.plain op r').after (Performance.plain op r).after := by
  obtain ⟨hanswer, hafter⟩ := h
  refine ⟨?_, hR hafter⟩
  rw [Performance.plain, hanswer]
  rfl

theorem Recut.commented (h : Recut k' k c' c) (text : String) : Recut k' k (c'.comment text) (c.comment text) := by
  have ht := (loopTwins_recut k' k).touched h
  have hvectors : c'.touch.inhibitVectors = c.touch.inhibitVectors := congrArg (·.inhibitVectors) ht.spread
  have hcomments : c'.touch.inhibitComments = c.touch.inhibitComments := congrArg (·.inhibitComments) ht.spread
  unfold comment
  dsimp only
  rw [hvectors, hcomments]
  split
  · exact ht.pushed (.comment text)
  · exact ht

theorem Recut.pattern (h : Recut k' k c' c) : c'.pattern.spread = c.pattern.spread := by
  have hpattern (c : Sequencer) : c.pattern.spread = { c.spread.pattern with items := spreadItems c.items } := rfl
  rw [hpattern, hpattern, h.spread, h.items]

theorem Recut.finished (h : Recut k' k c' c) : Recut k' k c'.finish.2 c.finish.2 := by
  have hspread (c : Sequencer) : c.finish.2.spread = c.spread.finish.2.spread := rfl
  refine ⟨?_, ⟨h.ceiling'.1, h.ceiling'.1⟩, h.ceiling.1, h.ceiling.1⟩
  rw [hspread c', hspread c, h.spread]

/-- A step does the same in both. -/
theorem fits_leaf (h : Fits k' k c' c) {op : Operation} (hop : op.isLeaf = true) (hahead : op.StoresAhead) :
    (op.perform c').answer.map Answer.spread = (op.perform c).answer.map Answer.spread ∧
      Recut k' k (op.perform c').after (op.perform c).after := by
  have htwins := (loopTwins_fits k' k).toTwins
  have hrecut := h.1
  cases op with
  | setPin pin s => exact recut_plain _ And.left (htwins.setPin h pin s)
  | pinState pin =>
    refine ⟨?_, hrecut⟩
    rw [Operation.perform, htwins.pinState h, Operation.perform]
    rfl
  | setTimeset name period => exact recut_plain _ And.left (htwins.setTimeset h name period)
  | addWave timeset pin drive compare => exact recut_plain _ And.left (htwins.addWave h timeset pin drive compare)
  | enableClock pin f => exact recut_plain _ And.left (htwins.enableClock h pin f)
  | startClock pin => exact recut_plain _ And.left (htwins.startClock h pin)
  | stopClock pin => exact recut_plain _ And.left (htwins.stopClock h pin)
  | pauseClock pin => exact recut_plain _ And.left (htwins.pauseClock h pin)
  | resumeClock pin f => exact recut_plain _ And.left (htwins.resumeClock h pin f)
  | hold count timeset => exact recut_plain _ And.left (htwins.hold h fits_emit count timeset)
  | delay count => exact recut_plain _ And.left (htwins.delay h fits_emit count)
  | wait d => exact recut_plain _ And.left (htwins.wait h fits_emit d)
  | store offset =>
    obtain rfl : offset = 0 := hahead
    exact ⟨rfl, congrArg (fun c => { c.touch with pendingStore := true }) hrecut.spread, hrecut.ceiling', hrecut.ceiling⟩
  | label name =>
    exact ⟨rfl, congrArg (·.label name) hrecut.spread, hrecut.ceiling', hrecut.ceiling⟩
  | comment text => exact ⟨rfl, hrecut.commented text⟩
  | call name =>
    have hcalled : Fits k' k { c' with called := Names.insert name c'.called }
        { c with called := Names.insert name c.called } :=
      ⟨⟨congrArg (fun c => { c with called := Names.insert name c.called }) hrecut.spread, hrecut.ceiling',
        hrecut.ceiling⟩, h.2⟩
    exact recut_plain _ And.left (fits_emit hcalled 1 none (some name))
  | define name =>
    exact ⟨rfl, congrArg (·.define name) hrecut.spread, hrecut.ceiling', hrecut.ceiling⟩
  | imported =>
    have himported : c'.imported = c.imported := congrArg (·.imported) hrecut.spread
    refine ⟨?_, hrecut⟩
    rw [Operation.perform, himported]
    rfl
  | items => exact ⟨congrArg (fun items => Except.ok (Answer.items items)) hrecut.items, hrecut⟩
  | setGroup group =>
    have hgroup := (loopTwins_recut k' k).setGroup hrecut group fun _ =>
      ⟨congrArg (fun c => { c.touch with group }) hrecut.spread, hrecut.ceiling', hrecut.ceiling⟩
    exact recut_plain _ id hgroup
  | threads ts => exact recut_plain _ And.left (htwins.runThreads h fits_emit ts)
  | finish platforms =>
    exact ⟨congrArg (fun p => Except.ok (Answer.finished p [])) hrecut.pattern, hrecut.finished⟩
  | scope _ _ | block _ | attempt _ => cases hop

end

/-! ## Whole programs -/

/-- Both have done the same work, but for where vectors are cut into records. -/
structure SameWork (c' c : Sequencer) : Prop where
  cycle : c'.cycle = c.cycle
  executed : c'.executed = c.executed
  pins : c'.pins = c.pins
  clocks : c'.clocks = c.clocks
  warnings : c'.warnings = c.warnings
  items : spreadItems c'.items = spreadItems c.items

theorem Recut.sameWork {k' k : Option Nat} {c' c : Sequencer} (h : Recut k' k c' c) : SameWork c' c where
  cycle := congrArg (·.cycle) h.spread
  executed := congrArg (·.executed) h.spread
  pins := congrArg (·.pins) h.spread
  clocks := congrArg (·.clocks) h.spread
  warnings := congrArg (·.warnings) h.spread
  items := h.items

end Sequencer

/-- The same step, after which the same has been done. -/
structure SameStep (e' e : LogEntry) : Prop where
  operation : e'.operation = e.operation
  answer : e'.answer.map Answer.spread = e.answer.map Answer.spread
  work : Sequencer.SameWork e'.after e.after

namespace Operation

open Sequencer

/-- After the step both ceilings have room for the vector groups in force. -/
def Roomy (k' k : Option Nat) (e : LogEntry) : Prop := HasRoom k' e.after.group ∧ HasRoom k e.after.group

/-- Two performances of the same steps. -/
structure SameCourse {α : Type} (spread : α → α) (k' k : Option Nat) (p' p : Performance α) : Prop where
  answer : p'.answer.map spread = p.answer.map spread
  log : List.Forall₂ SameStep p'.log p.log
  after : Fits k' k p'.after p.after

variable {k' k : Option Nat} {c' c : Sequencer}

theorem sameCourse_leaf (h : Fits k' k c' c) {op : Operation} (hop : op.isLeaf = true) (hahead : op.StoresAhead)
    (hroom : ∀ e ∈ (op.perform c).log, Roomy k' k e) :
    SameCourse Answer.spread k' k (op.perform c') (op.perform c) := by
  obtain ⟨hanswer, hafter⟩ := fits_leaf h hop hahead
  have hpos : 0 < (op.perform c).after.group :=
    (op.perform_does c hop).keep (P := fun c => 0 < c.group) (fun _ hm => hm.group_pos) h.2.1
  rw [log_of_leaf c hop, List.forall_mem_singleton] at hroom
  refine ⟨hanswer, ?_, hafter, hpos, hroom⟩
  rw [log_of_leaf c' hop, log_of_leaf c hop]
  exact .cons ⟨rfl, hanswer, hafter.sameWork⟩ .nil

theorem SameCourse.answer_eq {p' p : Performance Unit} (h : SameCourse id k' k p' p) : p'.answer = p.answer := by
  have hanswer := h.answer
  rwa [Except.map_id] at hanswer

/-- The entry of an operation with a body. -/
theorem SameCourse.closed {op : Operation} {r : Except Fault Unit} {log' log : List LogEntry}
    (hlog : List.Forall₂ SameStep log' log) (h : Fits k' k c' c) : SameCourse Answer.spread k' k
      (Performance.closed op (.ok (r, log'), c')) (Performance.closed op (.ok (r, log), c)) :=
  ⟨rfl, List.rel_append hlog (.cons ⟨rfl, rfl, h.1.sameWork⟩ .nil), h⟩

theorem sameCourse_performBody : ∀ {ops : List Operation},
    (∀ op ∈ ops, ∀ {c' c : Sequencer}, Fits k' k c' c → (∀ e ∈ (op.perform c).log, Roomy k' k e) →
      SameCourse Answer.spread k' k (op.perform c') (op.perform c)) →
    ∀ {c' c : Sequencer}, Fits k' k c' c → (∀ e ∈ (performBody ops c).log, Roomy k' k e) →
      SameCourse id k' k (performBody ops c') (performBody ops c)
  | [], _, _, _, h, _ => ⟨rfl, .nil, h⟩
  | op :: ops, hops, c', c, h, hroom => by
    obtain ⟨hop, hops⟩ := List.forall_mem_cons.mp hops
    rw [performBody] at hroom ⊢
    have hfirst : SameCourse Answer.spread k' k (op.perform c') (op.perform c) := by
      refine hop h fun e he => hroom e ?_
      dsimp only
      split
      · exact he
      · exact List.mem_append_left _ he
    rw [performBody]
    dsimp only at hroom ⊢
    rcases (Alike.of_map_eq hfirst.answer).ends with ⟨e, he', he⟩ | ⟨a', a, ha', ha, -⟩
    · rw [he', he]
      exact ⟨rfl, hfirst.log, hfirst.after⟩
    · rw [ha] at hroom
      have hrest := sameCourse_performBody hops hfirst.after fun e he => hroom e (List.mem_append_right _ he)
      rw [ha', ha]
      exact ⟨hrest.answer, List.rel_append hfirst.log hrest.log, hrest.after⟩

theorem sameCourse_perform {op : Operation} (hop : op.All StoresAhead) : ∀ {c' c : Sequencer}, Fits k' k c' c →
    (∀ e ∈ (op.perform c).log, Roomy k' k e) → SameCourse Answer.spread k' k (op.perform c') (op.perform c) := by
  induction hop with
  | leaf hop hahead => exact fun h hroom => sameCourse_leaf h hop hahead hroom
  | @scope s body _ ih =>
    intro c' c h hroom
    rcases (fits_opened h s).ends with ⟨e, hopen', hopen⟩ | ⟨c₁', c₁, hopen', hopen, h₁⟩
    · have ht := (loopTwins_fits k' k).touched h
      rw [perform_of_not_opened hopen, perform_of_not_opened hopen']
      exact ⟨rfl, .cons ⟨rfl, rfl, ht.1.sameWork⟩ .nil, ht⟩
    · rw [perform_of_opened hopen] at hroom
      have hbody := sameCourse_performBody ih h₁ fun e he => hroom e (List.mem_append_left _ he)
      rw [perform_of_opened hopen, perform_of_opened hopen', hbody.answer_eq]
      exact .closed hbody.log (fits_closing h hbody.after s)
  | @block body _ ih =>
    intro c' c h hroom
    have hbody := sameCourse_performBody ih h fun e he => hroom e (List.mem_append_left _ he)
    rw [perform, perform, hbody.answer_eq]
    exact .closed hbody.log hbody.after
  | attempt _ ih =>
    intro c' c h hroom
    have hbody := sameCourse_performBody ih h fun e he => hroom e (List.mem_append_left _ he)
    exact .closed hbody.log hbody.after

theorem sameCourse_performAll : ∀ {ops : List Operation}, (∀ op ∈ ops, op.All StoresAhead) →
    ∀ {c' c : Sequencer}, Fits k' k c' c → (∀ e ∈ (performAll ops c).1, Roomy k' k e) →
      List.Forall₂ SameStep (performAll ops c').1 (performAll ops c).1 ∧
        Fits k' k (performAll ops c').2 (performAll ops c).2
  | [], _, _, _, h, _ => ⟨.nil, h⟩
  | op :: ops, hops, c', c, h, hroom => by
    obtain ⟨hop, hops⟩ := List.forall_mem_cons.mp hops
    have hfirst := sameCourse_perform hop h fun e he => hroom e (List.mem_append_left _ he)
    obtain ⟨hlog, hafter⟩ :=
      sameCourse_performAll hops hfirst.after fun e he => hroom e (List.mem_append_right _ he)
    exact ⟨List.rel_append hfirst.log hlog, hafter⟩

/-- The sizes of vector groups that are in force in a program that begins in `c`. -/
def groupsInForce (ops : List Operation) (c : Sequencer) : List Nat :=
  c.group :: (performAll ops c).1.map fun e => e.after.group

/-- A program without stores that mark a vector that has been recorded does not depend
on the ceiling, as long as there is none or it has room for all vector groups in force.
Under any two such ceilings each step answers the same, with the same fault or with
success, and has done the same work: the cycles written and executed, the pins, the
clocks and the warnings are the same, and so are the items when their vectors are spread
out into single cycles. -/
theorem performAll_ceiling {name : String} {pins : Pinout} {config : Config} {k' k : Option Nat}
    {ops : List Operation} (hahead : ∀ op ∈ ops, op.All StoresAhead)
    (hroom : ∀ group ∈ groupsInForce ops (new name pins { config with maxRepeat := k }),
      HasRoom { config with maxRepeat := k' }.ceiling group ∧ HasRoom { config with maxRepeat := k }.ceiling group) :
    List.Forall₂ SameStep (performAll ops (new name pins { config with maxRepeat := k' })).1
        (performAll ops (new name pins { config with maxRepeat := k })).1 ∧
      SameWork (performAll ops (new name pins { config with maxRepeat := k' })).2
        (performAll ops (new name pins { config with maxRepeat := k })).2 := by
  obtain ⟨hfirst, hrest⟩ := List.forall_mem_cons.mp hroom
  have hpos : 0 < max config.group 1 := Nat.lt_of_lt_of_le Nat.one_pos (Nat.le_max_right _ _)
  have hbegin : Fits { config with maxRepeat := k' }.ceiling { config with maxRepeat := k }.ceiling
      (new name pins { config with maxRepeat := k' }) (new name pins { config with maxRepeat := k }) :=
    ⟨⟨rfl, ⟨rfl, rfl⟩, rfl, rfl⟩, hpos, hfirst⟩
  obtain ⟨hlog, hafter⟩ := sameCourse_performAll hahead hbegin fun e he => hrest _ (List.mem_map_of_mem he)
  exact ⟨hlog, hafter.1.sameWork⟩

/-- A program with a subroutine, vector groups of two, a clock, a loop in which an
operation fails, and a store. -/
def portableProgram : List Operation :=
  [.setTimeset "tp" (some ⟨40000⟩), .call "sub", .setGroup 2, .enableClock "b" (.ofMegahertz 2), .startClock "b",
    .store 0, .label "first", .hold (some 10) none, .comment "loop",
    .scope (.loop "l" 3) [.attempt [.hold (some 5) none, .setPin "missing" .drive1]], .delay 4, .finish []]

/-- The log of the program under a ceiling. -/
def portableLog (k : Nat) : List LogEntry :=
  (performAll portableProgram (new "portable" twoPins { Config.standard .v93k with maxRepeat := some k })).1

theorem portableProgram_ceiling : (∀ op ∈ portableProgram, op.All StoresAhead) ∧
    (∀ group ∈ groupsInForce portableProgram
        (new "portable" twoPins { Config.standard .v93k with maxRepeat := some 5 }), HasRoom (some 2) group ∧
      HasRoom (some 5) group) ∧
    List.Forall₂ SameStep (portableLog 2) (portableLog 5) ∧
    (portableLog 2).filterMap (fun e => e.pattern?.map fun p => p.vectors.map VectorRecord.count) =
      [[1, 2, 2, 2, 2, 2, 2, 2, 2, 2, 2]] ∧
    (portableLog 5).filterMap (fun e => e.pattern?.map fun p => p.vectors.map VectorRecord.count) =
      [[1, 2, 4, 4, 2, 4, 2, 2]] := by
  have hahead : ∀ op ∈ portableProgram, op.All StoresAhead := by
    simp only [portableProgram, List.forall_mem_cons, List.not_mem_nil, false_imp_iff, implies_true, and_true]
    refine ⟨.leaf rfl trivial, .leaf rfl trivial, .leaf rfl trivial, .leaf rfl trivial, .leaf rfl trivial, .leaf rfl rfl,
      .leaf rfl trivial, .leaf rfl trivial, .leaf rfl trivial, .scope ?_, .leaf rfl trivial, .leaf rfl trivial⟩
    exact List.forall_mem_singleton.mpr (.attempt (List.forall_mem_cons.mpr
      ⟨.leaf rfl trivial, List.forall_mem_singleton.mpr (.leaf rfl trivial)⟩))
  have hroom : ∀ group ∈ groupsInForce portableProgram
      (new "portable" twoPins { Config.standard .v93k with maxRepeat := some 5 }), HasRoom (some 2) group ∧
      HasRoom (some 5) group := by
    decide +kernel
  exact ⟨hahead, hroom, (performAll_ceiling hahead hroom).1, by decide +kernel, by decide +kernel⟩

end Operation

end TestProgram
