import TestProgram.Proofs.Sequencer.Covers
import TestProgram.Proofs.Sequencer.Twins

/-!
# Sequencers under a shroud

A `Shroud` over a sequencer puts more masks on some pins and keeps comments from
being recorded, and what has been recorded lies under a veil. A sequencer under a
shroud and the one without it are twins (`loopTwins_shades`), for operations read the
states of the pins and not what vectors show of them, and the cycles and clocks that a
shroud leaves as they are. So all operations without a body answer the same under the
shroud as without it, and leave the same sequencer behind, under the shroud
(`perform_shade`). Those that record vectors need it to hide the pins under its masks
from the present cycle on (`Fresh`).
-/

namespace TestProgram

/-- What hides a part of the work of a sequencer. -/
structure Shroud where
  /-- What is hidden of the records. -/
  veil : Veil
  /-- What is hidden from now on. -/
  cover : Cover
  /-- Whether the pattern has begun with it. -/
  started : Bool

namespace Shroud

open Sequencer (Abreast LoopTwins)

def shade (s : Shroud) (c : Sequencer) : Sequencer :=
  { c with
    bench := s.veil.bench s.cover.ids c.bench
    started := c.started || s.started
    inhibitComments := s.cover.quiets }

/-- From the present cycle on, the pins are hidden that are under masks. -/
def Fresh (s : Shroud) (c : Sequencer) : Prop := ∀ k, c.cycle ≤ k → s.veil.hidden k = s.cover.ids

variable {s : Shroud} {c : Sequencer}

theorem Fresh.mono (h : s.Fresh c) {c' : Sequencer} (hcycle : c.cycle ≤ c'.cycle) : s.Fresh c' :=
  fun k hk => h k (Nat.le_trans hcycle hk)

/-- The sequencer `c'` is `c` under the shroud. -/
def Shades (s : Shroud) (c' c : Sequencer) : Prop := c' = s.shade c

theorem loopTwins_shades (s : Shroud) : LoopTwins s.Shades where
  timing h := h ▸ rfl
  rounding h := h ▸ rfl
  clocks h := h ▸ rfl
  cycle h := h ▸ rfl
  group h := h ▸ rfl
  id {_ c} h pin := h ▸ Pinout.id_congr (c.pins.names_cover s.cover.ids) pin
  pinName {_ c} h i := h ▸ c.pins.name_cover s.cover.ids i
  state {_ c} h i := h ▸ c.pins.state_cover s.cover.ids i
  touched h := h ▸ rfl
  warned h _ := h ▸ rfl
  timed h _ := h ▸ rfl
  clocked h _ := h ▸ rfl
  pinned {_ c} h i state := by
    have hset : (s.shade c).pins.set i state = (c.pins.set i state).cover s.cover.ids := c.pins.cover_set _ i state
    subst h
    rw [hset]
    rfl
  inhibitVectors h := h ▸ rfl
  loopFactor h := h ▸ rfl
  inhibited h _ := h ▸ rfl
  repeated h _ := h ▸ rfl
  started h _ _ := h ▸ rfl
  ended h _ := h ▸ rfl

/-! ## Recording vectors -/

theorem use_shade (timeset : String) : (s.shade c).use timeset = s.shade (c.use timeset) := by
  have hused : (s.shade c).usedTimesets = c.usedTimesets := rfl
  unfold Sequencer.use
  rw [hused]
  split <;> rfl

/-- A scope that hides something begins the pattern. -/
theorem touch_shade_eq (c : Sequencer) : (s.shade c).touch = shade { s with started := true } c := by
  unfold shade Sequencer.touch
  simp only [Bool.or_true]

theorem emit_shade (h : s.Fresh c) (count : Nat) (timeset call : Option String) :
    Abreast s.Shades ((s.shade c).emit count timeset call) (c.emit count timeset call) := by
  have hresolve : (s.shade c).touch.timing.resolve timeset "cycle" = c.touch.timing.resolve timeset "cycle" := rfl
  have hinhibit : (s.shade c).touch.inhibitVectors = c.touch.inhibitVectors := rfl
  unfold Sequencer.emit
  dsimp only
  rw [hresolve, hinhibit]
  split
  · exact ⟨rfl, rfl⟩
  · rename_i t _
    split
    · exact ⟨rfl, rfl⟩
    · obtain ⟨hbench, -⟩ := c.touch.use_fields t.name
      have hhold := Veil.hold_bench (b := (c.touch.use t.name).bench) (by rw [hbench]; exact h) t count
      have huse : (s.shade c).touch.use t.name = s.shade (c.touch.use t.name) := use_shade (c := c.touch) t.name
      rw [huse]
      refine .settle (R := s.Shades) rfl <| .next (.of_eq_map (hhold _)) fun hb => ?_
      subst hb
      exact .ok rfl

/-- A shroud stays fresh on twins. -/
theorem loopTwins_fresh (s : Shroud) : LoopTwins fun c' c => s.Shades c' c ∧ s.Fresh c :=
  (loopTwins_shades s).provided fun cycle _ => ∀ k, cycle ≤ k → s.veil.hidden k = s.cover.ids

theorem emit_fresh {c' c : Sequencer} (h : s.Shades c' c ∧ s.Fresh c) (count : Nat) (timeset call : Option String) :
    Abreast (fun c' c => s.Shades c' c ∧ s.Fresh c) (c'.emit count timeset call) (c.emit count timeset call) := by
  obtain ⟨rfl, hfresh⟩ := h
  obtain ⟨hanswer, hafter⟩ := emit_shade hfresh count timeset call
  have hcycle := Sequencer.Moves.cycle_le (A := (· = .emit)) nofun (c.emit_moves count timeset call)
  exact ⟨hanswer, hafter, hfresh.mono hcycle⟩

/-! ## Marks, comments and the end of a pattern -/

theorem store_shade (h : ∀ r ∈ c.records, s.veil.Whole r) (offset : Nat) :
    Abreast s.Shades ((s.shade c).store offset) (c.store offset) := by
  have hinhibit : (s.shade c).touch.inhibitVectors = c.touch.inhibitVectors := rfl
  unfold Sequencer.store
  dsimp only
  rw [hinhibit]
  split
  · exact ⟨rfl, rfl⟩
  · split
    · exact ⟨rfl, rfl⟩
    · have hmark := Veil.markStore_tape (t := c.bench.tape) h offset
      have htouch : s.Shades (s.shade c).touch c.touch := rfl
      refine .settle htouch <| .next (.of_eq_map hmark) fun htape => ?_
      subst htape
      exact .ok rfl

/-- A comment is dropped where comments are not recorded. -/
theorem comment_shade (hquiets : c.inhibitComments = 0) (text : String) : (s.shade c).comment text =
    shade (if c.inhibitVectors = 0 then { s with veil := s.veil.drop (decide (0 < s.cover.quiets)) } else s)
      (c.comment text) := by
  by_cases hi : c.inhibitVectors = 0
  · have hplain : c.comment text = c.touch.withTape (c.bench.tape.push (.comment text)) := if_pos ⟨hi, hquiets⟩
    have hpush := s.veil.tape_push_comment (decide (0 < s.cover.quiets)) c.bench.tape text
    rw [if_pos hi, hplain]
    rcases Nat.eq_zero_or_pos s.cover.quiets with hs | hs
    · have hshade : (s.shade c).comment text =
        (s.shade c.touch).withTape ((s.veil.tape c.bench.tape).push (.comment text)) := if_pos ⟨hi, hs⟩
      rw [if_neg (by simp [hs])] at hpush
      exact hshade.trans (congrArg (s.shade c.touch).withTape hpush.symm)
    · have hshade : (s.shade c).comment text = (s.shade c.touch).withTape (s.veil.tape c.bench.tape) :=
        if_neg fun h => absurd h.2 (Nat.ne_of_gt hs)
      rw [if_pos (decide_eq_true hs)] at hpush
      exact hshade.trans (congrArg (s.shade c.touch).withTape hpush.symm)
  · have hplain : c.comment text = c.touch := if_neg fun h => hi h.1
    have hshade : (s.shade c).comment text = s.shade c.touch := if_neg fun h => hi h.1
    rw [if_neg hi, hplain, hshade]

/-! ## All steps -/

theorem plain_shade {R : Sequencer → Sequencer → Prop} (hR : ∀ {c' c}, R c' c → s.Shades c' c) {v : Veil}
    {op : Operation} {r' r : Except Fault Unit × Sequencer} (h : Abreast R r' r) :
    (Performance.plain op r').answer = (Performance.plain op r).answer.map (Answer.veil v) ∧
      (Performance.plain op r').after = s.shade (Performance.plain op r).after := by
  obtain ⟨hanswer, hafter⟩ := h
  refine ⟨?_, hR hafter⟩
  rw [Performance.plain, hanswer]
  obtain ⟨_ | _, c⟩ := r <;> rfl

theorem pattern_shade : (s.shade c).pattern = c.pattern.veil s.veil := by
  have hnames : (s.shade c).pins.names = c.pins.names := c.pins.names_cover s.cover.ids
  have hitems : (s.shade c).items = s.veil.items c.items := s.veil.items_tape c.bench.tape
  rw [Sequencer.pattern, hnames, hitems]
  rfl

/-- The shroud after a step that does not close the pattern. -/
def after (s : Shroud) (e : LogEntry) : Shroud :=
  if e.comments then { s with veil := s.veil.drop (decide (0 < s.cover.quiets)) } else s

theorem shade_after {v : Veil} {w : Cover} {started : Bool} {e e' : LogEntry} (hcloses : e.operation.closes = false)
    (hcomments : e.comments = e'.comments) :
    (after ⟨v.hide w.ids, w, started⟩ e').shade c = shade ⟨v.step w e, w, started⟩ c := by
  rw [after, Veil.step, if_neg (Bool.eq_false_iff.mp hcloses), ← hcomments]
  cases e.comments <;> rfl

/-- A step answers the same under the shroud, but for what is hidden of the items that
it asks for. -/
theorem perform_shade (hfresh : s.Fresh c) (hwhole : ∀ r ∈ c.records, s.veil.Whole r) (hquiets : c.inhibitComments = 0)
    {v : Veil} (hitems : s.veil.items c.items = v.items c.items) {op : Operation} (hop : op.isLeaf = true)
    (hcloses : op.closes = false) : (op.perform (s.shade c)).answer = (op.perform c).answer.map (Answer.veil v) ∧
      (op.perform (s.shade c)).after = (s.after (op.entry c)).shade (op.perform c).after := by
  have htwins := (loopTwins_shades s).toTwins
  have hc : s.Shades (s.shade c) c := rfl
  have hfreshTwins := (loopTwins_fresh s).toTwins
  have hfreshly : s.Shades (s.shade c) c ∧ s.Fresh c := ⟨rfl, hfresh⟩
  cases op with
  | setPin pin state => exact plain_shade id (htwins.setPin hc pin state)
  | pinState pin =>
    refine ⟨?_, rfl⟩
    rw [Operation.perform, htwins.pinState hc, Operation.perform]
    show (c.pinState pin).map Answer.state = ((c.pinState pin).map Answer.state).map _
    cases c.pinState pin <;> rfl
  | setTimeset name period => exact plain_shade id (htwins.setTimeset hc name period)
  | addWave timeset pin drive compare => exact plain_shade id (htwins.addWave hc timeset pin drive compare)
  | enableClock pin f => exact plain_shade id (htwins.enableClock hc pin f)
  | startClock pin => exact plain_shade id (htwins.startClock hc pin)
  | stopClock pin => exact plain_shade id (htwins.stopClock hc pin)
  | pauseClock pin => exact plain_shade id (htwins.pauseClock hc pin)
  | resumeClock pin f => exact plain_shade id (htwins.resumeClock hc pin f)
  | hold count timeset => exact plain_shade And.left (hfreshTwins.hold hfreshly emit_fresh count timeset)
  | delay count => exact plain_shade And.left (hfreshTwins.delay hfreshly emit_fresh count)
  | wait d => exact plain_shade And.left (hfreshTwins.wait hfreshly emit_fresh d)
  | store offset => exact plain_shade id (store_shade hwhole offset)
  | comment text =>
    have hinhibit : (c.comment text).inhibitVectors = c.inhibitVectors :=
      (Operation.steady_perform (.comment text) c).inhibitVectors
    refine ⟨rfl, (comment_shade hquiets text).trans ?_⟩
    have hcomments : ((Operation.comment text).entry c).comments = decide (c.inhibitVectors = 0) := by
      rw [← hinhibit]
      rfl
    simp only [after, hcomments, decide_eq_true_eq]
    rfl
  | label name | define name | imported => exact ⟨rfl, rfl⟩
  | items =>
    have hitems : (s.shade c).items = v.items c.items := (s.veil.items_tape c.bench.tape).trans hitems
    exact ⟨congrArg (fun recorded => Except.ok (Answer.items recorded)) hitems, rfl⟩
  | call name =>
    exact plain_shade id (emit_shade (c := { c with called := Names.insert name c.called }) hfresh 1 none (some name))
  | setGroup group => exact plain_shade id (htwins.setGroup hc group fun _ => rfl)
  | threads ts => exact plain_shade And.left (hfreshTwins.runThreads hfreshly emit_fresh ts)
  | finish platforms => cases hcloses
  | scope _ _ | block _ | attempt _ => cases hop

end Shroud

namespace Sequencer

variable {c c₁ : Sequencer}

/-- Only scopes that record no comments inhibit them. -/
theorem inhibitComments_of_opened : ∀ {s : Scope}, s.hides = false → c.opened s = .ok c₁ →
    c₁.inhibitComments = c.inhibitComments
  | .timeset name period, _, h => by
    have hcore := congrArg inhibitComments (c.setTimeset_core name period)
    simp only [opened, within, withTimeset] at h
    split at h
    · cases h
    · rename_i heq
      rw [heq] at hcore
      obtain rfl := Except.ok.inj h
      exact hcore
  | .loop label 0, _, h => by cases h
  | .loop label 1, _, h | .withoutVectors, _, h => by
    obtain rfl := Except.ok.inj h
    rfl
  | .loop label (count + 2), _, h => by
    rw [opened_loop c label (Nat.le_add_left 2 count)] at h
    obtain rfl := Except.ok.inj h
    unfold enterLoop beforeLoop
    split <;> split <;> rfl

theorem inhibitComments_closing (c c' : Sequencer) : ∀ {s : Scope}, s.hides = false →
    (c.closing s c').inhibitComments = c'.inhibitComments
  | .timeset _ _, _ | .withoutVectors, _ => rfl
  | .loop label count, _ => by
    unfold closing leaveLoop
    dsimp only
    split
    · rfl
    · split <;> rfl

end Sequencer

end TestProgram
