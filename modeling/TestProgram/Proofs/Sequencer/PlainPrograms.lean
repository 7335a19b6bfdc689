import TestProgram.Proofs.Sequencer.Emissions
import TestProgram.Proofs.Sequencer.Shrouds

/-!
# Plain programs

A program in which blocks take the place of the scopes that only hide something
(`Operation.plain`) does the same, step by step: what each step answers in the program
is what it answers in the plain one, under the veil of the steps before it
(`performAll_plain`). In between, the program is at work on the sequencer of the plain
one, under a shroud (`Under`). Operations without a body commute with the shroud, and so
do scopes that hide nothing. A scope that hides something only changes the shroud.
-/

namespace TestProgram

/-! ## Plain programs -/

namespace Operation

mutual

/-- The operation with blocks in place of scopes that hide something. -/
def plain : Operation → Operation
  | .scope s body => if s.hides then .block (plainBody body) else .scope s (plainBody body)
  | .block body => .block (plainBody body)
  | .attempt body => .attempt (plainBody body)
  | op => op

def plainBody : List Operation → List Operation
  | [] => []
  | op :: ops => plain op :: plainBody ops

end

mutual

/-- The pins that are named by the scopes with masks in an operation. -/
def masked : Operation → List String
  | .scope (.ignoreFails pins) body => pins ++ maskedBody body
  | .scope _ body | .block body | .attempt body => maskedBody body
  | _ => []

def maskedBody : List Operation → List String
  | [] => []
  | op :: ops => masked op ++ maskedBody ops

end

end Operation

/-! ## Under a shroud, step by step -/

/-- The program is in the state `c`, and the plain one in `c'`: the scopes around
hide `w`, and of the records the veil `v` hides what other scopes did. -/
structure Under (pins : Pinout) (v : Veil) (w : Cover) (c' c : Sequencer) : Prop where
  shade : ∃ started, c = Shroud.shade ⟨v, w, started⟩ c'
  quiets : c'.inhibitComments = 0
  cycle : v.cycle = c'.cycle
  whole : ∀ r ∈ c'.records, v.Whole r
  names : c'.pins.names = pins.names
  tiled : c'.bench.Tiled pins.pins.length

namespace Under

open Operation Sequencer

variable {pins : Pinout} {v : Veil} {w : Cover} {c' c : Sequencer}

/-- All records end before the next cycle. -/
theorem lt_cycle (h : Under pins v w c' c) {r : VectorRecord} (hr : r ∈ c'.records) {k : Nat}
    (hk : k < r.start + r.count) : k < v.cycle := by
  have hend := (h.tiled.consecutive.end_le r hr).2
  rw [h.tiled.total, Nat.zero_add] at hend
  exact h.cycle ▸ Nat.lt_of_lt_of_le hk hend

/-- What is hidden from now on makes no difference to the records. -/
theorem hidden_start (h : Under pins v w c' c) (ids : List PinId) :
    ∀ r ∈ c'.records, (v.hide ids).hidden r.start = v.hidden r.start := fun r hr =>
  if_pos (h.lt_cycle hr (Nat.lt_add_of_pos_right (h.tiled.consecutive.pos r hr)))

theorem whole_hide (h : Under pins v w c' c) (ids : List PinId) : ∀ r ∈ c'.records, (v.hide ids).Whole r := by
  intro r hr k hstart hstop
  rw [h.hidden_start ids r hr, ← h.whole r hr k hstart hstop]
  exact if_pos (h.lt_cycle hr hstop)

theorem tape_hide (h : Under pins v w c' c) (ids : List PinId) :
    (v.hide ids).tape c'.bench.tape = v.tape c'.bench.tape :=
  Veil.tape_congr (h.hidden_start ids) rfl

theorem items_hide (h : Under pins v w c' c) (ids : List PinId) : (v.hide ids).items c'.items = v.items c'.items := by
  rw [Sequencer.items, ← Veil.items_tape, h.tape_hide, Veil.items_tape]

theorem shade_hide (h : Under pins v w c' c) (ids : List PinId) (started : Bool) :
    Shroud.shade ⟨v.hide ids, w, started⟩ c' = Shroud.shade ⟨v, w, started⟩ c' :=
  congrArg (Shroud.shade ⟨v, w, started⟩ c').withTape (h.tape_hide ids)

/-- A scope begins or ends, with the sequencer of the plain program. -/
theorem turn (h : Under pins v w c' c) {w₁ : Cover} {c₁' c₁ : Sequencer} (ht : Turns c' c₁')
    (hquiets : c₁'.inhibitComments = 0) (hshade : ∃ started, c₁ = Shroud.shade ⟨v, w₁, started⟩ c₁') :
    Under pins v w₁ c₁' c₁ := by
  obtain ⟨hcycle, hrecords⟩ := ht.moves.turn_records
  exact ⟨hshade, hquiets, h.cycle.trans hcycle.symm, hrecords ▸ h.whole, ht.moves.names.trans h.names,
    ht.moves.keep (fun _ hm => hm.tiled) h.tiled⟩

/-- The entry of an operation with a body, which has nothing more to do. -/
theorem still (h : Under pins v w c' c) {e : LogEntry} (hop : e.operation.isLeaf = false) (hafter : e.after = c) :
    Under pins (v.step w e) w c' c := by
  obtain ⟨started, hshade⟩ := h.shade
  obtain ⟨hcloses, hcomments⟩ : e.operation.closes = false ∧ e.comments = false := by
    unfold LogEntry.comments
    cases hoperation : e.operation with
    | scope s body | block body | attempt body => exact ⟨rfl, rfl⟩
    | _ =>
      rw [hoperation] at hop
      cases hop
  obtain ⟨hhidden, hcycle⟩ := Veil.hidden_step (v := v) (w := w) hcloses
  refine ⟨⟨started, ?_⟩, h.quiets, ?_, fun r hr => ?_, h.names, h.tiled⟩
  · rw [← Shroud.shade_after hcloses rfl, Shroud.after, if_neg (Bool.eq_false_iff.mp hcomments), h.shade_hide, hshade]
  · rw [hcycle, hafter, hshade]
    rfl
  · rw [Veil.Whole, hhidden]
    exact h.whole_hide w.ids r hr

/-- New records are hidden as a whole, and old ones still are if they are cut. -/
theorem whole_of_extends (h : Under pins v w c' c) {c₁ : Sequencer} (hextends : Extends c' c₁) :
    ∀ r ∈ c₁.records, (v.hide w.ids).Whole r := by
  intro r hr k hstart hstop
  rcases hextends.records r hr with ⟨r₀, hr₀, hpart⟩ | ⟨hnew, -⟩
  · have hwhole := h.whole_hide w.ids r₀ hr₀
    have hle := hpart.start
    have hle' := hpart.stop
    rw [hwhole k (by omega) (by omega), hwhole r.start hle (by omega)]
  · have hcycle := h.cycle
    have hhidden (j : Nat) (hj : c'.cycle ≤ j) : (v.hide w.ids).hidden j = w.ids := if_neg (by omega)
    rw [hhidden k (by omega), hhidden r.start hnew]

/-- The end of a pattern in both programs. -/
theorem finish (h : Under pins v w c' c) (platforms : List Platform) :
    ((Operation.finish platforms).perform c).answer =
        ((Operation.finish platforms).perform c').answer.map (Answer.veil v) ∧
      Under pins .clear w c'.finish.2 c.finish.2 := by
  obtain ⟨started, hshade⟩ := h.shade
  have hpattern : c.pattern = c'.pattern.veil v := by
    rw [hshade]
    exact Shroud.pattern_shade
  refine ⟨?_, ⟨false, ?_⟩, h.quiets, rfl, List.forall_mem_nil _, h.names, ?_⟩
  · show Except.ok (Answer.finished c.pattern
        (platforms.map fun t => (t, t.render ["of " ++ c.pattern.name] c.pattern))) =
      Except.ok (Answer.finished (c'.pattern.veil v) (List.map _ (platforms.map fun _ => _)))
    rw [hpattern, List.map_map]
    rfl
  · rw [hshade]
    rfl
  · exact c'.finish_moves.keep (fun _ hm => hm.tiled) h.tiled

/-- Any other step of both programs. -/
theorem leaf (h : Under pins v w c' c) {op : Operation} (hop : op.isLeaf = true) (hcloses : op.closes = false) :
    (op.perform c).answer = (op.perform c').answer.map (Answer.veil v) ∧
      Under pins (v.step w (op.entry c)) w (op.perform c').after (op.perform c).after := by
  obtain ⟨started, hshade⟩ := h.shade
  have hmoves := op.perform_does c' hop
  have hquiets : (op.perform c').after.inhibitComments = 0 := (op.steady_perform c').inhibitComments.trans h.quiets
  -- no record reaches into the next cycle, so the veil may as well hide from there on what is masked now
  have hfresh : Shroud.Fresh ⟨v.hide w.ids, w, started⟩ c' := fun k hk => if_neg (h.cycle ▸ Nat.not_lt.mpr hk)
  rw [← h.shade_hide w.ids started] at hshade
  obtain ⟨hanswer, hafter⟩ :=
    Shroud.perform_shade hfresh (h.whole_hide w.ids) h.quiets (h.items_hide w.ids) hop hcloses
  rw [← hshade] at hanswer hafter
  have hcomments : (op.entry c).comments = (op.entry c').comments := by
    refine LogEntry.comments_congr rfl ?_
    rw [entry, hafter]
    rfl
  obtain ⟨hhidden, hcycle⟩ := Veil.hidden_step (v := v) (w := w) (e := op.entry c) hcloses
  rw [Shroud.shade_after hcloses hcomments] at hafter
  refine ⟨hanswer, ⟨started, hafter⟩, hquiets, ?_, fun r hr => ?_, hmoves.names.trans h.names,
    hmoves.keep (fun _ hm => hm.tiled) h.tiled⟩
  · rw [hcycle, entry, hafter]
    rfl
  · rw [Veil.Whole, hhidden]
    exact h.whole_of_extends (perform_extends c' hop hcloses) r hr

/-! ### Scopes -/

/-- A scope that hides nothing does not open in the program if it does not in the plain one. -/
theorem not_opened (h : Under pins v w c' c) {s : Scope} (hs : s.hides = false) {e : Fault}
    (hopen : c'.opened s = .error e) : c.opened s = .error e := by
  obtain ⟨started, hshade⟩ := h.shade
  have hopened := (Shroud.loopTwins_shades ⟨v, w, started⟩).opened hshade hs
  rw [hopen] at hopened
  obtain ⟨e', he, he'⟩ | ⟨_, _, -, he, -⟩ := hopened.ends
  · rw [he, he']
  · cases he

/-- Else it begins in both programs. -/
theorem opened (h : Under pins v w c' c) {s : Scope} (hs : s.hides = false) {c₁' : Sequencer}
    (hopen : c'.opened s = .ok c₁') : ∃ c₁, c.opened s = .ok c₁ ∧ Under pins v w c₁' c₁ := by
  obtain ⟨started, hshade⟩ := h.shade
  have hopened := (Shroud.loopTwins_shades ⟨v, w, started⟩).opened hshade hs
  rw [hopen] at hopened
  obtain ⟨e, -, he⟩ | ⟨c₁, _, hopen₁, he, hshade₁⟩ := hopened.ends
  · cases he
  · obtain rfl := Except.ok.inj he
    exact ⟨c₁, hopen₁, h.turn (turns_of_opened hopen) ((inhibitComments_of_opened hs hopen).trans h.quiets)
      ⟨started, hshade₁⟩⟩

/-- And it ends in both. -/
theorem closed (h : Under pins v w c' c) {s : Scope} (hs : s.hides = false) {c₁' : Sequencer}
    (hopen : c'.opened s = .ok c₁') {v₂ : Veil} {c₂' c₂ : Sequencer} (h₂ : Under pins v₂ w c₂' c₂) :
    Under pins v₂ w (c'.closing s c₂') (c.closing s c₂) := by
  obtain ⟨started, hshade⟩ := h.shade
  obtain ⟨started₂, hshade₂⟩ := h₂.shade
  exact h₂.turn (turns_of_closing hopen c₂') ((inhibitComments_closing c' c₂' hs).trans h₂.quiets)
    ⟨started₂, (Shroud.loopTwins_shades _).closing hshade (Shroud.loopTwins_shades _) hshade₂ hs⟩

/-- A scope that hides something begins and ends in the program only. -/
theorem entered (h : Under pins v w c' c) {s : Scope} (hs : s.hides = true)
    (hdeclared : ∀ names, s = .ignoreFails names → ∀ n ∈ names, n ∈ pins.names) :
    ∃ c₁, c.opened s = .ok c₁ ∧ Under pins v (w.within c.pins s) c' c₁ ∧
      ∀ {v₂ c₂' c₂}, Under pins v₂ (w.within c.pins s) c₂' c₂ → Under pins v₂ w c₂' (c.closing s c₂) := by
  obtain ⟨started, rfl⟩ := h.shade
  cases s with
  | ignoreFails names =>
    have hnames : (Shroud.shade ⟨v, w, started⟩ c').pins.names = pins.names :=
      (c'.pins.names_cover w.ids).trans h.names
    have hids := Pinout.ids_of_declared (Shroud.shade ⟨v, w, started⟩ c').pins
      fun n hn => hnames ▸ hdeclared names rfl n hn
    refine ⟨_, opened_ignoreFails hids, h.turn (.refl c') h.quiets ⟨true, ?_⟩, fun {v₂ c₂' c₂} h₂ => ?_⟩
    · rw [Shroud.touch_shade_eq]
      exact congrArg (Shroud.shade ⟨v, w, true⟩ c').withPins (c'.pins.cover_append _ _).symm
    · obtain ⟨started₂, rfl⟩ := h₂.shade
      have huncover (new : List PinId) :
          new.foldl Pinout.unmask (c₂'.pins.cover (w.ids ++ new)) = c₂'.pins.cover w.ids := by
        rw [Pinout.cover_append, Pinout.uncover]
      exact h₂.turn (.refl _) h₂.quiets
        ⟨started₂, congrArg (Shroud.shade ⟨v₂, w, started₂⟩ c₂').withPins (huncover _)⟩
  | withoutComments =>
    refine ⟨_, rfl, h.turn (.refl c') h.quiets ⟨true, ?_⟩, fun h₂ => ?_⟩
    · rw [Shroud.touch_shade_eq]
      rfl
    · obtain ⟨started₂, rfl⟩ := h₂.shade
      exact h₂.turn (.refl _) h₂.quiets ⟨started₂, rfl⟩
  | _ => cases hs

end Under

/-! ## Whole programs -/

/-- Entry by entry, a log of the plain program answers for a log of the program, of
whose tape so far the veil hides some. -/
inductive Answers : Veil → List (Cover × LogEntry) → List LogEntry → Prop where
  | nil (v : Veil) : Answers v [] []
  | cons {v : Veil} {w : Cover} {e e' : LogEntry} {log : List (Cover × LogEntry)} {log' : List LogEntry}
      (hop : e'.operation = e.operation.plain) (hanswer : e.answer = e'.answer.map (Answer.veil v))
      (rest : Answers (v.step w e) log log') : Answers v ((w, e) :: log) (e' :: log')

namespace Answers

variable {v : Veil} {log later : List (Cover × LogEntry)} {log' later' : List LogEntry}

theorem append (h : Answers v log log') (hlater : Answers (v.steps log) later later') :
    Answers v (log ++ later) (log' ++ later') := by
  induction h with
  | nil => exact hlater
  | cons hop hanswer _ ih => exact .cons hop hanswer (ih hlater)

theorem length_eq (h : Answers v log log') : log'.length = log.length := by
  induction h with
  | nil => rfl
  | cons _ _ _ ih => rw [List.length_cons, ih, List.length_cons]

/-- The entry of the plain log for one of the log. -/
theorem exists_of_eq (h : Answers v log log') : ∀ {past : List (Cover × LogEntry)} {w : Cover} {e : LogEntry},
    log = past ++ (w, e) :: later → ∃ past' e' later', log' = past' ++ e' :: later' ∧ past'.length = past.length ∧
      e'.operation = e.operation.plain ∧ e.answer = e'.answer.map (Answer.veil (v.steps past)) := by
  induction h with
  | nil =>
    intro past w e heq
    exact absurd heq.symm (by simp)
  | @cons v w₀ e₀ e₀' log log' hop hanswer _ ih =>
    intro past w e heq
    cases past with
    | nil =>
      obtain ⟨heq, -⟩ := List.cons.inj heq
      obtain ⟨rfl, rfl⟩ := Prod.mk.inj heq
      exact ⟨[], e₀', log', rfl, rfl, hop, hanswer⟩
    | cons x past =>
      obtain ⟨rfl, htail⟩ := List.cons.inj heq
      obtain ⟨past', e', later', rfl, hlength, hentry⟩ := ih htail
      exact ⟨e₀' :: past', e', later', rfl, by rw [List.length_cons, hlength, List.length_cons], hentry⟩

end Answers

/-- What the program and the plain one do from states that are under the veil `v`. -/
structure Runs (pins : Pinout) (v : Veil) (w : Cover) (log : List (Cover × LogEntry)) (log' : List LogEntry)
    (c' c : Sequencer) : Prop where
  answers : Answers v log log'
  under : Under pins (v.steps log) w c' c

theorem Runs.append {pins : Pinout} {v : Veil} {w : Cover} {log later : List (Cover × LogEntry)}
    {log' later' : List LogEntry} {c' c c₁' c₁ : Sequencer} (h : Runs pins v w log log' c' c)
    (hlater : Runs pins (v.steps log) w later later' c₁' c₁) :
    Runs pins v w (log ++ later) (log' ++ later') c₁' c₁ := by
  refine ⟨h.answers.append hlater.answers, ?_⟩
  rw [Veil.steps, List.foldl_append]
  exact hlater.under

/-- The entry of an operation with a body. -/
theorem Under.runs_closed {pins : Pinout} {v : Veil} {w : Cover} {c' c : Sequencer} (h : Under pins v w c' c)
    (op : Operation) {op' : Operation} {a : Except Fault Answer} (a' : Except Fault Answer) (hop : op.isLeaf = false)
    (hplain : op' = op.plain) (ha : a = a'.map (Answer.veil v)) :
    Runs pins v w [(w, ⟨op, a, c⟩)] [⟨op', a', c'⟩] c' c :=
  ⟨.cons hplain ha (.nil _), h.still hop rfl⟩

/-- A step of both programs. -/
theorem Under.runs_leaf {pins : Pinout} {v : Veil} {w : Cover} {c' c : Sequencer} (h : Under pins v w c' c)
    {op : Operation} (hop : op.isLeaf = true) (hplain : op.plain = op)
    (hcovered : op.coveredLog w c = [(w, op.entry c)]) :
    Runs pins v w (op.coveredLog w c) (op.plain.perform c').log (op.plain.perform c').after (op.perform c).after ∧
      ∃ v₁, (op.perform c).answer = (op.plain.perform c').answer.map (Answer.veil v₁) := by
  obtain ⟨hanswer, hafter⟩ : (op.perform c).answer = (op.perform c').answer.map (Answer.veil v) ∧
      Under pins (v.step w (op.entry c)) w (op.perform c').after (op.perform c).after := by
    cases hcloses : op.closes with
    | true =>
      obtain ⟨platforms, rfl⟩ := Operation.eq_finish_of_closes hcloses
      exact h.finish platforms
    | false => exact h.leaf hop hcloses
  rw [hplain, hcovered, Operation.log_of_leaf c' hop]
  exact ⟨⟨.cons hplain.symm hanswer (.nil _), hafter⟩, v, hanswer⟩

theorem done_veil {r r' : Except Fault Unit} (h : r = r') {v : Veil} :
    (r.map fun _ => Answer.done) = (r'.map fun _ => Answer.done).map (Answer.veil v) := by
  subst h
  cases r <;> rfl

namespace Operation

open Sequencer

theorem of_masked_scope {P : String → Prop} {s : Scope} {body : List Operation}
    (h : ∀ n ∈ (Operation.scope s body).masked, P n) :
    (∀ names, s = .ignoreFails names → ∀ n ∈ names, P n) ∧ ∀ n ∈ maskedBody body, P n := by
  cases s with
  | ignoreFails pins =>
    obtain ⟨hpins, hbody⟩ := List.forall_mem_append.mp h
    refine ⟨fun names heq => ?_, hbody⟩
    obtain rfl := Scope.ignoreFails.inj heq
    exact hpins
  | _ => exact ⟨nofun, h⟩

mutual

theorem runs_perform {pins : Pinout} : ∀ (op : Operation) {v : Veil} {w : Cover} {c' c : Sequencer},
    (∀ n ∈ op.masked, n ∈ pins.names) → Under pins v w c' c →
      Runs pins v w (op.coveredLog w c) (op.plain.perform c').log (op.plain.perform c').after (op.perform c).after ∧
        ∃ v₁, (op.perform c).answer = (op.plain.perform c').answer.map (Answer.veil v₁)
  | .scope s body, v, w, c', c, hmasked, h => by
    obtain ⟨hnames, hbody⟩ := of_masked_scope hmasked
    cases hs : s.hides with
    | true =>
      have hplain : (Operation.scope s body).plain = .block (plainBody body) := by rw [plain, if_pos hs]
      obtain ⟨c₁, hopen, h₁, hclose⟩ := h.entered hs hnames
      obtain ⟨hruns, hsame⟩ := runs_performBody body hbody h₁
      rw [coveredLog, entry, perform_of_opened hopen, hopen, hplain]
      have hend := (hclose hruns.under).runs_closed (.scope s body) _ rfl hplain.symm (done_veil hsame)
      exact ⟨.append ⟨hruns.answers, hclose hruns.under⟩ hend, v, done_veil hsame⟩
    | false =>
      have hplain : (Operation.scope s body).plain = .scope s (plainBody body) := by
        rw [plain, if_neg (Bool.eq_false_iff.mp hs)]
      rw [coveredLog, entry, hplain]
      cases hopen' : c'.opened s with
      | error e =>
        have hopen := h.not_opened hs hopen'
        have htouch : Under pins v w c'.touch c.touch := by
          obtain ⟨started, rfl⟩ := h.shade
          exact h.turn (.touch c') h.quiets ⟨started, rfl⟩
        rw [perform_of_not_opened hopen, perform_of_not_opened hopen', hopen]
        exact ⟨htouch.runs_closed (.scope s body) (.error e) rfl hplain.symm rfl, v, rfl⟩
      | ok c₁' =>
        obtain ⟨c₁, hopen, h₁⟩ := h.opened hs hopen'
        obtain ⟨hruns, hsame⟩ := runs_performBody body hbody h₁
        have hclosed := h.closed hs hopen' hruns.under
        rw [perform_of_opened hopen, perform_of_opened hopen', hopen, Cover.within_of_not_hides hs]
        have hend := hclosed.runs_closed (.scope s body) _ rfl hplain.symm (done_veil hsame)
        exact ⟨.append ⟨hruns.answers, hclosed⟩ hend, v, done_veil hsame⟩
  | .block body, v, w, c', c, hmasked, h => by
    obtain ⟨hruns, hsame⟩ := runs_performBody body hmasked h
    have hend := hruns.under.runs_closed (.block body) _ rfl rfl (done_veil hsame)
    exact ⟨hruns.append hend, v, done_veil hsame⟩
  | .attempt body, v, w, c', c, hmasked, h => by
    obtain ⟨hruns, -⟩ := runs_performBody body hmasked h
    have hend := hruns.under.runs_closed (.attempt body) (.ok .done) rfl rfl rfl
    exact ⟨hruns.append hend, v, rfl⟩
  | .setPin _ _, _, _, _, _, _, h | .pinState _, _, _, _, _, _, h | .setTimeset _ _, _, _, _, _, _, h
  | .addWave _ _ _ _, _, _, _, _, _, h | .enableClock _ _, _, _, _, _, _, h | .startClock _, _, _, _, _, _, h
  | .stopClock _, _, _, _, _, _, h | .pauseClock _, _, _, _, _, _, h | .resumeClock _ _, _, _, _, _, _, h
  | .hold _ _, _, _, _, _, _, h | .delay _, _, _, _, _, _, h | .wait _, _, _, _, _, _, h | .store _, _, _, _, _, _, h
  | .label _, _, _, _, _, _, h | .comment _, _, _, _, _, _, h | .call _, _, _, _, _, _, h | .define _, _, _, _, _, _, h
  | .imported, _, _, _, _, _, h | .items, _, _, _, _, _, h | .setGroup _, _, _, _, _, _, h
  | .threads _, _, _, _, _, _, h | .finish _, _, _, _, _, _, h => h.runs_leaf rfl rfl rfl

theorem runs_performBody {pins : Pinout} : ∀ (ops : List Operation) {v : Veil} {w : Cover} {c' c : Sequencer},
    (∀ n ∈ maskedBody ops, n ∈ pins.names) → Under pins v w c' c →
      Runs pins v w (coveredBody w ops c) (performBody (plainBody ops) c').log (performBody (plainBody ops) c').after
          (performBody ops c).after ∧
        (performBody ops c).answer = (performBody (plainBody ops) c').answer
  | [], v, w, c', c, _, h => ⟨⟨.nil v, h⟩, rfl⟩
  | op :: ops, v, w, c', c, hmasked, h => by
    obtain ⟨hop, hops⟩ := List.forall_mem_append.mp hmasked
    obtain ⟨hfirst, v₁, hanswer⟩ := runs_perform op hop h
    rw [coveredBody, plainBody, performBody, performBody]
    dsimp only
    rw [hanswer]
    cases (op.plain.perform c').answer with
    | error e =>
      dsimp only [Except.map]
      rw [List.append_nil]
      exact ⟨hfirst, rfl⟩
    | ok a =>
      obtain ⟨hrest, hsame⟩ := runs_performBody ops hops hfirst.under
      exact ⟨hfirst.append hrest, hsame⟩

end

theorem runs_performAll {pins : Pinout} : ∀ (ops : List Operation) {v : Veil} {w : Cover} {c' c : Sequencer},
    (∀ n ∈ maskedBody ops, n ∈ pins.names) → Under pins v w c' c →
      Runs pins v w (coveredAll w ops c) (performAll (plainBody ops) c').1 (performAll (plainBody ops) c').2
        (performAll ops c).2
  | [], v, _, _, _, _, h => ⟨.nil v, h⟩
  | op :: ops, _, _, _, _, hmasked, h => by
    obtain ⟨hop, hops⟩ := List.forall_mem_append.mp hmasked
    obtain ⟨hfirst, -⟩ := runs_perform op hop h
    exact hfirst.append (runs_performAll ops hops hfirst.under)

theorem under_new (name : String) (pins : Pinout) (config : Config) :
    Under pins .clear .bare (new name pins config) (new name pins config) where
  shade := ⟨false, rfl⟩
  quiets := rfl
  cycle := rfl
  whole := List.forall_mem_nil _
  names := rfl
  tiled := tiled_new name pins config

/-- If only declared pins are masked, a program goes on step by step as if there were
blocks in place of the scopes that mask pins or record no comments. Each step answers
what it answers in the plain program: with the same fault, or with success. Only what
the veil hides makes a difference, in the items that are asked for and in finished
patterns, of which all the rest is the same. The veil drops the comments that are
written inside of scopes that record none, and takes the comparison from the pins that
are masked around the step in which a record begins, and from no others. -/
theorem performAll_plain {name : String} {pins : Pinout} {config : Config} {ops : List Operation}
    (hmasked : ∀ n ∈ maskedBody ops, n ∈ pins.names) :
    (coveredAll .bare ops (new name pins config)).map Prod.snd = (performAll ops (new name pins config)).1 ∧
      (performAll (plainBody ops) (new name pins config)).1.length = (performAll ops (new name pins config)).1.length ∧
      ∀ past w e later, coveredAll .bare ops (new name pins config) = past ++ (w, e) :: later →
        ∃ past' e' later', (performAll (plainBody ops) (new name pins config)).1 = past' ++ e' :: later' ∧
          past'.length = past.length ∧ e'.operation = e.operation.plain ∧
          e.answer = e'.answer.map (Answer.veil (Veil.clear.steps past)) := by
  have hlog := map_coveredAll .bare ops (new name pins config)
  have hruns := runs_performAll ops hmasked (under_new name pins config)
  refine ⟨hlog, ?_, fun past w e later => hruns.answers.exists_of_eq⟩
  rw [hruns.answers.length_eq, ← hlog, List.length_map]

/-- A program with masks over masks, of which a failed operation ends some, with a
comment that is not recorded and with a store that comes late. -/
def hidingProgram : List Operation :=
  [.setTimeset "tp" (some ⟨40000⟩), .setPin "b" .compare1,
    .scope (.ignoreFails ["b"]) [.hold (some 2) none, .scope .withoutComments [.comment "unseen"],
      .attempt [.scope (.ignoreFails ["b", "a"])
        [.setPin "a" .compare0, .hold (some 3) none, .setPin "missing" .drive1]]],
    .comment "seen", .store 1, .hold none none, .finish []]

/-- The states of all vectors of the pattern that an entry says is finished. -/
def finishedStates (e : LogEntry) : Option (List (List PinState)) :=
  e.pattern?.map fun p => p.vectors.map VectorRecord.states

theorem hidingProgram_plain : (∀ n ∈ maskedBody hidingProgram, n ∈ twoPins.names) ∧
    ∃ past w e past' e', coveredAll .bare hidingProgram (new "hiding" twoPins (.standard .j750)) = past ++ [(w, e)] ∧
      (performAll (plainBody hidingProgram) (new "hiding" twoPins (.standard .j750))).1 = past' ++ [e'] ∧
      e.answer = e'.answer.map (Answer.veil (Veil.clear.steps past)) ∧
      finishedStates e =
        some [[.drive0, .compareX], [.compareX, .compareX], [.compareX, .compareX], [.compare0, .compare1]] ∧
      finishedStates e' =
        some [[.drive0, .compare1], [.compare0, .compare1], [.compare0, .compare1], [.compare0, .compare1]] := by
  have hmasked : ∀ n ∈ maskedBody hidingProgram, n ∈ twoPins.names := by decide
  have hlast : (coveredAll .bare hidingProgram (new "hiding" twoPins (.standard .j750))).getLast?.any (fun x =>
      finishedStates x.2 ==
        some [[.drive0, .compareX], [.compareX, .compareX], [.compareX, .compareX], [.compare0, .compare1]]) =
      true := by
    decide +kernel
  have hlast' : (performAll (plainBody hidingProgram) (new "hiding" twoPins (.standard .j750))).1.getLast?.all (fun e =>
      finishedStates e ==
        some [[.drive0, .compare1], [.compare0, .compare1], [.compare0, .compare1], [.compare0, .compare1]]) =
      true := by
    decide +kernel
  obtain ⟨⟨w, e⟩, he, hstates⟩ := (Option.any_eq_true _ _).mp hlast
  have hlog := (List.dropLast_append_getLast? (w, e) he).symm
  obtain ⟨hsnd, hlength, hentries⟩ := performAll_plain hmasked
  obtain ⟨past', e', later', hlog', hpast, -, hanswer⟩ := hentries _ w e [] hlog
  have hlater : later' = [] := by
    rw [hlog', ← hsnd, List.length_map, hlog, List.length_append, List.length_append, hpast] at hlength
    exact List.eq_nil_of_length_eq_zero (Nat.succ.inj (Nat.add_left_cancel hlength))
  subst hlater
  refine ⟨hmasked, _, w, e, past', e', hlog, hlog', hanswer, eq_of_beq hstates, ?_⟩
  rw [hlog', List.getLast?_append] at hlast'
  exact eq_of_beq hlast'

end Operation

end TestProgram
