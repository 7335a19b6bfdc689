import TestProgram.Proofs.Pattern.Stores
import TestProgram.Proofs.Sequencer.Bodies
import TestProgram.Proofs.Sequencer.Steps

/-!
# Scopes restore what they set

A scope sets the active timeset, the loop factor, a depth of inhibition or
masks on pins while its body runs. When it is over all of them are as they were
before, whatever the body is and wherever in it an operation fails
(`scope_restores`). The body may have scopes of its own: that these restore
what they set is part of the induction (`within_steady`, `steady_kept`).

The name of the active timeset can be restored because the active position is
always that of a timeset (`Occurs.valid`), also in the states in which bodies
begin, which no log shows (`Occurs`).
-/

namespace TestProgram

namespace Sequencer

/-! ## Hardware loops -/

/-- A sequencer that is about to enter a hardware loop. -/
def beforeLoop (c : Sequencer) (label : String) : Sequencer :=
  if c.touch.clocks.anyRunning then c.touch.warn (.clockAcrossLoop label) else c.touch

/-- The state in which the body of a hardware loop begins. -/
def enterLoop (c : Sequencer) (label : String) (count : Nat) : Sequencer :=
  { if c.inhibitVectors = 0 then c.withTape (c.bench.tape.push (.loopStart label count)) else c with
    loopFactor := Word.mul c.loopFactor count }

/-- The state after a hardware loop that was entered in `c` and whose body
ended in `c'`. -/
def leaveLoop (c : Sequencer) (label : String) (c' : Sequencer) : Sequencer :=
  let c' := { c' with loopFactor := c.loopFactor }
  if c.inhibitVectors = 0 then c'.withTape (c'.bench.tape.push (.loopEnd label)) else c'

section

variable {β : Type} {body : Sequencer → β × Sequencer}

theorem loop_snd (c : Sequencer) (label : String) {count : Nat} (h : 2 ≤ count) : (c.loop label count body).2 =
    (c.beforeLoop label).leaveLoop label (body ((c.beforeLoop label).enterLoop label count)).2 := by
  have h0 : count ≠ 0 := by omega
  have h1 : count ≠ 1 := by omega
  simp only [loop, h0, h1, if_false, decide_eq_true_eq]
  rfl

theorem beforeLoop_step (c : Sequencer) (label : String) : Step c (c.beforeLoop label) := by
  unfold beforeLoop
  split <;> exact .of_account ⟨rfl, rfl, rfl⟩ ⟨rfl, rfl, rfl, rfl, List.Subset.refl _, .refl _⟩

/-! ## Scopes -/

/-- Within a scope the body finds other settings. When it is over they are as
they were before, if the body leaves them as it finds them. -/
theorem within_steady (hbody : ∀ c, Steady c (body c).2) (c : Sequencer) : ∀ s : Scope,
    Steady c (c.within s body).2
  | .timeset name period => by
    have hset : Steady c (c.setTimeset name period).2 :=
      ((c.setTimeset_settles name period).step trivial (c.setTimeset_account name period)).steady
    rw [within, withTimeset]
    split
    · rename_i heq
      rwa [heq] at hset
    · rename_i c₁ heq
      rw [heq] at hset
      have hdone := hset.trans (hbody c₁)
      exact ⟨hdone.depths, hdone.inhibitVectors, hdone.inhibitComments, hdone.loopFactor, hdone.timing.restore⟩
  | .loop label 0 => ⟨rfl, rfl, rfl, rfl, .refl _⟩
  | .loop label 1 => by
    have htouch : Steady c c.touch := ⟨rfl, rfl, rfl, rfl, .refl _⟩
    exact htouch.trans (hbody c.touch)
  | .loop label (count + 2) => by
    rw [within, loop_snd c label (Nat.le_add_left 2 count)]
    have hbefore := (c.beforeLoop_step label).steady
    generalize c.beforeLoop label = c₁ at hbefore ⊢
    have hdone := hbody (c₁.enterLoop label (count + 2))
    generalize (body (c₁.enterLoop label (count + 2))).2 = c' at hdone ⊢
    refine hbefore.trans ?_
    -- what the body finds is what the loop was entered with, but for the factor
    obtain ⟨hdepths, hvectors, hcomments, htiming⟩ : c'.pins.depths = c₁.pins.depths ∧
        c'.inhibitVectors = c₁.inhibitVectors ∧ c'.inhibitComments = c₁.inhibitComments ∧
          c₁.timing.Grows c'.timing := by
      have henter : (c₁.enterLoop label (count + 2)).pins.depths = c₁.pins.depths ∧
          (c₁.enterLoop label (count + 2)).inhibitVectors = c₁.inhibitVectors ∧
            (c₁.enterLoop label (count + 2)).inhibitComments = c₁.inhibitComments ∧
              (c₁.enterLoop label (count + 2)).timing = c₁.timing := by
        unfold enterLoop
        split <;> exact ⟨rfl, rfl, rfl, rfl⟩
      obtain ⟨hdepths, hvectors, hcomments, htiming⟩ := henter
      exact ⟨hdone.depths.trans hdepths, hdone.inhibitVectors.trans hvectors,
        hdone.inhibitComments.trans hcomments, htiming ▸ hdone.timing⟩
    unfold leaveLoop
    dsimp only
    split <;> exact ⟨hdepths, hvectors, hcomments, rfl, htiming⟩
  | .ignoreFails pins => by
    rw [within, ignoreFails]
    dsimp only
    split
    · exact ⟨rfl, rfl, rfl, rfl, .refl _⟩
    · rename_i ids _
      have hdone := hbody (c.touch.withPins (ids.foldl Pinout.mask c.touch.pins))
      exact ⟨Pinout.depths_unmask_mask ids hdone.depths, hdone.inhibitVectors, hdone.inhibitComments,
        hdone.loopFactor, hdone.timing⟩
  | .withoutVectors => by
    have hdone := hbody { c.touch with inhibitVectors := c.touch.inhibitVectors + 1 }
    refine ⟨hdone.depths, ?_, hdone.inhibitComments, hdone.loopFactor, hdone.timing⟩
    show _ - 1 = c.inhibitVectors
    rw [hdone.inhibitVectors]
    rfl
  | .withoutComments => by
    have hdone := hbody { c.touch with inhibitComments := c.touch.inhibitComments + 1 }
    refine ⟨hdone.depths, hdone.inhibitVectors, ?_, hdone.loopFactor, hdone.timing⟩
    show _ - 1 = c.inhibitComments
    rw [hdone.inhibitComments]
    rfl

end

open Operation in
theorem steady_kept : Kept (fun _ => True) Steady where
  refl := .refl
  trans := .trans
  leaf {op} c hop _ := by
    cases hcloses : op.closes with
    | false => exact (op.perform_steps c hop hcloses).steady
    | true =>
      obtain ⟨platforms, rfl⟩ := eq_finish_of_closes hcloses
      exact ⟨rfl, rfl, rfl, rfl, .refl _⟩
  scope s c hbody := within_steady hbody c s

end Sequencer

theorem Operation.steady_perform (op : Operation) (c : Sequencer) : Sequencer.Steady c (op.perform c).after :=
  Sequencer.steady_kept.perform (op.all_of_forall fun _ => trivial) c

namespace Sequencer

/-! ## The states that operations begin in -/

/-- The body of a scope begins with the records and the names of pins before
it, and with its timesets, of which there may be others and more in use. -/
structure Opens (c c₁ : Sequencer) : Prop where
  timing : c.timing.Grows c₁.timing
  used : c.usedTimesets ⊆ c₁.usedTimesets
  records : c₁.bench.tape.records = c.bench.tape.records
  names : c₁.pins.names = c.pins.names

theorem opened_loop (c : Sequencer) (label : String) {count : Nat} (h : 2 ≤ count) :
    c.opened (.loop label count) = .ok ((c.beforeLoop label).enterLoop label count) := by
  have h0 : count ≠ 0 := by omega
  have h1 : count ≠ 1 := by omega
  simp only [opened, within, loop, h0, h1, if_false, decide_eq_true_eq]
  rfl

theorem opened_ignoreFails {c : Sequencer} {names : List String} {ids : List PinId} (h : c.pins.ids names = .ok ids) :
    c.opened (.ignoreFails names) = .ok (c.touch.withPins (ids.foldl Pinout.mask c.pins)) := by
  have htouch : c.touch.pins.ids names = .ok ids := h
  simp only [opened, within, ignoreFails, htouch]
  rfl

theorem after_of_settle_error {c c' : Sequencer} {r : Except Fault Sequencer} {e : Fault}
    (h : c.settle r = (.error e, c')) : c' = c := by
  cases r with
  | error e' => exact (congrArg Prod.snd h).symm
  | ok c₁ => cases congrArg Prod.fst h

/-- The state after a scope that was opened in `c` and whose body ended in `c'`. -/
def closing (c : Sequencer) (s : Scope) (c' : Sequencer) : Sequencer :=
  match s with
  | .timeset _ _ => { c' with timing := c'.timing.restore c.timing.active }
  | .loop label count => if count = 1 then c' else (c.beforeLoop label).leaveLoop label c'
  | .ignoreFails pins => c'.withPins ((pins.filterMap c.pins.id?).foldl Pinout.unmask c'.pins)
  | .withoutVectors => { c' with inhibitVectors := c'.inhibitVectors - 1 }
  | .withoutComments => { c' with inhibitComments := c'.inhibitComments - 1 }

section

variable {β : Type} (body : Sequencer → β × Sequencer)

theorem within_of_opened {c c₁ : Sequencer} : ∀ {s : Scope}, c.opened s = .ok c₁ →
    c.within s body = (.ok (body c₁).1, c.closing s (body c₁).2)
  | .timeset name period, h => by
    simp only [opened, within, withTimeset] at h ⊢
    split at h
    · cases h
    · obtain rfl := Except.ok.inj h
      rfl
  | .loop label 0, h => by cases h
  | .loop label 1, h => by
    obtain rfl := Except.ok.inj h
    rfl
  | .loop label (count + 2), h => by
    have hfst := fst_within body c (.loop label (count + 2))
    rw [h] at hfst
    have hcount : count + 2 ≠ 1 := by omega
    rw [closing, if_neg hcount]
    rw [opened_loop c label (Nat.le_add_left 2 count)] at h
    obtain rfl := Except.ok.inj h
    exact Prod.ext hfst (c.loop_snd label (Nat.le_add_left 2 count))
  | .ignoreFails pins, h => by
    simp only [opened, within, ignoreFails] at h ⊢
    split at h
    · cases h
    · rename_i ids hids
      obtain rfl := Except.ok.inj h
      obtain rfl := Pinout.ids_eq_ok hids
      rfl
  | .withoutVectors, h | .withoutComments, h => by
    obtain rfl := Except.ok.inj h
    rfl

theorem within_of_not_opened {c : Sequencer} {e : Fault} : ∀ {s : Scope}, c.opened s = .error e →
    c.within s body = (.error e, c.touch)
  | .timeset name period, h => by
    simp only [opened, within, withTimeset] at h ⊢
    split at h
    · rename_i heq
      obtain rfl := Except.error.inj h
      obtain rfl := after_of_settle_error heq
      rfl
    · cases h
  | .loop label 0, h => by
    obtain rfl := Except.error.inj h
    rfl
  | .loop label 1, h => by cases h
  | .loop label (count + 2), h => by
    rw [opened_loop c label (Nat.le_add_left 2 count)] at h
    cases h
  | .ignoreFails pins, h => by
    simp only [opened, within, ignoreFails] at h ⊢
    split at h
    · obtain rfl := Except.error.inj h
      rfl
    · cases h
  | .withoutVectors, h | .withoutComments, h => by cases h

end

/-- The end of a scope may change which timeset is active, but neither the timesets nor
the records. -/
theorem closing_frame (c : Sequencer) (s : Scope) (c' : Sequencer) :
    (c.closing s c').timing.sets = c'.timing.sets ∧ (c.closing s c').usedTimesets = c'.usedTimesets ∧
      (c.closing s c').bench.tape.records = c'.bench.tape.records := by
  cases s with
  | loop label count =>
    unfold closing leaveLoop
    dsimp only
    split
    · exact ⟨rfl, rfl, rfl⟩
    · split
      · exact ⟨rfl, rfl, Tape.records_push rfl⟩
      · exact ⟨rfl, rfl, rfl⟩
  | timeset name period | ignoreFails pins | withoutVectors | withoutComments => exact ⟨rfl, rfl, rfl⟩

theorem turns_of_closing {c c₁ : Sequencer} {s : Scope} (h : c.opened s = .ok c₁) (c' : Sequencer) :
    Turns c' (c.closing s c') := by
  rcases within_turns (fun _ => ((), c')) c s with ⟨e, c'', heq, -⟩ | ⟨c₂, c'', heq, -, hclose⟩
  · rw [within_of_opened _ h] at heq
    cases congrArg Prod.fst heq
  · rw [within_of_opened _ h] at heq
    obtain rfl := (Prod.mk.inj heq).2
    exact hclose

/-- A scope that opens runs its body between its beginning and its end. -/
theorem perform_of_opened {c c₁ : Sequencer} {s : Scope} {body : List Operation} (h : c.opened s = .ok c₁) :
    (Operation.scope s body).perform c = Performance.closed (.scope s body)
      (.ok ((Operation.performBody body c₁).answer, (Operation.performBody body c₁).log),
        c.closing s (Operation.performBody body c₁).after) := by
  rw [Operation.perform, within_of_opened _ h]
  rfl

theorem perform_of_not_opened {c : Sequencer} {s : Scope} {body : List Operation} {e : Fault}
    (h : c.opened s = .error e) :
    (Operation.scope s body).perform c = Performance.closed (.scope s body) (.error e, c.touch) := by
  rw [Operation.perform, within_of_not_opened _ h]

theorem opens_of_opened {c c₁ : Sequencer} : ∀ {s : Scope}, c.opened s = .ok c₁ → Opens c c₁
  | .timeset name period, h => by
    have haccount := c.setTimeset_account name period
    have hsettles := c.setTimeset_settles name period
    simp only [opened, within, withTimeset] at h
    split at h
    · cases h
    · rename_i heq
      rw [heq] at haccount hsettles
      obtain rfl := Except.ok.inj h
      cases hsettles.move rfl with
      | note hb =>
        exact ⟨haccount.timing, haccount.used, by rw [hb.bench], by rw [pins, hb.bench]; rfl⟩
  | .loop label 0, h => by cases h
  | .loop label 1, h => by
    obtain rfl := Except.ok.inj h
    exact ⟨.refl _, List.Subset.refl _, rfl, rfl⟩
  | .loop label (count + 2), h => by
    rw [opened_loop c label (Nat.le_add_left 2 count)] at h
    obtain rfl := Except.ok.inj h
    have hbefore : Opens c (c.beforeLoop label) := by
      unfold beforeLoop
      split <;> exact ⟨.refl _, List.Subset.refl _, rfl, rfl⟩
    unfold enterLoop
    split
    · exact ⟨hbefore.timing, hbefore.used, (Tape.records_push rfl).trans hbefore.records, hbefore.names⟩
    · exact ⟨hbefore.timing, hbefore.used, hbefore.records, hbefore.names⟩
  | .ignoreFails pins, h => by
    simp only [opened, within, ignoreFails] at h
    split at h
    · cases h
    · rename_i ids _
      obtain rfl := Except.ok.inj h
      exact ⟨.refl _, List.Subset.refl _, rfl, Pinout.names_foldl Pinout.names_mask ids _⟩
  | .withoutVectors, h | .withoutComments, h => by
    obtain rfl := Except.ok.inj h
    exact ⟨.refl _, List.Subset.refl _, rfl, rfl⟩

/-- The states of sequencers in which operations begin: new ones, those that an
operation leaves, and those in which the body of a scope begins. -/
inductive Occurs : Sequencer → Prop where
  | new (name : String) (pins : Pinout) (config : Config) : Occurs (new name pins config)
  | perform {c : Sequencer} (op : Operation) (hc : Occurs c) : Occurs (op.perform c).after
  | opened {c c₁ : Sequencer} {s : Scope} (hc : Occurs c) (h : c.opened s = .ok c₁) : Occurs c₁

theorem Occurs.valid {c : Sequencer} (h : c.Occurs) : c.timing.Valid := by
  induction h with
  | new => exact fun _ hi => nomatch hi
  | perform op _ ih => exact (op.steady_perform _).timing.valid ih
  | opened _ h ih => exact (opens_of_opened h).timing.valid ih

theorem Reachable.occurs {name : String} {pins : Pinout} {config : Config} {c : Sequencer}
    (h : Reachable name pins config c) : c.Occurs := by
  rcases h with rfl | ⟨ops, e, he, rfl⟩
  · exact .new name pins config
  · obtain ⟨c, hc, heq⟩ := Operation.eq_entry_of_mem_performAll (I := Occurs) (fun op _ hc => .perform op hc)
      .opened ops (.new name pins config) e he
    rw [heq]
    exact .perform e.operation hc

/-! ## What a scope restores -/

/-- A timeset that fails to be set leaves the timing alone, and one that was
set for a body only gives way to the one before. -/
theorem activeName?_withTimeset {β : Type} {body : Sequencer → β × Sequencer} (hbody : ∀ c, Steady c (body c).2)
    {c : Sequencer} (hc : c.timing.Valid) (name : String) (period : Option Duration) :
    (c.withTimeset name period body).2.timing.activeName? = c.timing.activeName? := by
  have hgrows := (c.setTimeset_account name period).timing
  rw [withTimeset]
  split
  · rename_i e c' heq
    unfold setTimeset at heq
    dsimp only at heq
    cases htiming : c.touch.timing.select name period with
    | error e =>
      rw [htiming] at heq
      obtain rfl := congrArg Prod.snd heq
      rfl
    | ok timing =>
      rw [htiming] at heq
      cases congrArg Prod.fst heq
  · rename_i c₁ heq
    rw [heq] at hgrows
    exact Timing.activeName?_restore hc (hgrows.trans (hbody c₁).timing)

/-- Whatever operations a scope's body consists of and wherever one of them
fails, when the scope is over the masks on every pin, the depths of inhibition
and the loop factor are as they were before it, and so is the active timeset
after a scope with a timeset of its own. -/
theorem scope_restores {c : Sequencer} (hc : c.Occurs) (s : Scope) (body : List Operation) :
    (∀ i, ((Operation.scope s body).perform c).after.pins.masks i = c.pins.masks i) ∧
      ((Operation.scope s body).perform c).after.inhibitVectors = c.inhibitVectors ∧
      ((Operation.scope s body).perform c).after.inhibitComments = c.inhibitComments ∧
      ((Operation.scope s body).perform c).after.loopFactor = c.loopFactor ∧
      ∀ name period, s = .timeset name period →
        ((Operation.scope s body).perform c).after.timing.activeName? = c.timing.activeName? := by
  have hbody (c : Sequencer) : Steady c (Operation.performBody body c).after :=
    steady_kept.performBody (fun op _ => op.steady_perform) c
  have hsteady : Steady c ((Operation.scope s body).perform c).after := Operation.steady_perform _ c
  refine ⟨fun i => ?_, hsteady.inhibitVectors, hsteady.inhibitComments, hsteady.loopFactor, ?_⟩
  · rw [Pinout.masks_eq, hsteady.depths, ← Pinout.masks_eq]
  · rintro name period rfl
    rw [Operation.perform, Performance.after_closed]
    exact activeName?_withTimeset hbody hc.valid name period

/-- A body that fails two scopes further in, with two masks on one pin. -/
def failingBody : List Operation :=
  [.scope (.ignoreFails ["a", "b", "a"]) [.scope .withoutVectors [.hold (some 4) none, .setPin "missing" .drive1]]]

def beforeScope : Sequencer :=
  ((Operation.setTimeset "outer" (some ⟨10000⟩)).perform
    (new "scopes" ⟨[⟨"a", .compare1, 0⟩, ⟨"b", .compare0, 0⟩]⟩ (.standard .j750))).after

theorem failing_scope_restores :
    beforeScope.Occurs ∧
      ((Operation.scope (.timeset "inner" (some ⟨5000⟩)) failingBody).perform beforeScope).answer.toBool = false ∧
      (∀ i, ((Operation.scope (.timeset "inner" (some ⟨5000⟩)) failingBody).perform beforeScope).after.pins.masks i =
        beforeScope.pins.masks i) ∧
      ((Operation.scope (.timeset "inner" (some ⟨5000⟩)) failingBody).perform beforeScope).after.timing.activeName? =
        some "outer" := by
  have hoccurs : beforeScope.Occurs := .perform _ (.new _ _ _)
  obtain ⟨hmasks, -, -, -, hname⟩ := scope_restores hoccurs (.timeset "inner" (some ⟨5000⟩)) failingBody
  refine ⟨hoccurs, by decide +kernel, hmasks, ?_⟩
  rw [hname "inner" (some ⟨5000⟩) rfl]
  decide +kernel

end Sequencer

end TestProgram
