import TestProgram.Proofs.Sequencer.Scopes
import TestProgram.Proofs.Sequencer.Tiling

/-!
# The periods of vectors

A vector is held under a timeset that has a period, and the timeset is then in
use by the pattern. Both stay so until the pattern is closed (`Timed`), since
timesets keep their names and periods, and no two of them have the same name.
Finished patterns are those of such sequencers (`timed_of_finish`), so the
period of every record is found among the timesets of its pattern
(`Timed.exists_period`).
-/

namespace TestProgram

theorem Tape.timeset_of_mem_storedParts {r p : VectorRecord} (h : p ∈ storedParts r) : p.timeset = r.timeset := by
  unfold storedParts at h
  dsimp only at h
  split at h
  · obtain rfl := List.mem_singleton.mp h
    rfl
  · rcases List.mem_cons.mp h with rfl | h
    · rfl
    · obtain rfl := List.mem_singleton.mp h
      rfl

theorem Moment.timeset_of_mem_records {ceiling : Option Nat} {timeset : String} {r : VectorRecord} :
    ∀ {slices : List Slice} {s : Moment} {m : Marks}, r ∈ records ceiling timeset s m slices → r.timeset = timeset
  | _ :: _, _, _, h => by
    rcases List.mem_append.mp h with h | h
    · exact (of_mem_records _ _ h).2.1
    · exact timeset_of_mem_records h

/-- A timeset that is in use is found among those in use. -/
theorem Timing.find?_used {t : Timing} {name : String} {s : Timeset} (hs : t.get? name = some s) :
    ∀ {used : List String}, name ∈ used → (used.filterMap t.get?).find? (fun s => s.name == name) = some s
  | n :: used, hname => by
    by_cases heq : n = name
    · rw [heq, List.filterMap_cons_some hs, List.find?_cons, name_of_get? hs, beq_self_eq_true]
    · have hused : name ∈ used := List.mem_of_ne_of_mem (Ne.symm heq) hname
      cases hn : t.get? n with
      | none =>
        rw [List.filterMap_cons_none hn]
        exact find?_used hs hused
      | some q =>
        have hne : (q.name == name) = false := beq_false_of_ne (name_of_get? hn ▸ heq)
        rw [List.filterMap_cons_some hn, List.find?_cons, hne]
        exact find?_used hs hused

namespace Sequencer

/-- Timesets have different names, and the records are held under timesets that
are in use and have a period. -/
structure Timed (c : Sequencer) : Prop where
  nodup : c.timing.names.Nodup
  records : ∀ r ∈ c.bench.tape.records, r.timeset ∈ c.usedTimesets ∧ c.timing.HasPeriod r.timeset

namespace Timed

variable {c c' : Sequencer}

/-- The records of before stay under their timesets. -/
theorem grow (h : Timed c) (hgrows : c.timing.Grows c'.timing) (hused : c.usedTimesets ⊆ c'.usedTimesets) :
    ∀ r ∈ c.bench.tape.records, r.timeset ∈ c'.usedTimesets ∧ c'.timing.HasPeriod r.timeset := fun r hr =>
  have ⟨hmem, hperiod⟩ := h.records r hr
  ⟨hused hmem, hgrows.periods hperiod⟩

theorem step (h : Timed c) (hstep : Step c c') : Timed c' := by
  have hold := h.grow hstep.steady.timing hstep.used
  refine ⟨hstep.steady.timing.nodup h.nodup, ?_⟩
  cases hstep with
  | quiet hs hx hu ht => rwa [ht]
  | comment text hs hx hu ht => rwa [ht, Tape.records_push rfl]
  | store hs hx hu ht =>
    obtain ⟨r, hr, hparts⟩ := Tape.mem_records_markStore ht
    intro q hq
    rcases hparts q hq with hq | hq
    · exact hold q hq
    · rw [Tape.timeset_of_mem_storedParts hq]
      exact hold r hr
  | emit hs hi hn hresolve hx hu ht hb =>
    rw [Bench.records_of_hold hb]
    refine List.forall_mem_append.mpr ⟨hold, fun r hr => ?_⟩
    rw [Moment.timeset_of_mem_records hr]
    exact ⟨ht, hs.timing.periods ⟨_, Timing.get?_of_resolve h.nodup hresolve⟩⟩

theorem opens (h : Timed c) (hopens : Opens c c') : Timed c' :=
  ⟨hopens.timing.nodup h.nodup, by rw [hopens.records]; exact h.grow hopens.timing hopens.used⟩

/-- Which timeset is active does not matter. -/
theorem frame (h : Timed c) (hsets : c'.timing.sets = c.timing.sets) (hused : c'.usedTimesets = c.usedTimesets)
    (hrecords : c'.bench.tape.records = c.bench.tape.records) : Timed c' := by
  refine ⟨by rw [Timing.names, hsets]; exact h.nodup, ?_⟩
  rw [hrecords, hused]
  intro r hr
  obtain ⟨hmem, s, hs, hperiod⟩ := h.records r hr
  exact ⟨hmem, s, by rw [Timing.get?, hsets]; exact hs, hperiod⟩

end Timed

theorem within_timed {β : Type} {body : Sequencer → β × Sequencer} (hbody : ∀ c, Timed c → Timed (body c).2)
    {c : Sequencer} (h : Timed c) (s : Scope) : Timed (c.within s body).2 := by
  cases hopen : c.opened s with
  | error e =>
    rw [within_of_not_opened body hopen]
    exact h.frame rfl rfl rfl
  | ok c₁ =>
    have hdone := hbody c₁ (h.opens (opens_of_opened hopen))
    obtain ⟨hsets, hused, hrecords⟩ := c.closing_frame s (body c₁).2
    rw [within_of_opened body hopen]
    exact hdone.frame hsets hused hrecords

open Operation in
theorem timed_kept : Kept (fun _ => True) (fun c c' => Timed c → Timed c') where
  refl _ := id
  trans h h' := h' ∘ h
  leaf {op} c hop _ h := by
    cases hcloses : op.closes with
    | false => exact (op.perform_steps c hop hcloses).keep (fun hstep hc => hc.step hstep) h
    | true =>
      obtain ⟨platforms, rfl⟩ := eq_finish_of_closes hcloses
      exact ⟨h.nodup, List.forall_mem_nil _⟩
  scope s _ hbody h := within_timed hbody h s

theorem Timed.perform {c : Sequencer} (h : Timed c) (op : Operation) : Timed (op.perform c).after :=
  timed_kept.perform (op.all_of_forall fun _ => trivial) c h

/-- In whatever state an operation begins, it is timed and has the pins of the
first one. -/
theorem timed_of_mem_log (name : String) (pins : Pinout) (config : Config) (ops : List Operation) :
    ∀ e ∈ (Operation.performAll ops (new name pins config)).1,
      ∃ c, (Timed c ∧ c.pins.names = pins.names) ∧ e = e.operation.entry c := by
  have hperform (op : Operation) (c : Sequencer) (h : Timed c ∧ c.pins.names = pins.names) :
      Timed (op.perform c).after ∧ (op.perform c).after.pins.names = pins.names := by
    refine ⟨h.1.perform op, ?_⟩
    exact ((op.path_perform c).keep (P := fun c => c.pins.names = pins.names) (fun hm heq => hm.names.trans heq) h.2).2
  have hopened {c c₁ : Sequencer} {s : Scope} (h : Timed c ∧ c.pins.names = pins.names) (hopen : c.opened s = .ok c₁) :
      Timed c₁ ∧ c₁.pins.names = pins.names :=
    have hopens := opens_of_opened hopen
    ⟨h.1.opens hopens, hopens.names.trans h.2⟩
  have hnew : Timed (new name pins config) ∧ (new name pins config).pins.names = pins.names :=
    ⟨⟨List.nodup_nil, List.forall_mem_nil _⟩, rfl⟩
  exact Operation.eq_entry_of_mem_performAll hperform hopened ops hnew

/-- A pattern is finished by a sequencer that is timed and has the pins of the
first one. Its timesets stay as they are. -/
theorem timed_of_finish (name : String) (pins : Pinout) (config : Config) (ops : List Operation) :
    ∀ e ∈ (Operation.performAll ops (new name pins config)).1, ∀ platforms, e.operation = .finish platforms →
      ∃ c texts, Timed c ∧ c.pins.names = pins.names ∧ e.answer = .ok (.finished c.pattern texts) ∧
        e.after.timing = c.timing := by
  intro e he platforms hfinish
  obtain ⟨c, ⟨htimed, hnames⟩, heq⟩ := timed_of_mem_log name pins config ops e he
  have hanswer : e.answer = .ok (.finished c.pattern
      (platforms.map fun t => (t, t.render ["of " ++ c.pattern.name] c.pattern))) := by
    rw [heq, hfinish]
    rfl
  have hafter : e.after.timing = c.timing := by
    rw [heq, hfinish]
    rfl
  exact ⟨c, _, htimed, hnames, hanswer, hafter⟩

/-- The period of every record is found among the timesets in use. -/
theorem Timed.exists_period {c : Sequencer} (h : Timed c) :
    ∀ r ∈ c.pattern.vectors, ∃ d, CommandScript.period c.pattern.timesets r.timeset = .ok d := by
  intro r hr
  obtain ⟨hused, s, hs, hperiod⟩ := h.records r hr
  obtain ⟨d, hd⟩ := Option.isSome_iff_exists.mp hperiod
  refine ⟨d, ?_⟩
  rw [CommandScript.period, pattern, Timing.find?_used hs hused, Option.bind_some, hd]

end Sequencer

end TestProgram
