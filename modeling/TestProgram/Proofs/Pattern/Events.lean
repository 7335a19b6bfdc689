import TestProgram.Pattern.Threads

/-!
# Events of a thread plan

A plan has no events but those that the threads ask for
(`exists_of_mem_plan`): laying out, numbering and sorting only place them.
-/

namespace TestProgram

namespace Threads

theorem mem_of_mem_segments : ∀ {steps segment : List ThreadStep} {s : ThreadStep},
    segment ∈ segments steps → s ∈ segment → s ∈ steps
  | [], segment, s, h, hs => by
    rw [List.mem_singleton.mp h] at hs
    exact hs
  | step :: steps, segment, s, h, hs => by
    have ih {segment : List ThreadStep} : segment ∈ segments steps → s ∈ segment → s ∈ steps :=
      mem_of_mem_segments
    rw [segments.eq_def] at h
    split at h
    · rename_i heq
      exact nomatch heq
    · obtain ⟨rfl, rfl⟩ := List.cons.inj ‹_ = _›
      rcases List.mem_cons.mp h with rfl | h
      · exact nomatch hs
      · exact List.mem_cons_of_mem _ (ih h hs)
    · obtain ⟨rfl, rfl⟩ := List.cons.inj ‹_ = _›
      split at h
      · rw [List.mem_singleton.mp h] at hs
        exact List.mem_cons.mpr ((List.mem_cons.mp hs).imp_right fun hs => nomatch hs)
      · rename_i first rest heq
        rcases List.mem_cons.mp h with rfl | h
        · refine List.mem_cons.mpr ((List.mem_cons.mp hs).imp_right fun hs => ih ?_ hs)
          rw [heq]
          exact List.mem_cons_self
        · refine List.mem_cons_of_mem _ (ih ?_ hs)
          rw [heq]
          exact List.mem_cons_of_mem _ h

theorem exists_of_mem_rounds {threads : List Thread} {round : List (List ThreadStep)}
    {segment : List ThreadStep} {s : ThreadStep} (hr : round ∈ rounds threads) (h : segment ∈ round)
    (hs : s ∈ segment) : ∃ t ∈ threads, s ∈ t.steps := by
  obtain ⟨k, -, rfl⟩ := List.mem_map.mp hr
  obtain ⟨parts, hp, rfl⟩ := List.mem_map.mp h
  obtain ⟨t, ht, rfl⟩ := List.mem_map.mp hp
  refine ⟨t, ht, ?_⟩
  cases hk : (segments t.steps)[k]? with
  | none =>
    rw [hk] at hs
    exact nomatch hs
  | some segment =>
    rw [hk] at hs
    exact mem_of_mem_segments (List.mem_of_getElem? hk) hs

variable {toCycles : Duration → Except Fault Nat}

theorem mem_of_mem_laySegment {thread : Nat} : ∀ {steps : List ThreadStep} {cursor seq stop : Nat}
    {events : List ThreadEvent}, laySegment toCycles thread cursor seq steps = .ok (stop, events) →
      ∀ e ∈ events, .set e.pin e.state ∈ steps
  | [], _, _, _, _, h, e, he => by
    obtain ⟨rfl, rfl⟩ := Prod.mk.inj (Except.ok.inj h)
    exact nomatch he
  | .set pin state :: steps, _, _, _, _, h, e, he => by
    obtain ⟨⟨_, events⟩, hl, h⟩ := bind_eq_ok.mp h
    obtain ⟨rfl, rfl⟩ := Prod.mk.inj (Except.ok.inj h)
    rcases List.mem_cons.mp he with rfl | he
    · exact List.mem_cons_self
    · exact List.mem_cons_of_mem _ (mem_of_mem_laySegment hl e he)
  | .cycles _ :: _, _, _, _, _, h, e, he =>
    List.mem_cons_of_mem _ (mem_of_mem_laySegment (by rw [laySegment] at h; exact h) e he)
  | .wait _ :: _, _, _, _, _, h, e, he => by
    obtain ⟨_, -, h⟩ := bind_eq_ok.mp h
    exact List.mem_cons_of_mem _ (mem_of_mem_laySegment h e he)
  | .sync :: _, _, _, _, _, h, e, he =>
    List.mem_cons_of_mem _ (mem_of_mem_laySegment (by rw [laySegment] at h; exact h) e he)

theorem exists_of_mem_layRound {base : Nat} : ∀ {segments : List (List ThreadStep)} {thread seq stop : Nat}
    {events : List ThreadEvent}, layRound toCycles base thread seq segments = .ok (stop, events) →
      ∀ e ∈ events, ∃ segment ∈ segments, .set e.pin e.state ∈ segment
  | [], _, _, _, _, h, e, he => by
    obtain ⟨rfl, rfl⟩ := Prod.mk.inj (Except.ok.inj h)
    exact nomatch he
  | segment :: segments, _, _, _, _, h, e, he => by
    obtain ⟨⟨_, first⟩, hl, h⟩ := bind_eq_ok.mp h
    obtain ⟨⟨_, more⟩, hr, h⟩ := bind_eq_ok.mp h
    obtain ⟨rfl, rfl⟩ := Prod.mk.inj (Except.ok.inj h)
    rcases List.mem_append.mp he with he | he
    · exact ⟨segment, List.mem_cons_self, mem_of_mem_laySegment hl e he⟩
    · obtain ⟨s, hs, hmem⟩ := exists_of_mem_layRound hr e he
      exact ⟨s, List.mem_cons_of_mem _ hs, hmem⟩

theorem exists_of_mem_layRounds : ∀ {rounds : List (List (List ThreadStep))} {base seq total : Nat}
    {events : List ThreadEvent}, layRounds toCycles base seq rounds = .ok (total, events) →
      ∀ e ∈ events, ∃ round ∈ rounds, ∃ segment ∈ round, .set e.pin e.state ∈ segment
  | [], _, _, _, _, h, e, he => by
    obtain ⟨rfl, rfl⟩ := Prod.mk.inj (Except.ok.inj h)
    exact nomatch he
  | round :: rounds, _, _, _, _, h, e, he => by
    obtain ⟨⟨_, first⟩, hl, h⟩ := bind_eq_ok.mp h
    obtain ⟨⟨_, more⟩, hr, h⟩ := bind_eq_ok.mp h
    obtain ⟨rfl, rfl⟩ := Prod.mk.inj (Except.ok.inj h)
    rcases List.mem_append.mp he with he | he
    · exact ⟨round, List.mem_cons_self, exists_of_mem_layRound hl e he⟩
    · obtain ⟨r, hmem, hs⟩ := exists_of_mem_layRounds hr e he
      exact ⟨r, List.mem_cons_of_mem _ hmem, hs⟩

/-- Every event of a plan is a step of one of the threads. -/
theorem exists_of_mem_plan {threads : List Thread} {p : ThreadPlan} (h : plan toCycles threads = .ok p) :
    ∀ e ∈ p.events, ∃ t ∈ threads, .set e.pin e.state ∈ t.steps := by
  intro e he
  obtain ⟨⟨total, events⟩, hl, h⟩ := bind_eq_ok.mp h
  obtain rfl := Except.ok.inj h
  obtain ⟨round, hr, segment, hmem, hs⟩ := exists_of_mem_layRounds hl e (List.mem_mergeSort.mp he)
  exact exists_of_mem_rounds hr hmem hs

end Threads

end TestProgram
