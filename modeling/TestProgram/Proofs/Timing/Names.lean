import TestProgram.Timing.Timeset

/-!
# The names of timesets

Timesets are only ever added to a timing, and those in it keep their places
and their names (`Timing.Grows`), whatever periods and waves they are given
(`grows_select`, `grows_addWave`). A position that was active once therefore
leads to the same timeset whenever it is restored (`activeName?_restore`). No
two timesets have the same name, and none loses its period, so the timeset of a
vector is found again by its name (`get?_of_resolve`).
-/

namespace TestProgram

namespace Timing

def names (t : Timing) : List String := t.sets.map Timeset.name

/-- The name of the active timeset. -/
def activeName? (t : Timing) : Option String := t.current?.map Timeset.name

/-- The active position is that of a timeset. -/
def Valid (t : Timing) : Prop := ∀ i ∈ t.active, i < t.sets.length

/-- There is a timeset of this name, and it has a period. -/
def HasPeriod (t : Timing) (name : String) : Prop := ∃ s, t.get? name = some s ∧ s.period.isSome

/-- `t'` has the timesets of `t` in their places, and perhaps others after
them, with an active one among them if `t` has. Names stay different from one
another, and no timeset loses its period. -/
structure Grows (t t' : Timing) : Prop where
  names : t.names <+: t'.names
  valid : t.Valid → t'.Valid
  nodup : t.names.Nodup → t'.names.Nodup
  periods : ∀ {name : String}, t.HasPeriod name → t'.HasPeriod name

theorem Grows.refl (t : Timing) : Grows t t := ⟨List.prefix_rfl, id, id, id⟩

theorem Grows.trans {t t' t'' : Timing} (h : Grows t t') (h' : Grows t' t'') : Grows t t'' :=
  ⟨h.names.trans h'.names, h'.valid ∘ h.valid, h'.nodup ∘ h.nodup, h'.periods ∘ h.periods⟩

theorem length_names (t : Timing) : t.names.length = t.sets.length := List.length_map _

theorem activeName?_eq (t : Timing) : t.activeName? = t.active.bind (t.names[·]?) := by
  rw [activeName?, current?, Option.map_bind]
  congr 1
  funext i
  rw [Function.comp, names, List.getElem?_map]

theorem names_modify (sets : List Timeset) (i : Nat) {f : Timeset → Timeset} (hf : ∀ s, (f s).name = s.name) :
    (sets.modify i f).map Timeset.name = sets.map Timeset.name := by
  refine List.ext_getElem? fun j => ?_
  simp only [List.getElem?_map, List.getElem?_modify]
  cases sets[j]? with
  | none => rfl
  | some s => by_cases h : i = j <;> simp [h, hf]

/-- Timesets that keep their names and periods are found as before. -/
theorem hasPeriod_modify {sets : List Timeset} {active : Option Nat} {name : String} {f : Timeset → Timeset}
    (hname : ∀ s, (f s).name = s.name) (hperiod : ∀ s, s.period.isSome → (f s).period.isSome) :
    ∀ {i : Nat}, HasPeriod ⟨sets, active⟩ name → HasPeriod ⟨sets.modify i f, active⟩ name := by
  induction sets with
  | nil => exact fun ⟨s, hs, _⟩ => nomatch hs
  | cons q sets ih =>
    rintro i ⟨s, hs, hsome⟩
    have hfound (q : Timeset) (sets : List Timeset) : get? ⟨q :: sets, active⟩ name =
        if q.name = name then some q else get? ⟨sets, active⟩ name := by
      rw [get?, List.find?_cons]
      by_cases h : q.name = name
      · rw [if_pos h, h, beq_self_eq_true]
      · rw [if_neg h, beq_false_of_ne h]
        rfl
    rw [hfound] at hs
    by_cases hq : q.name = name
    · obtain rfl := Option.some.inj ((if_pos hq).symm.trans hs)
      cases i with
      | zero => exact ⟨f q, by rw [List.modify_zero_cons, hfound, if_pos ((hname q).trans hq)], hperiod q hsome⟩
      | succ i => exact ⟨q, by rw [List.modify_succ_cons, hfound, if_pos hq], hsome⟩
    · rw [if_neg hq] at hs
      cases i with
      | zero => exact ⟨s, by rw [List.modify_zero_cons, hfound, if_neg (hname q ▸ hq), hs], hsome⟩
      | succ i =>
        obtain ⟨s', hs', hsome'⟩ := ih (i := i) ⟨s, hs, hsome⟩
        exact ⟨s', by rw [List.modify_succ_cons, hfound, if_neg hq, hs'], hsome'⟩

/-- A mention leads to a timeset, which is new at most at the end. -/
theorem mention_spec (t : Timing) (name : String) :
    Grows t (t.mention name).2 ∧ (t.mention name).1 < (t.mention name).2.sets.length ∧
      (t.mention name).2.active = t.active := by
  unfold mention
  split
  · rename_i i hi
    obtain ⟨hlt, -⟩ := List.findIdx?_eq_some_iff_getElem.mp hi
    exact ⟨.refl t, hlt, rfl⟩
  · rename_i hnone
    have hnew : name ∉ t.names := fun hmem => by
      obtain ⟨s, hs, heq⟩ := List.mem_map.mp hmem
      have hne := List.findIdx?_eq_none_iff.mp hnone s hs
      rw [heq, beq_self_eq_true] at hne
      exact nomatch hne
    refine ⟨⟨?_, fun ht i hi => ?_, fun hnodup => ?_, ?_⟩, by simp, rfl⟩
    · rw [names, names, List.map_append]
      exact List.prefix_append _ _
    · rw [List.length_append]
      exact Nat.lt_add_right 1 (ht i hi)
    · rw [names, List.map_append]
      have hlast : [name].Nodup := List.nodup_cons.mpr ⟨List.not_mem_nil, List.nodup_nil⟩
      refine List.nodup_append.mpr ⟨hnodup, hlast, fun n hn n' hn' => ?_⟩
      obtain rfl : n' = name := List.mem_singleton.mp hn'
      exact fun heq => hnew (heq ▸ hn)
    · rintro n ⟨s, hs, hsome⟩
      exact ⟨s, by rw [get?, List.find?_append, show t.sets.find? _ = some s from hs, Option.some_or], hsome⟩

/-- A timing finds its timesets by their names. -/
theorem get?_of_mem (active : Option Nat) {s : Timeset} : ∀ {sets : List Timeset},
    (sets.map Timeset.name).Nodup → s ∈ sets → get? ⟨sets, active⟩ s.name = some s
  | q :: sets, hnodup, hs => by
    obtain ⟨hq, hsets⟩ := List.nodup_cons.mp hnodup
    rcases List.mem_cons.mp hs with rfl | hs
    · rw [get?, List.find?_cons, beq_self_eq_true]
    · have hne : (q.name == s.name) = false := beq_false_of_ne fun heq => hq (List.mem_map.mpr ⟨s, hs, heq.symm⟩)
      rw [get?, List.find?_cons, hne]
      exact get?_of_mem active hsets hs

theorem name_of_get? {t : Timing} {name : String} {s : Timeset} (h : t.get? name = some s) : s.name = name := by
  have hbeq := List.find?_some h
  exact eq_of_beq hbeq

/-- The timeset that an operation works under is the one that is named or the
active one, and has a period. -/
theorem resolve_eq_ok {t : Timing} {name : Option String} {operation : String} {s : Timeset}
    (h : t.resolve name operation = .ok s) :
    s.period.isSome ∧ ((∃ n, name = some n ∧ t.get? n = some s) ∨ t.current? = some s) := by
  have hperiod {q : Timeset} (h : (if q.period.isSome then .ok q else .error (.noActiveTimeset operation) :
      Except Fault Timeset) = .ok s) : q = s ∧ s.period.isSome := by
    split at h
    · rename_i hsome
      obtain rfl := Except.ok.inj h
      exact ⟨rfl, hsome⟩
    · exact nomatch h
  unfold resolve at h
  cases name with
  | some n =>
    dsimp only at h
    cases hn : t.get? n with
    | some q =>
      rw [hn] at h
      obtain ⟨rfl, hsome⟩ := hperiod h
      exact ⟨hsome, .inl ⟨n, rfl, hn⟩⟩
    | none =>
      rw [hn] at h
      exact nomatch h
  | none =>
    dsimp only at h
    cases hcurrent : t.current? with
    | some q =>
      rw [hcurrent] at h
      obtain ⟨rfl, hsome⟩ := hperiod h
      exact ⟨hsome, .inr rfl⟩
    | none =>
      rw [hcurrent] at h
      exact nomatch h

/-- It is found again by its name. -/
theorem get?_of_resolve {t : Timing} (hnodup : t.names.Nodup) {name : Option String} {operation : String}
    {s : Timeset} (h : t.resolve name operation = .ok s) : t.get? s.name = some s ∧ s.period.isSome := by
  obtain ⟨hperiod, ⟨n, -, hn⟩ | hcurrent⟩ := resolve_eq_ok h
  · exact ⟨by rwa [name_of_get? hn], hperiod⟩
  · obtain ⟨i, -, hi⟩ := Option.bind_eq_some_iff.mp hcurrent
    exact ⟨get?_of_mem t.active hnodup (List.mem_of_getElem? hi), hperiod⟩

/-- A timeset that is mentioned can be changed, if not in its name. -/
theorem grows_modify {t : Timing} {name : String} {active : Option Nat} {f : Timeset → Timeset}
    (hname : ∀ s, (f s).name = s.name) (hperiod : ∀ s, s.period.isSome → (f s).period.isSome)
    (hactive : active = t.active ∨ active = some (t.mention name).1) :
    Grows t ⟨(t.mention name).2.sets.modify (t.mention name).1 f, active⟩ := by
  obtain ⟨hgrows, hlt, hsame⟩ := t.mention_spec name
  generalize t.mention name = mentioned at hgrows hlt hsame hactive
  have hnames : names ⟨mentioned.2.sets.modify mentioned.1 f, active⟩ = mentioned.2.names := names_modify _ _ hname
  refine ⟨hnames ▸ hgrows.names, fun ht i hi => ?_, fun hnodup => hnames ▸ hgrows.nodup hnodup, fun h => ?_⟩
  · rw [List.length_modify]
    rcases hactive with rfl | rfl
    · exact hgrows.valid ht i (hsame ▸ hi)
    · obtain rfl := Option.some.inj hi
      exact hlt
  · exact hasPeriod_modify hname hperiod (hgrows.periods h)

theorem grows_select {t t' : Timing} {name : String} {period : Option Duration}
    (h : t.select name period = .ok t') : Grows t t' := by
  unfold select at h
  split at h
  · exact nomatch h
  · obtain rfl := Except.ok.inj h
    refine grows_modify (fun _ => rfl) (fun s hs => ?_) (.inr rfl)
    show ((period.or s.period).or t.currentPeriod?).isSome = true
    rw [Option.isSome_or, Option.isSome_or, hs, Bool.or_true, Bool.true_or]

theorem grows_addWave {t t' : Timing} {name : String} {w : Wave} (h : t.addWave name w = .ok t') :
    Grows t t' := by
  obtain ⟨_, -, h⟩ := bind_eq_ok.mp h
  obtain ⟨_, -, h⟩ := bind_eq_ok.mp h
  obtain rfl := Except.ok.inj h
  exact grows_modify (fun _ => rfl) (fun _ hs => hs) (.inl (t.mention_spec name).2.2)

/-- A timing that has grown can go back to the position that was active. -/
theorem Grows.restore {t t' : Timing} (h : Grows t t') : Grows t (t'.restore t.active) := by
  refine ⟨h.names, fun ht i hi => ?_, h.nodup, h.periods⟩
  have hlength := h.names.length_le
  rw [length_names, length_names] at hlength
  exact Nat.lt_of_lt_of_le (ht i hi) hlength

theorem activeName?_restore {t t' : Timing} (ht : t.Valid) (h : Grows t t') :
    (t'.restore t.active).activeName? = t.activeName? := by
  rw [activeName?_eq, activeName?_eq, restore]
  cases hactive : t.active with
  | none => rfl
  | some i =>
    have hi : i < t.names.length := by
      rw [length_names]
      exact ht i hactive
    have hi' : i < t'.names.length := Nat.lt_of_lt_of_le hi h.names.length_le
    show t'.names[i]? = t.names[i]?
    rw [List.getElem?_eq_getElem hi, List.getElem?_eq_getElem hi', h.names.getElem hi]

end Timing

end TestProgram
