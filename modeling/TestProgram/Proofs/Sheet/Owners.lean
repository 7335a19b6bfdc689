import TestProgram.Registry

/-!
# Owners of names

A name belongs to the sheet that has registered it first (`owner?_ofCalls`). The registry keeps
that sheet only. It refuses the name to the sheet that owns it, and gives each other sheet a
warning, as often as it registers the name (`register_ofCalls`). So a sheet that repeats a name
is refused it, unless another sheet has had the name before both.
-/

namespace TestProgram.Registry

/-- The registry after a call, whether it is refused or not. -/
def after (r : Registry) (call : RegistryEntry) : Registry :=
  match r.register call.kind call.sheet call.name with
  | .ok r' => r'
  | .error _ => r

/-- The registry after calls. -/
def ofCalls (calls : List RegistryEntry) : Registry := calls.foldl after empty

/-- The sheet of the first call for a name. -/
def firstSheet? (calls : List RegistryEntry) (kind name : String) : Option String :=
  (calls.find? fun c => c.kind == kind && c.name == name).map RegistryEntry.sheet

/-- There is a call for the name by another sheet. -/
def HadElsewhere (calls : List RegistryEntry) (kind sheet name : String) : Prop :=
  ∃ c ∈ calls, c.kind = kind ∧ c.name = name ∧ c.sheet ≠ sheet

variable {calls : List RegistryEntry} {kind sheet name : String}

/-! ## The first call for a name -/

theorem firstSheet?_append (calls calls' : List RegistryEntry) (kind name : String) :
    firstSheet? (calls ++ calls') kind name = (firstSheet? calls kind name).or (firstSheet? calls' kind name) := by
  rw [firstSheet?, List.find?_append, Option.map_or, firstSheet?, firstSheet?]

theorem exists_of_firstSheet? (h : firstSheet? calls kind name = some sheet) : ⟨kind, name, sheet⟩ ∈ calls := by
  obtain ⟨c, hfind, rfl⟩ := Option.map_eq_some_iff.mp h
  have hname := List.find?_some hfind
  rw [Bool.and_eq_true, beq_iff_eq, beq_iff_eq] at hname
  obtain ⟨rfl, rfl⟩ := hname
  exact List.mem_of_find?_eq_some hfind

theorem firstSheet?_eq_none (h : firstSheet? calls kind name = none) :
    ∀ c ∈ calls, c.kind = kind → c.name ≠ name := by
  intro c hc hkind hname
  have hnone := List.find?_eq_none.mp (Option.map_eq_none_iff.mp h) c hc
  rw [hkind, hname, beq_self_eq_true, beq_self_eq_true] at hnone
  exact hnone rfl

/-! ## Calls -/

/-- The registry refuses a name to the sheet that owns it. -/
theorem register_eq_error {r : Registry} :
    r.register kind sheet name = .error (.duplicateName sheet name) ↔ r.owner? kind name = some sheet := by
  unfold register
  cases r.owner? kind name with
  | none => exact iff_of_false nofun nofun
  | some owner =>
    dsimp only
    split
    · rename_i heq
      exact iff_of_true rfl (congrArg some heq)
    · rename_i hne
      exact iff_of_false nofun fun h => hne (Option.some.inj h)

theorem register_of_owner {r : Registry} {owner : String} (h : r.owner? kind name = some owner) (hne : owner ≠ sheet) :
    r.register kind sheet name = .ok { r with warnings := r.warnings ++ [.sharedName kind name sheet owner] } := by
  unfold register
  rw [h]
  exact if_neg hne

theorem register_of_free {r : Registry} (h : r.owner? kind name = none) :
    r.register kind sheet name = .ok { r with entries := r.entries ++ [⟨kind, name, sheet⟩] } := by
  unfold register
  rw [h]

/-- A name without an owner goes to the sheet that registers it. -/
theorem entries_after (r : Registry) (c : RegistryEntry) : (r.after c).entries =
    r.entries ++ if r.owner? c.kind c.name = none then [c] else [] := by
  unfold after
  cases howner : r.owner? c.kind c.name with
  | none =>
    rw [register_of_free howner]
    rfl
  | some owner =>
    rw [if_neg (Option.some_ne_none owner), List.append_nil]
    by_cases hsame : owner = c.sheet
    · rw [register_eq_error.mpr (howner.trans (congrArg some hsame))]
    · rw [register_of_owner howner hsame]

theorem owner?_after (r : Registry) (c : RegistryEntry) (kind name : String) :
    (r.after c).owner? kind name = (r.owner? kind name).or (firstSheet? [c] kind name) := by
  have howner (r : Registry) (kind name : String) : r.owner? kind name = firstSheet? r.entries kind name := rfl
  rw [howner, entries_after, firstSheet?_append, ← howner]
  split
  · rfl
  · rename_i howned
    -- The name of the call has an owner already, so it makes no difference to what it is.
    by_cases hc : c.kind = kind ∧ c.name = name
    · obtain ⟨rfl, rfl⟩ := hc
      obtain ⟨owner, hsome⟩ := Option.ne_none_iff_exists'.mp howned
      rw [hsome]
      rfl
    · have hother : firstSheet? [c] kind name = none := by
        rw [firstSheet?, Option.map_eq_none_iff, List.find?_eq_none]
        simpa using hc
      rw [hother]
      rfl

/-- The owner of a name is the sheet of the first call for it. -/
theorem owner?_ofCalls (calls : List RegistryEntry) (kind name : String) :
    (ofCalls calls).owner? kind name = firstSheet? calls kind name := by
  have hfold : ∀ (calls : List RegistryEntry) (r : Registry),
      (calls.foldl after r).owner? kind name = (r.owner? kind name).or (firstSheet? calls kind name) := by
    intro calls
    induction calls with
    | nil => exact fun r => Option.or_none.symm
    | cons c calls ih =>
      intro r
      rw [List.foldl_cons, ih, owner?_after, Option.or_assoc, ← firstSheet?_append, List.singleton_append]
  exact hfold calls empty

/-- What a call does, after other calls. The registry refuses the name to the sheet of the first call
for it. All other calls succeed, with a warning if another sheet has had the name. So a sheet is
refused just what it has registered before, unless another sheet was the first to do so. -/
theorem register_ofCalls (calls : List RegistryEntry) (kind sheet name : String) :
    (ofCalls calls).owner? kind name = firstSheet? calls kind name ∧
    ((ofCalls calls).register kind sheet name = .error (.duplicateName sheet name) ↔
      firstSheet? calls kind name = some sheet) ∧
    (firstSheet? calls kind name ≠ some sheet →
      ∃ r, (ofCalls calls).register kind sheet name = .ok r ∧
        (HadElsewhere calls kind sheet name → ∃ owner, firstSheet? calls kind name = some owner ∧
          r.warnings = (ofCalls calls).warnings ++ [.sharedName kind name sheet owner]) ∧
        (¬ HadElsewhere calls kind sheet name → r.warnings = (ofCalls calls).warnings)) ∧
    (((ofCalls calls).register kind sheet name = .error (.duplicateName sheet name) ↔
      ⟨kind, name, sheet⟩ ∈ calls) ↔ (⟨kind, name, sheet⟩ ∈ calls → firstSheet? calls kind name = some sheet)) := by
  have howner := owner?_ofCalls calls kind name
  have hrefused : (ofCalls calls).register kind sheet name = .error (.duplicateName sheet name) ↔
      firstSheet? calls kind name = some sheet := by
    rw [register_eq_error, howner]
  refine ⟨howner, hrefused, fun hfirst => ?_, ?_⟩
  · cases hsome : firstSheet? calls kind name with
    | none =>
      refine ⟨_, register_of_free (howner.trans hsome), fun ⟨c, hc, hkind, hname, _⟩ => ?_, fun _ => rfl⟩
      exact absurd hname (firstSheet?_eq_none hsome c hc hkind)
    | some owner =>
      have hne : owner ≠ sheet := fun heq => hfirst (heq ▸ hsome)
      refine ⟨_, register_of_owner (howner.trans hsome) hne, fun _ => ⟨owner, rfl, rfl⟩, fun hnowhere => ?_⟩
      exact absurd ⟨_, exists_of_firstSheet? hsome, rfl, rfl, hne⟩ hnowhere
  · rw [hrefused]
    exact ⟨fun h => h.mpr, fun h => ⟨exists_of_firstSheet?, h⟩⟩

/-- Two sheets with the same name. -/
def sharingCalls : List RegistryEntry := [⟨"instance", "n", "a"⟩, ⟨"instance", "n", "b"⟩]

theorem sharingCalls_firstSheet? : firstSheet? sharingCalls "instance" "n" = some "a" := by decide

/-- The second sheet registers the name once more and gets another warning. -/
theorem sharingCalls_repeated : ∃ r, (ofCalls sharingCalls).register "instance" "b" "n" = .ok r ∧
    r.warnings = (ofCalls sharingCalls).warnings ++ [.sharedName "instance" "n" "b" "a"] := by
  obtain ⟨-, -, haccepted, -⟩ := register_ofCalls sharingCalls "instance" "b" "n"
  obtain ⟨r, hr, hwarned, -⟩ := haccepted (by rw [sharingCalls_firstSheet?]; decide)
  obtain ⟨owner, howner, hwarnings⟩ := hwarned ⟨⟨"instance", "n", "a"⟩, List.mem_cons_self .., rfl, rfl, by decide⟩
  obtain rfl := Option.some.inj (sharingCalls_firstSheet?.symm.trans howner)
  exact ⟨r, hr, hwarnings⟩

/-- A sheet is not always refused a name that it has registered before. -/
theorem not_forall_repeated_refused : ¬ ∀ (calls : List RegistryEntry) (kind sheet name : String),
    (ofCalls calls).register kind sheet name = .error (.duplicateName sheet name) ↔ ⟨kind, name, sheet⟩ ∈ calls := by
  intro h
  have hrefused := (h sharingCalls "instance" "b" "n").mpr (by decide)
  have howner := register_eq_error.mp hrefused
  rw [owner?_ofCalls, sharingCalls_firstSheet?] at howner
  exact absurd howner (by decide)

end TestProgram.Registry
