import TestProgram.Proofs.Flow.Gates
import TestProgram.Proofs.Text.Splitting

/-!
# Jobs of lines

A line has the jobs of the scopes around it, from the outermost to the innermost one, and then those that its own
attributes list, each of them once (`Addition.hasJobs_line`). When the flow is finished they go into the job column
(`FlowLine.jobCell_sealed`), which so tells the job scopes that a line was added in, however these are nested and
left (`FlowOperation.jobs_draft`).
-/

namespace TestProgram

/-! ## Jobs of a line -/

/-- A list of jobs keeps the first occurrence of each. -/
theorem FlowLine.foldl_addJob (jobs known : List String) :
    jobs.foldl addJob known = known ++ (jobs.removeAll known).eraseDups := by
  induction jobs generalizing known with
  | nil => exact (List.append_nil known).symm
  | cons job jobs ih =>
    rw [List.foldl_cons, ih, addJob, List.cons_removeAll]
    cases hknown : known.contains job with
    | true => rw [if_pos rfl, if_neg Bool.true_eq_false.mp]
    | false =>
      have hlater : jobs.removeAll (known ++ [job]) = (jobs.removeAll known).filter fun other => !(other == job) := by
        rw [List.removeAll, List.removeAll, List.filter_filter]
        refine List.filter_congr fun other _ => ?_
        rw [Bool.and_comm, ← Bool.not_or]
        exact congrArg not (List.contains_append.trans (congrArg _ (Bool.or_false _)))
      rw [if_neg Bool.false_ne_true, if_pos rfl, hlater, List.append_assoc, List.singleton_append,
        List.eraseDups_cons]

theorem FlowLine.foldl_addJob_nil (jobs : List String) : jobs.foldl addJob [] = jobs.eraseDups := by
  rw [foldl_addJob, List.removeAll_nil, List.nil_append]

/-- What the job column of a line holds: the jobs that it is for, or those that it is not for, or nothing. -/
inductive JobCell : (ifJobs unlessJobs : List String) → Option String → Prop
  | all : JobCell [] [] none
  | only {jobs} : jobs ≠ [] → JobCell jobs [] (some (",".intercalate jobs))
  | except {jobs} : jobs ≠ [] → JobCell [] jobs (some (",".intercalate (jobs.map ("!" ++ ·))))

namespace FlowLine

theorem jobCell_sealed {l : FlowLine} (hblank : l.get? .job = none) (hjobs : l.ifJobs = [] ∨ l.unlessJobs = []) :
    JobCell l.ifJobs l.unlessJobs (l.sealed.get? .job) := by
  rw [sealed, get?_setIf, if_pos rfl, hblank, Option.or_none, job?]
  cases hif : l.ifJobs with
  | nil =>
    cases hunless : l.unlessJobs with
    | nil => exact .all
    | cons job jobs => exact .except (List.cons_ne_nil job jobs)
  | cons job jobs =>
    rw [hjobs.resolve_left fun h => List.cons_ne_nil job jobs (hif.symm.trans h)]
    exact .only (List.cons_ne_nil job jobs)

theorem jobs_withAttributes : ∀ (l : FlowLine) (attrs : List (String × String)),
    (l.withAttributes attrs).1.ifJobs = l.ifJobs ∧ (l.withAttributes attrs).1.unlessJobs = l.unlessJobs
  | _, [] => ⟨rfl, rfl⟩
  | l, (key, value) :: attrs => by
    rw [withAttributes]
    split
    · exact jobs_withAttributes _ attrs
    · exact jobs_withAttributes l attrs

/-- Attributes for columns give a line no jobs. -/
theorem jobs_newLine (id : String) (op : Opcode) (parameter : String) (attrs : List (String × String)) :
    ((new id op parameter).withAttributes attrs).1.ifJobs = [] ∧
      ((new id op parameter).withAttributes attrs).1.unlessJobs = [] := by
  obtain ⟨hif, hunless⟩ := jobs_withAttributes (new id op parameter) attrs
  obtain ⟨-, -, hnewif, hnewunless⟩ := new_rest id op parameter
  exact ⟨hif.trans hnewif, hunless.trans hnewunless⟩

end FlowLine

/-! ## Jobs of attributes -/

/-- The jobs that a value lists with commas. -/
def listedJobs (value : String) : List String :=
  (((value.toList.splitOn ',').map Text.trim).filter (· ≠ [])).map String.ofList

/-- The jobs that the attributes with some keys list. -/
def attributeJobs (keys : List String) (attrs : List (String × String)) : List String :=
  attrs.flatMap fun attr => if attr.1 ∈ keys then listedJobs attr.2 else []

namespace Attributes

theorem jobs_add (a : Attributes) (key value : String) :
    (a.add key value).ifJobs = a.ifJobs ++ (if key ∈ ["if_job", "if_jobs"] then listedJobs value else []) ∧
    (a.add key value).unlessJobs =
      a.unlessJobs ++ (if key ∈ ["unless_job", "unless_jobs"] then listedJobs value else []) := by
  rw [listedJobs, ← Text.entries_eq]
  unfold add
  split
  · rename_i r hkey
    have hother : key ∉ ["if_job", "if_jobs"] ∧ key ∉ ["unless_job", "unless_jobs"] := by
      simp only [List.mem_cons, List.not_mem_nil, or_false]
      constructor <;> rintro (rfl | rfl) <;> cases hkey
    rw [if_neg hother.1, if_neg hother.2]
    exact ⟨(List.append_nil _).symm, (List.append_nil _).symm⟩
  · split <;> simp_all

theorem jobs_ofList (attrs : List (String × String)) :
    (ofList attrs).ifJobs = attributeJobs ["if_job", "if_jobs"] attrs ∧
      (ofList attrs).unlessJobs = attributeJobs ["unless_job", "unless_jobs"] attrs := by
  have hfold : ∀ (attrs : List (String × String)) (a : Attributes),
      (attrs.foldl (fun a attr => a.add attr.1 attr.2) a).ifJobs =
          a.ifJobs ++ attributeJobs ["if_job", "if_jobs"] attrs ∧
        (attrs.foldl (fun a attr => a.add attr.1 attr.2) a).unlessJobs =
          a.unlessJobs ++ attributeJobs ["unless_job", "unless_jobs"] attrs := by
    intro attrs
    induction attrs with
    | nil => exact fun a => ⟨(List.append_nil _).symm, (List.append_nil _).symm⟩
    | cons attr attrs ih =>
      intro a
      obtain ⟨hif, hunless⟩ := a.jobs_add attr.1 attr.2
      obtain ⟨hifs, hunlesses⟩ := ih (a.add attr.1 attr.2)
      rw [List.foldl_cons, hifs, hunlesses, hif, hunless, List.append_assoc, List.append_assoc]
      exact ⟨rfl, rfl⟩
  exact hfold attrs empty

end Attributes

/-! ## Jobs of additions -/

namespace Addition

/-- The attributes that a line is asked for with. A jump and its landing have no jobs of their own. -/
def attributes : Addition → List (String × String)
  | asked _ _ _ attrs => attrs
  | jump _ _ _ | landing _ _ _ => []

/-- The line is for the jobs of the scopes around it and for its own ones, and not for those that they exclude. -/
structure HasJobs (a : Addition) (l : FlowLine) : Prop where
  ifJobs : l.ifJobs = (OpenScope.ifJobs a.path ++ attributeJobs ["if_job", "if_jobs"] a.attributes).eraseDups
  unlessJobs : l.unlessJobs =
    (OpenScope.unlessJobs a.path ++ attributeJobs ["unless_job", "unless_jobs"] a.attributes).eraseDups

theorem jobs_addedLine (path : List OpenScope) (op : Opcode) (parameter : String) (attrs : List (String × String))
    (position : Nat) :
    (addedLine path op parameter attrs position).ifJobs =
        (OpenScope.ifJobs path ++ attributeJobs ["if_job", "if_jobs"] attrs).eraseDups ∧
      (addedLine path op parameter attrs position).unlessJobs =
        (OpenScope.unlessJobs path ++ attributeJobs ["unless_job", "unless_jobs"] attrs).eraseDups := by
  have hkept := addedLine_kept path op parameter attrs position
  obtain ⟨hif, hunless⟩ := Attributes.jobs_ofList attrs
  obtain ⟨hnewif, hnewunless⟩ := FlowLine.jobs_newLine ((Attributes.ofList attrs).id.getD s!"t{position + 1}") op
    parameter (Attributes.ofList attrs).cells
  refine ⟨hkept.ifJobs.trans ?_, hkept.unlessJobs.trans ?_⟩
  · rw [← hif, ← FlowLine.foldl_addJob_nil, ← hnewif]
    rfl
  · rw [← hunless, ← FlowLine.foldl_addJob_nil, ← hnewunless]
    rfl

theorem hasJobs_line (position : Nat) : ∀ a : Addition, a.HasJobs (a.line position)
  | asked path op parameter attrs => by
    obtain ⟨hif, hunless⟩ := jobs_addedLine path op parameter attrs position
    exact ⟨hif, hunless⟩
  | jump path word number => by
    obtain ⟨hif, hunless⟩ :=
      jobs_addedLine (⟨.ifEnable word, number⟩ :: path) .goto (skipLabel word number) [] position
    -- The scope that enables the jump has no jobs.
    simp only [OpenScope.ifJobs_cons, OpenScope.unlessJobs_cons, FlowScope.ifJobs, FlowScope.unlessJobs,
      List.append_nil] at hif hunless
    exact ⟨hif, hunless⟩
  | landing path word number => by
    obtain ⟨hif, hunless⟩ := jobs_addedLine path .nop "" [("label", skipLabel word number)] position
    exact ⟨hif, hunless⟩

end Addition

namespace FlowOperation

/-- The lines of a draft have the jobs of the scopes that they are added in and then their own ones, and the job
column of each line in the finished flow tells them. -/
theorem jobs_draft (name : String) (ops : List FlowOperation) :
    List.Forall₂ Addition.HasJobs (draftAdditions name ops) (draft name ops).lines ∧
    ∀ f, (draft name ops).finish = .ok f → (draft name ops).Assembled (draft name ops).rows f ∧
      ∀ (k i : Nat) (l : FlowLine), (draft name ops).rows[k]? = some (.given i l) →
        ∃ m, f.lines[k]? = some m ∧ JobCell l.ifJobs l.unlessJobs (m.get? .job) := by
  refine ⟨?_, fun f hf => ?_⟩
  · rw [draft_lines]
    refine List.forall₂_iff_get.mpr ⟨List.length_mapIdx.symm, fun i ha hl => ?_⟩
    rw [List.get_eq_getElem, List.get_eq_getElem, List.getElem_mapIdx]
    exact Addition.hasJobs_line i _
  · obtain ⟨hfinishable, rfl⟩ := FlowDraft.finish_eq_ok.mp hf
    refine ⟨FlowDraft.assembled (draft_pending_lt name ops) hfinishable, fun k i l hrow => ?_⟩
    have hl := List.mem_of_getElem? (FlowDraft.mem_rows.mp (List.mem_of_getElem? hrow))
    have hsettled := (draft name ops).settledLine_kept i l
    have hjobs := hfinishable.jobs l hl
    refine ⟨(draft name ops).finishedLine (.given i l), by rw [List.getElem?_map, hrow]; rfl, ?_⟩
    rw [← hsettled.ifJobs, ← hsettled.unlessJobs] at hjobs ⊢
    exact FlowLine.jobCell_sealed ((hsettled.cells .job rfl).trans (jobless_draft name ops l hl)) hjobs

/-- A line with jobs of its own, in a scope that is jumped over, in one for two jobs. -/
def jobScopes : List FlowOperation :=
  [.scope (.ifJob ["P1", "P2"]) [.scope (.unlessEnable "fast") [.add .test "x" [("if_job", " P2,, FT ")]]]]

theorem jobScopes_jobs : ∃ f m, (draft "f" jobScopes).finish = .ok f ∧ f.lines[1]? = some m ∧
    JobCell ["P1", "P2", "FT"] [] (m.get? .job) := by
  obtain ⟨f, hf⟩ : ∃ f, (draft "f" jobScopes).finish = .ok f := FlowDraft.exists_finish (by decide)
  obtain ⟨-, hfinished⟩ := jobs_draft "f" jobScopes
  obtain ⟨-, hcells⟩ := hfinished f hf
  obtain ⟨m, hm, hcell⟩ := hcells 1 1 _ rfl
  exact ⟨f, m, hf, hm, hcell⟩

end FlowOperation

end TestProgram
