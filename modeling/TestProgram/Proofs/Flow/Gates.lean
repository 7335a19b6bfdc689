import TestProgram.Proofs.Flow.Additions
import TestProgram.Proofs.Flow.Relations

/-!
# When the lines that set flags run

Eleven columns say when a line runs (`Column.isContext`). The line that sets the flag for
another line's having run gets three of them from it, so it is enabled like that line and in
the same part and environment. Its job column and its conditions stay empty
(`context_ranFlag`). So all of them agree just if the other line is for all jobs and has no
conditions, be it from relations or from attributes (`ranFlag_gates`). Otherwise the flag
can be set in a run that leaves that line out.
-/

namespace TestProgram

namespace Column

/-- Whether the line that sets a flag for having run gets the column from the other line. -/
def isShared : Column → Bool
  | enable | part | env => true
  | _ => false

theorem isContext_eq (c : Column) : c.isContext = (c.isShared || c == .job || c.isCondition) := by
  cases c <;> rfl

theorem isContext_of_isCondition {c : Column} (h : c.isCondition) : c.isContext ∧ c.isShared = false := by
  cases c <;> first | exact ⟨rfl, rfl⟩ | cases h

end Column

/-- The job column is filled if the line asks for jobs. -/
theorem FlowLine.get?_sealed_job {l : FlowLine} (hblank : l.get? .job = none)
    (hjobs : l.ifJobs = [] ∨ l.unlessJobs = []) : l.sealed.get? .job = none ↔ l.ifJobs = [] ∧ l.unlessJobs = [] := by
  rw [sealed, get?_setIf, if_pos rfl, hblank, Option.or_none]
  unfold job?
  cases hif : l.ifJobs with
  | nil =>
    cases hunless : l.unlessJobs with
    | nil => exact iff_of_true rfl ⟨rfl, rfl⟩
    | cons job jobs => exact iff_of_false (Option.some_ne_none _) fun h => List.cons_ne_nil job jobs h.2
  | cons job jobs =>
    rw [hjobs.resolve_left fun h => List.cons_ne_nil job jobs (hif.symm.trans h)]
    exact iff_of_false (Option.some_ne_none _) fun h => List.cons_ne_nil job jobs h.1

namespace FlowDraft

open Settlement

/-- The line at a position is for all jobs and has no conditions. -/
structure Ungated (d : FlowDraft) (i : Nat) (l : FlowLine) : Prop where
  ifJobs : l.ifJobs = []
  unlessJobs : l.unlessJobs = []
  relations : d.relationsOf i = []
  conditions : ∀ c : Column, c.isCondition → l.get? c = none

theorem conditioned_unconditional (relations : List PendingRelation) (l : FlowLine) :
    (∀ c : Column, c.isCondition → (conditioned relations l).get? c = none) ↔
      relations = [] ∧ ∀ c : Column, c.isCondition → l.get? c = none := by
  match relations with
  | [] => exact ⟨fun h => ⟨rfl, h⟩, fun h => h.2⟩
  | [_] => exact ⟨fun h => (nomatch h .deviceName rfl), fun h => nomatch h.1⟩
  | _ :: _ :: _ => exact ⟨fun h => (nomatch h .groupName rfl), fun h => nomatch h.1⟩

/-- Lines of the draft have no job column. -/
def Jobless (d : FlowDraft) : Prop := ∀ l ∈ d.lines, l.get? .job = none

/-- The columns that say when the line runs that sets a flag for having run. -/
theorem context_ranFlag (d : FlowDraft) (i : Nat) (l : FlowLine) {c : Column} (hc : c.isContext) :
    (d.finishedLine (.ranFlag i l)).get? c =
      if c.isShared then (d.finishedLine (.given i l)).get? c else none := by
  have hsealed : d.finishedLine (.ranFlag i l) = ranLine (d.settledLine i l) := by
    obtain ⟨-, -, hif, hunless⟩ := ranLine_rest (d.settledLine i l)
    rw [finishedLine, lineOf, FlowLine.sealed, FlowLine.job?, hif, hunless]
    rfl
  have hgiven (c : Column) (hjob : c ≠ .job) : (d.finishedLine (.given i l)).get? c = (d.settledLine i l).get? c :=
    d.get?_finishedLine (.given i l) hjob
  rw [hsealed, get?_ranLine]
  cases c with
  | enable => exact (hgiven .enable (by decide)).symm
  | part => exact (hgiven .part (by decide)).symm
  | env => exact (hgiven .env (by decide)).symm
  | job | groupSpecifier | groupSense | groupCondition | groupName | deviceSense | deviceCondition | deviceName => rfl
  | _ => cases hc

variable {d : FlowDraft} {i : Nat} {l : FlowLine}

/-- The line and the line that sets the flag for its having run agree on when they run just if
the line is for all jobs and unconditional. -/
theorem contexts_agree_iff (hjobless : d.Jobless) (h : d.Finishable) (hl : d.lines[i]? = some l) :
    (∀ c : Column, c.isContext → (d.finishedLine (.ranFlag i l)).get? c = (d.finishedLine (.given i l)).get? c) ↔
      d.Ungated i l := by
  have hmem := List.mem_of_getElem? hl
  have hsettled := d.settledLine_kept i l
  have hjob : (d.finishedLine (.given i l)).get? .job = none ↔ l.ifJobs = [] ∧ l.unlessJobs = [] := by
    have hjobs := h.jobs l hmem
    rw [← hsettled.ifJobs, ← hsettled.unlessJobs] at hjobs ⊢
    exact FlowLine.get?_sealed_job ((hsettled.cells .job rfl).trans (hjobless l hmem)) hjobs
  have hconditions : (∀ c : Column, c.isCondition → (d.finishedLine (.given i l)).get? c = none) ↔
      d.relationsOf i = [] ∧ ∀ c : Column, c.isCondition → l.get? c = none := by
    have hflagged {c : Column} (hc : c.isCondition) :
        (flagged ((d.tested .passed).contains i) ((d.tested .failed).contains i) l).get? c = l.get? c :=
      (flagged_kept l _ _).cells c (by cases c <;> first | rfl | cases hc)
    have hfinished {c : Column} (hc : c.isCondition) :
        (d.finishedLine (.given i l)).get? c = (d.settledLine i l).get? c :=
      d.get?_finishedLine (.given i l) (by rintro rfl; cases hc)
    have hsplit := conditioned_unconditional (d.relationsOf i)
      (flagged ((d.tested .passed).contains i) ((d.tested .failed).contains i) l)
    simp +contextual only [hflagged] at hsplit
    simp +contextual only [hfinished]
    exact hsplit
  constructor
  · intro hagree
    have hnone {c : Column} (hc : c.isContext) (hshared : c.isShared = false) :
        (d.finishedLine (.given i l)).get? c = none := by
      rw [← hagree c hc, context_ranFlag d i l hc, hshared]
      rfl
    obtain ⟨hif, hunless⟩ := hjob.mp (hnone rfl rfl)
    obtain ⟨hrelations, hblank⟩ := hconditions.mp fun c hc =>
      hnone (Column.isContext_of_isCondition hc).1 (Column.isContext_of_isCondition hc).2
    exact ⟨hif, hunless, hrelations, hblank⟩
  · intro hungated c hc
    rw [context_ranFlag d i l hc]
    split
    · rfl
    · rename_i hshared
      have hother := hc
      rw [c.isContext_eq, Bool.eq_false_iff.mpr hshared, Bool.false_or] at hother
      rcases Bool.or_eq_true_iff.mp hother with hfirst | hcondition
      · obtain rfl : c = .job := beq_iff_eq.mp hfirst
        exact (hjob.mpr ⟨hungated.ifJobs, hungated.unlessJobs⟩).symm
      · exact (hconditions.mpr ⟨hungated.relations, hungated.conditions⟩ c hcondition).symm

end FlowDraft

namespace FlowOperation

/-- Lines of drafts get their job column when they are finished. -/
theorem jobless_draft (name : String) (ops : List FlowOperation) : (draft name ops).Jobless := by
  intro l hl
  rw [draft_lines] at hl
  obtain ⟨i, hi, rfl⟩ := List.mem_mapIdx.mp hl
  obtain ⟨path, op, parameter, attrs, hline⟩ := (draftAdditions name ops)[i].exists_addedLine
  rw [hline]
  -- No attribute fills the job column.
  have homits : (Attributes.ofList attrs).Omits .job := fun _ _ h => (Column.of_ofAttribute? (.inr (.inr rfl)) h).2 rfl
  exact get?_addedLine path op parameter i homits nofun nofun nofun nofun

/-- A line that sets the flag for another line's having run is enabled like that line and in the
same part and environment, but it is for all jobs and has no conditions. -/
theorem ranFlag_gates {name : String} {ops : List FlowOperation} {f : Flow} (h : (draft name ops).finish = .ok f) :
    (draft name ops).Assembled (draft name ops).rows f ∧
      ∀ k i l, (draft name ops).rows[k + 1]? = some (.ranFlag i l) →
        ∃ line flagLine : FlowLine, f.lines[k]? = some line ∧ f.lines[k + 1]? = some flagLine ∧
          (∀ c : Column, c.isContext → flagLine.get? c = if c.isShared then line.get? c else none) ∧
          ((∀ c : Column, c.isContext → flagLine.get? c = line.get? c) ↔ (draft name ops).Ungated i l) := by
  obtain ⟨hfinishable, rfl⟩ := FlowDraft.finish_eq_ok.mp h
  have hassembled := FlowDraft.assembled (draft_pending_lt name ops) hfinishable
  refine ⟨hassembled, fun k i l hrow => ?_⟩
  obtain ⟨j, hj, hgiven⟩ := hassembled.after (k + 1) i l hrow
  obtain rfl : k = j := Nat.succ.inj hj
  have hl := FlowDraft.mem_rows.mp (List.mem_of_getElem? hgiven)
  refine ⟨_, _, ?_, ?_, fun c => (draft name ops).context_ranFlag i l,
    FlowDraft.contexts_agree_iff (jobless_draft name ops) hfinishable hl⟩
  · rw [List.getElem?_map, hgiven]
    rfl
  · rw [List.getElem?_map, hrow]
    rfl

/-- A test for one job, and one that runs if the first has. -/
def jobProgram : List FlowOperation :=
  [.scope (.ifJob ["P1"]) [.add .test "a" [("id", "a")]], .add .test "c" [("if_ran", "a")]]

theorem jobProgram_finish : ∃ f, (draft "f" jobProgram).finish = .ok f := FlowDraft.exists_finish (by decide)

theorem jobProgram_gates : ∃ f i l line flagLine, (draft "f" jobProgram).finish = .ok f ∧
    (draft "f" jobProgram).rows[1]? = some (.ranFlag i l) ∧ f.lines[0]? = some line ∧ f.lines[1]? = some flagLine ∧
      ¬ ∀ c : Column, c.isContext → flagLine.get? c = line.get? c := by
  obtain ⟨f, hf⟩ := jobProgram_finish
  obtain ⟨-, hgates⟩ := ranFlag_gates hf
  obtain ⟨line, flagLine, hline, hflagLine, -, hagree⟩ := hgates 0 0 _ rfl
  exact ⟨f, 0, _, line, flagLine, hf, rfl, hline, hflagLine, fun h => nomatch (hagree.mp h).ifJobs⟩

/-- The flag line of a line for one job is for all jobs. -/
theorem not_forall_ranFlag_gated : ¬ ∀ (name : String) (ops : List FlowOperation) (f : Flow),
    (draft name ops).finish = .ok f → ∀ k i l line flagLine, (draft name ops).rows[k + 1]? = some (.ranFlag i l) →
      f.lines[k]? = some line → f.lines[k + 1]? = some flagLine →
        ∀ c : Column, c.isContext → flagLine.get? c = line.get? c := by
  intro h
  obtain ⟨f, hf⟩ := jobProgram_finish
  obtain ⟨-, rfl⟩ := FlowDraft.finish_eq_ok.mp hf
  have hjob := h "f" jobProgram _ hf 0 0 _ _ _ rfl rfl rfl .job rfl
  cases hjob

end FlowOperation

end TestProgram
