import TestProgram.Proofs.Flow.Additions
import TestProgram.Proofs.Flow.Relations

/-!
# The lines that write flags

A flag is named for an outcome of a line and for the name of that line (`Relation.flag_eq_iff`).
If no line of a draft writes flags of its own, the finished flow writes a flag just where a
relation about that outcome is to a line of that name (`writes_iff`): in that line, or right
after it. Names can be shared, and then flags are shared too. So the condition of a relation
depends on a single line just if no relation about the same outcome is to another line of the same
name before (`conditions_depend`).
-/

namespace TestProgram

/-! ## Flags -/

/-- Flags are different for different outcomes and for different names. -/
theorem Relation.flag_eq_iff (r r' : Relation) (name name' : String) :
    r.flag name = r'.flag name' ↔ r.outcome = r'.outcome ∧ name = name' := by
  -- The outcomes can be told from the last four characters.
  have hending (r : Relation) (name : String) :
      (r.flag name).toList.reverse.take 4 = (r.flag "").toList.reverse.take 4 := by
    unfold flag
    rw [String.toList_append, List.reverse_append, String.toList_append, List.reverse_append]
    cases r.outcome <;> rfl
  constructor
  · intro h
    have houtcome : r.outcome = r'.outcome := by
      have hsame := hending r name
      rw [h, hending r' name'] at hsame
      unfold flag at hsame
      cases hr : r.outcome <;> cases hr' : r'.outcome
      all_goals first | rfl | (rw [hr, hr'] at hsame; exact absurd hsame (by decide))
    refine ⟨houtcome, ?_⟩
    unfold flag at h
    rw [houtcome] at h
    exact (String.append_left_inj _).mp h
  · rintro ⟨houtcome, rfl⟩
    unfold flag
    rw [houtcome]

namespace FlowLine

/-- Running the line can set the flag. -/
def Writes (m : FlowLine) (flag : String) : Prop :=
  m.get? .flagPass = some flag ∨ m.get? .flagFail = some flag ∨ m.op = .flagTrue ∧ m.parameter = flag

end FlowLine

theorem PendingRelation.SetBy.writes {p : PendingRelation} {t : Nat} {o : LineOrigin} {m : FlowLine}
    (h : p.SetBy t o m) : m.Writes p.flag := by
  unfold SetBy at h
  split at h
  · exact .inl h.2
  · exact .inr (.inl h.2)
  · exact .inr (.inr h.2)

namespace LineOrigin

/-- The position in the draft of the line itself, or of the one whose having run it tells of. -/
def position : LineOrigin → Nat
  | given i _ | ranFlag i _ => i

/-- The line of the draft at that position. -/
def source : LineOrigin → FlowLine
  | given _ l | ranFlag _ l => l

/-- Whether the line can tell of the outcome. -/
def tells : LineOrigin → TestOutcome → Bool
  | given _ _, .passed | given _ _, .failed | ranFlag _ _, .ran => true
  | _, _ => false

end LineOrigin

namespace Settlement

theorem flagPass_flagged (passed failed : Bool) (l : FlowLine) : (flagged passed failed l).get? .flagPass =
    if passed then some ((⟨.passed, false⟩ : Relation).flag l.id) else l.get? .flagPass := by
  cases passed <;> cases failed <;> rfl

theorem flagFail_flagged (passed failed : Bool) (l : FlowLine) : (flagged passed failed l).get? .flagFail =
    if failed then some ((⟨.failed, false⟩ : Relation).flag l.id) else l.get? .flagFail := by
  cases passed <;> cases failed <;> rfl

end Settlement

namespace FlowDraft

open Settlement

/-- No line writes flags of its own. -/
structure Flagless (d : FlowDraft) : Prop where
  flagPass : ∀ l ∈ d.lines, l.get? .flagPass = none
  flagFail : ∀ l ∈ d.lines, l.get? .flagFail = none
  op : ∀ l ∈ d.lines, l.op ≠ .flagTrue

variable {d : FlowDraft}

theorem mem_tested_iff {outcome : TestOutcome} {t : Nat} :
    t ∈ d.tested outcome ↔ ∃ p ∈ d.pending, p.relation.outcome = outcome ∧ d.target? p = some t := by
  unfold tested
  simp only [List.mem_filterMap, Option.ite_none_right_eq_some]

theorem getElem?_position {o : LineOrigin} (ho : o ∈ d.rows) : d.lines[o.position]? = some o.source := by
  cases o with
  | given i l => exact mem_rows.mp ho
  | ranFlag i l => exact (mem_rows.mp ho).1

/-- A line comes before a line of the draft if its source does. -/
theorem lt_iff_position_lt {q here j : Nat} {o : LineOrigin} {l : FlowLine} (ho : d.rows[q]? = some o)
    (hhere : d.rows[here]? = some (.given j l)) : q < here ↔ o.position < j := by
  cases o with
  | given i m => exact rows_lt_iff ho hhere
  | ranFlag i m =>
    refine ⟨fun hlt => ?_, ranFlag_lt ho hhere⟩
    obtain ⟨q, rfl, hq⟩ := given_before_ranFlag ho
    exact (rows_lt_iff hq hhere).mp (Nat.lt_of_succ_lt hlt)

/-- A flag is written for those outcomes of lines that relations are about. -/
theorem writes_iff (h : d.Flagless) {o : LineOrigin} (ho : o ∈ d.rows) (r : Relation) (name : String) :
    (d.finishedLine o).Writes (r.flag name) ↔
      o.tells r.outcome ∧ o.position ∈ d.tested r.outcome ∧ o.source.id = name := by
  have hop := (d.lineOf o).sealed_kept.op
  have hparameter := (d.lineOf o).sealed_kept.parameter rfl
  have hpass := d.get?_finishedLine o (c := .flagPass) nofun
  have hfail := d.get?_finishedLine o (c := .flagFail) nofun
  unfold FlowLine.Writes
  rw [hpass, hfail, finishedLine, hop, hparameter]
  cases o with
  | given i l =>
    have hl := List.mem_of_getElem? (mem_rows.mp ho)
    have hplain : (d.lineOf (.given i l)).op ≠ .flagTrue := by
      rw [lineOf, (d.settledLine_kept i l).op]
      exact h.op l hl
    have hconditioned {c : Column} (hc : c.isCondition = false) : (d.lineOf (.given i l)).get? c =
        (flagged ((d.tested .passed).contains i) ((d.tested .failed).contains i) l).get? c :=
      (conditioned_kept _ _).cells c hc
    rw [hconditioned rfl, hconditioned rfl, flagPass_flagged, flagFail_flagged, h.flagPass l hl, h.flagFail l hl]
    simp only [hplain, false_and, or_false, List.contains_iff_mem, Option.ite_none_right_eq_some, Option.some.injEq,
      Relation.flag_eq_iff]
    cases r.outcome <;> simp [LineOrigin.tells, LineOrigin.position, LineOrigin.source]
  | ranFlag i l =>
    obtain ⟨-, hran⟩ := mem_rows.mp ho
    obtain ⟨-, hflagTrue, -⟩ := ranLine_rest (d.settledLine i l)
    have hparameter : (d.lineOf (.ranFlag i l)).parameter = (⟨.ran, false⟩ : Relation).flag l.id := by
      rw [FlowLine.parameter, lineOf, get?_ranLine, id_settledLine]
      rfl
    rw [hparameter, Relation.flag_eq_iff, lineOf, hflagTrue, get?_ranLine, get?_ranLine]
    cases r.outcome <;> simp [LineOrigin.tells, LineOrigin.position, LineOrigin.source, hran]

/-! ## What a condition depends on -/

/-- Before the line `here` of the flow, only the line of the draft at `t` or the one after it writes
the flag. -/
def SoleWriter (d : FlowDraft) (f : Flow) (flag : String) (t here : Nat) : Prop :=
  ∀ k < here, ∀ m, f.lines[k]? = some m → m.Writes flag → ∃ o, d.rows[k]? = some o ∧ o.position = t

/-- Of the lines before the one that has the relation, `t` is the only one that relations about the
same outcome and to the same name are to. -/
def SoleTarget (d : FlowDraft) (p : PendingRelation) (t : Nat) : Prop :=
  ∀ q ∈ d.pending, q.relation.outcome = p.relation.outcome → q.target = p.target →
    ∀ i < p.line, d.target? q = some i → i = t

/-- If all lines have different names, relations to the same name are to the same line. -/
theorem soleTarget_of_nodup (hnames : (d.lines.map FlowLine.id).Nodup) {p : PendingRelation} {t : Nat}
    (ht : d.target? p = some t) : d.SoleTarget p t := by
  intro q _ _ hname i _ hi
  obtain ⟨-, l, hl, hlid⟩ := target?_eq_some ht
  obtain ⟨-, m, hm, hmid⟩ := target?_eq_some hi
  have hi : i < (d.lines.map FlowLine.id).length := by
    rw [List.length_map]
    exact (List.getElem?_eq_some_iff.mp hm).1
  refine (List.getElem?_inj hi hnames).mp ?_
  rw [List.getElem?_map, List.getElem?_map, hm, hl, Option.map_some, Option.map_some, hmid, hlid, hname]

theorem soleWriter_iff (h : d.Flagless) {p : PendingRelation} {t here : Nat} {l : FlowLine}
    (hhere : d.rows[here]? = some (.given p.line l)) :
    d.SoleWriter ⟨d.name, d.rows.map d.finishedLine⟩ p.flag t here ↔ d.SoleTarget p t := by
  constructor
  · intro hsole q hq houtcome hname i hlt hi
    obtain ⟨-, m, hm, -⟩ := target?_eq_some hi
    obtain ⟨o, ho, horigin, hset⟩ := exists_setBy hq hi hm
    have hposition : o.position = i := by rcases horigin with rfl | rfl <;> rfl
    have hflag : q.flag = p.flag := (Relation.flag_eq_iff _ _ _ _).mpr ⟨houtcome, hname⟩
    obtain ⟨k, hk⟩ := List.getElem?_of_mem ho
    have hbefore : k < here := (lt_iff_position_lt hk hhere).mpr (hposition ▸ hlt)
    obtain ⟨o', ho', ht⟩ := hsole k hbefore _ (by rw [List.getElem?_map, hk]; rfl) (hflag ▸ hset.writes)
    obtain rfl := Option.some.inj (hk.symm.trans ho')
    exact hposition.symm.trans ht
  · intro hsole k hlt m hm hwrites
    rw [List.getElem?_map] at hm
    obtain ⟨o, ho, rfl⟩ := Option.map_eq_some_iff.mp hm
    obtain ⟨-, htested, hname⟩ := (writes_iff h (List.mem_of_getElem? ho) p.relation p.target).mp hwrites
    obtain ⟨q, hq, houtcome, htarget⟩ := mem_tested_iff.mp htested
    obtain ⟨-, m, hm, hid⟩ := target?_eq_some htarget
    rw [getElem?_position (List.mem_of_getElem? ho)] at hm
    obtain rfl := Option.some.inj hm
    exact ⟨o, ho, hsole q hq houtcome (hid.symm.trans hname) _ ((lt_iff_position_lt ho hhere).mp hlt) htarget⟩

end FlowDraft

/-! ## Programs that leave flags alone -/

namespace Column

/-- The names of attributes for flags. -/
def flagKeys : List String := ["flag_pass", "flag_fail", "flag_true", "flag_false"]

theorem mem_flagKeys {c : Column} (hc : c = .flagPass ∨ c = .flagFail) {key : String} (h : ofAttribute? key = some c) :
    key ∈ flagKeys := by
  rcases Option.or_eq_some_iff.mp h with hnamed | ⟨-, halias⟩
  · have hname := List.find?_some hnamed
    rw [Bool.and_eq_true, beq_iff_eq] at hname
    rw [← hname.1]
    rcases hc with rfl | rfl <;> decide
  · unfold alias? at halias
    split at halias
    all_goals cases halias
    all_goals first | decide | exact hc.elim nofun nofun

end Column

namespace Addition

/-- A line that is asked for has no attributes for flags, and does not set one. -/
def Flagless : Addition → Prop
  | asked _ op _ attrs => op ≠ .flagTrue ∧ ∀ attr ∈ attrs, attr.1 ∉ Column.flagKeys
  | jump _ _ _ | landing _ _ _ => True

theorem Flagless.exists_addedLine : ∀ {a : Addition}, a.Flagless → ∃ path op parameter attrs,
    a.line = addedLine path op parameter attrs ∧ op ≠ .flagTrue ∧ ∀ attr ∈ attrs, attr.1 ∉ Column.flagKeys
  | asked path op parameter attrs, h => ⟨path, op, parameter, attrs, rfl, h⟩
  | jump path word number, _ =>
    ⟨⟨.ifEnable word, number⟩ :: path, .goto, skipLabel word number, [], rfl, nofun, List.forall_mem_nil _⟩
  | landing path word number, _ =>
    ⟨path, .nop, "", [("label", skipLabel word number)], rfl, nofun,
      List.forall_mem_singleton.mpr (by decide : "label" ∉ Column.flagKeys)⟩

end Addition

namespace FlowOperation

variable {name : String} {ops : List FlowOperation} {f : Flow}

theorem flagless_draft (h : ∀ a ∈ draftAdditions name ops, a.Flagless) : (draft name ops).Flagless := by
  have hline : ∀ l ∈ (draft name ops).lines, l.get? .flagPass = none ∧ l.get? .flagFail = none ∧ l.op ≠ .flagTrue := by
    intro l hl
    rw [draft_lines] at hl
    obtain ⟨i, hi, rfl⟩ := List.mem_mapIdx.mp hl
    obtain ⟨path, op, parameter, attrs, hline, hop, hattrs⟩ := (h _ (List.getElem_mem hi)).exists_addedLine
    have homits {c : Column} (hc : c = .flagPass ∨ c = .flagFail) : (Attributes.ofList attrs).Omits c :=
      fun cell hcell hkey => hattrs cell (Attributes.mem_cells_ofList hcell) (Column.mem_flagKeys hc hkey)
    rw [hline]
    exact ⟨get?_addedLine path op parameter i (homits (.inl rfl)) nofun nofun nofun nofun,
      get?_addedLine path op parameter i (homits (.inr rfl)) nofun nofun nofun nofun,
      (op_addedLine path op parameter attrs i).symm ▸ hop⟩
  exact ⟨fun l hl => (hline l hl).1, fun l hl => (hline l hl).2.1, fun l hl => (hline l hl).2.2⟩

/-- If no line is asked to write flags, the condition of a relation depends on the line that the
relation is to, and on no other one just if no relation about the same outcome is to another line
of the same name before. There is none if all lines have different names. -/
theorem conditions_depend (h : (draft name ops).finish = .ok f) (hplain : ∀ a ∈ draftAdditions name ops, a.Flagless) :
    (draft name ops).Assembled (draft name ops).rows f ∧
      ∀ p ∈ (draft name ops).pending, ∀ t, (draft name ops).target? p = some t →
        ∀ here l, (draft name ops).rows[here]? = some (.given p.line l) →
          ((draft name ops).SoleWriter f p.flag t here ↔ (draft name ops).SoleTarget p t) ∧
          (((draft name ops).lines.map FlowLine.id).Nodup → (draft name ops).SoleWriter f p.flag t here) := by
  obtain ⟨hfinishable, rfl⟩ := FlowDraft.finish_eq_ok.mp h
  refine ⟨FlowDraft.assembled (draft_pending_lt name ops) hfinishable, fun p _ t ht here l hhere => ?_⟩
  have hsole := FlowDraft.soleWriter_iff (flagless_draft hplain) hhere (t := t)
  exact ⟨hsole, fun hnames => hsole.mpr (FlowDraft.soleTarget_of_nodup hnames ht)⟩

/-- A test with the name that the next line gets by its position, and relations of the two lines after it. -/
def namesakeProgram : List FlowOperation :=
  [.add .test "a" [("id", "t2")], .add .test "b" [("if_passed", "t2")], .add .test "c" [("if_passed", "t2")]]

theorem namesakeProgram_flagless : ∀ a ∈ draftAdditions "f" namesakeProgram, a.Flagless := by
  have hadditions : draftAdditions "f" namesakeProgram = [.asked [] .test "a" [("id", "t2")],
      .asked [] .test "b" [("if_passed", "t2")], .asked [] .test "c" [("if_passed", "t2")]] := rfl
  rw [hadditions]
  simp [Addition.Flagless, Column.flagKeys]

theorem namesakeProgram_finish : ∃ f, (draft "f" namesakeProgram).finish = .ok f := FlowDraft.exists_finish (by decide)

theorem namesakeProgram_pending : (draft "f" namesakeProgram).pending =
    [⟨1, ⟨.passed, false⟩, "t2"⟩, ⟨2, ⟨.passed, false⟩, "t2"⟩] := by decide

/-- The relation of the second line is to the first one, and that of the third line to the second one. -/
theorem namesakeProgram_target? : (draft "f" namesakeProgram).target? ⟨1, ⟨.passed, false⟩, "t2"⟩ = some 0 ∧
    (draft "f" namesakeProgram).target? ⟨2, ⟨.passed, false⟩, "t2"⟩ = some 1 := by decide

theorem namesakeProgram_not_soleTarget :
    ¬ (draft "f" namesakeProgram).SoleTarget ⟨2, ⟨.passed, false⟩, "t2"⟩ 1 := by
  intro h
  have hzero := h ⟨1, ⟨.passed, false⟩, "t2"⟩ (by rw [namesakeProgram_pending]; exact List.mem_cons_self ..) rfl rfl
    0 (by decide) namesakeProgram_target?.1
  cases hzero

/-- The condition of the second line depends on the first line only, that of the third line on both. -/
theorem namesakeProgram_depends : ∃ f, (draft "f" namesakeProgram).finish = .ok f ∧
    (draft "f" namesakeProgram).SoleWriter f "t2_PASSED" 0 1 ∧
      ¬ (draft "f" namesakeProgram).SoleWriter f "t2_PASSED" 1 2 := by
  obtain ⟨f, hf⟩ := namesakeProgram_finish
  obtain ⟨-, hdepend⟩ := conditions_depend hf namesakeProgram_flagless
  rw [namesakeProgram_pending] at hdepend
  have hsecond := (hdepend _ (List.mem_cons_self ..) 0 namesakeProgram_target?.1 1 _ rfl).1
  have hthird := (hdepend _ (List.mem_cons_of_mem _ (List.mem_cons_self ..)) 1 namesakeProgram_target?.2 2 _ rfl).1
  exact ⟨f, hf, hsecond.mpr fun _ _ _ _ i hi _ => Nat.lt_one_iff.mp hi,
    fun hsole => namesakeProgram_not_soleTarget (hthird.mp hsole)⟩

/-- The flag that the third line tests for the second one is written by the first line too. -/
theorem not_forall_soleWriter : ¬ ∀ (name : String) (ops : List FlowOperation) (f : Flow),
    (draft name ops).finish = .ok f → (∀ a ∈ draftAdditions name ops, a.Flagless) →
      ∀ p ∈ (draft name ops).pending, ∀ t, (draft name ops).target? p = some t →
        ∀ here l, (draft name ops).rows[here]? = some (.given p.line l) →
          (draft name ops).SoleWriter f p.flag t here := by
  intro h
  obtain ⟨f, hf⟩ := namesakeProgram_finish
  obtain ⟨-, rfl⟩ := FlowDraft.finish_eq_ok.mp hf
  have hsole := h "f" namesakeProgram _ hf namesakeProgram_flagless ⟨2, ⟨.passed, false⟩, "t2"⟩
    (by rw [namesakeProgram_pending]; exact List.mem_cons_of_mem _ (List.mem_cons_self ..)) 1
    namesakeProgram_target?.2 2 _ rfl
  exact namesakeProgram_not_soleTarget
    ((FlowDraft.soleWriter_iff (flagless_draft namesakeProgram_flagless) rfl).mp hsole)

end FlowOperation

end TestProgram
