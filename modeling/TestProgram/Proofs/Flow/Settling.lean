import TestProgram.Flow.Operation

/-!
# Settling relations

Relations are settled one after the other. Each of them changes two lines: the earlier
one sets a flag, and the later one tests it. What has become of the lines after all of
them can be told at once (`FlowDraft.settlement`): a line sets a flag for each of its
outcomes that a relation is about, and has the conditions of its first two relations.
Settling the next relation leads from the settlement of the relations before it to the
settlement with it (`settle_settlement`), unless there is no earlier line of that name
or no more room for a condition. So settling all of them succeeds if neither happens, and
then ends in the settlement of the draft (`foldlM_settle`).
-/

namespace TestProgram

/-- Lines that agree in all columns are the same, if all else is. -/
theorem FlowLine.ext_cells {l m : FlowLine} (hcells : ∀ c, l.cells c = m.cells c) (hid : l.id = m.id)
    (hop : l.op = m.op) (hif : l.ifJobs = m.ifJobs) (hunless : l.unlessJobs = m.unlessJobs) : l = m := by
  obtain ⟨id, op, cells, ifJobs, unlessJobs⟩ := l
  obtain rfl := hid
  obtain rfl := hop
  obtain rfl := hif
  obtain rfl := hunless
  exact congrArg (FlowLine.mk m.id m.op · m.ifJobs m.unlessJobs) (funext hcells)

namespace Column

/-- Whether the column says what becomes of the outcome of a line. -/
def isOutcome : Column → Bool
  | result | flagPass | flagFail => true
  | _ => false

/-- Whether the column belongs to one of the two conditions of a line. -/
def isCondition : Column → Bool
  | groupSpecifier | groupSense | groupCondition | groupName | deviceSense | deviceCondition | deviceName => true
  | _ => false

end Column

/-- The line `m` is the line `l` but for some columns. -/
structure KeptBut (p : Column → Bool) (m l : FlowLine) : Prop where
  id : m.id = l.id
  op : m.op = l.op
  ifJobs : m.ifJobs = l.ifJobs
  unlessJobs : m.unlessJobs = l.unlessJobs
  cells : ∀ c, p c = false → m.get? c = l.get? c

namespace KeptBut

variable {p : Column → Bool} {l m n : FlowLine}

theorem refl (l : FlowLine) : KeptBut p l l := ⟨rfl, rfl, rfl, rfl, fun _ _ => rfl⟩

theorem trans (h : KeptBut p m l) (h' : KeptBut p n m) : KeptBut p n l :=
  ⟨h'.id.trans h.id, h'.op.trans h.op, h'.ifJobs.trans h.ifJobs, h'.unlessJobs.trans h.unlessJobs,
    fun c hc => (h'.cells c hc).trans (h.cells c hc)⟩

theorem set (l : FlowLine) {c : Column} (value : String) (hc : p c = true) : KeptBut p (l.set c value) l := by
  refine ⟨rfl, rfl, rfl, rfl, fun d hd => l.get?_set_of_ne value fun h => ?_⟩
  rw [h, hc] at hd
  cases hd

theorem mono {q : Column → Bool} (h : KeptBut p m l) (hq : ∀ c, q c = false → p c = false) : KeptBut q m l :=
  ⟨h.id, h.op, h.ifJobs, h.unlessJobs, fun c hc => h.cells c (hq c hc)⟩

theorem parameter (h : KeptBut p m l) (hp : p .parameter = false) : m.parameter = l.parameter := by
  rw [FlowLine.parameter, h.cells .parameter hp, FlowLine.parameter]

end KeptBut

/-- The flag that tells of the relation. -/
def PendingRelation.flag (p : PendingRelation) : String := p.relation.flag p.target

namespace Settlement

/-- What a line does to set the flag for an outcome. Having run takes a line of its own. -/
def raiseLine (outcome : TestOutcome) (flag : String) (l : FlowLine) : FlowLine :=
  match outcome with
  | .passed => (l.set .result "None").set .flagPass flag
  | .failed => (l.set .result "None").set .flagFail flag
  | .ran => l

theorem raise_eq (s : Settlement) (position : Nat) (outcome : TestOutcome) (flag : String) :
    s.raise position outcome flag =
      ⟨s.lines.modify position (raiseLine outcome flag), s.conditions,
        if outcome = .ran then position :: s.ran else s.ran⟩ := by
  cases outcome with
  | passed | failed => rfl
  | ran =>
    have hlines : s.lines.modify position (raiseLine .ran flag) = s.lines := List.modify_id _ _
    rw [hlines]
    rfl

/-- The line with the flags for those of its outcomes that are tested. -/
def flagged (passed failed : Bool) (l : FlowLine) : FlowLine :=
  let withPass := if passed then raiseLine .passed ((⟨.passed, false⟩ : Relation).flag l.id) l else l
  if failed then raiseLine .failed ((⟨.failed, false⟩ : Relation).flag l.id) withPass else withPass

/-- The line with the conditions of its relations. -/
def conditioned : List PendingRelation → FlowLine → FlowLine
  | [], l => l
  | [p], l => firstCondition p.relation.sense p.flag l
  | p :: q :: _, l => secondCondition q.relation.sense q.flag (firstCondition p.relation.sense p.flag l)

/-- Flags and conditions are in different columns. -/
theorem raiseLine_conditioned (outcome : TestOutcome) (flag : String) (l : FlowLine) :
    ∀ relations : List PendingRelation,
      raiseLine outcome flag (conditioned relations l) = conditioned relations (raiseLine outcome flag l)
  | [] => rfl
  | [p] => by
    cases outcome <;> exact FlowLine.ext_cells (fun c => by cases c <;> rfl) rfl rfl rfl rfl
  | p :: q :: rest => by
    cases outcome <;> exact FlowLine.ext_cells (fun c => by cases c <;> rfl) rfl rfl rfl rfl

theorem raiseLine_kept (flag : String) (l : FlowLine) : ∀ outcome : TestOutcome,
    KeptBut Column.isOutcome (raiseLine outcome flag l) l
  | .passed | .failed => (KeptBut.set l "None" rfl).trans (.set _ flag rfl)
  | .ran => .refl l

theorem flagged_kept (l : FlowLine) : ∀ passed failed : Bool, KeptBut Column.isOutcome (flagged passed failed l) l
  | false, false => .refl l
  | true, false => raiseLine_kept _ l .passed
  | false, true => raiseLine_kept _ l .failed
  | true, true => (raiseLine_kept _ l .passed).trans (raiseLine_kept _ _ .failed)

theorem firstCondition_kept (sense flag : String) (l : FlowLine) :
    KeptBut Column.isCondition (firstCondition sense flag l) l :=
  ((KeptBut.set l sense rfl).trans (.set _ "flag-true" rfl)).trans (.set _ flag rfl)

theorem secondCondition_kept (sense flag : String) (l : FlowLine) :
    KeptBut Column.isCondition (secondCondition sense flag l) l :=
  (((KeptBut.set l "all-active" rfl).trans (.set _ sense rfl)).trans (.set _ "flag-true" rfl)).trans (.set _ flag rfl)

theorem conditioned_kept (l : FlowLine) : ∀ relations : List PendingRelation,
    KeptBut Column.isCondition (conditioned relations l) l
  | [] => .refl l
  | [_] => firstCondition_kept _ _ l
  | _ :: _ :: _ => (firstCondition_kept _ _ l).trans (secondCondition_kept _ _ _)

/-- Setting a flag once more makes no difference. -/
theorem raiseLine_flagged (r : Relation) (passed failed : Bool) (l : FlowLine) :
    raiseLine r.outcome (r.flag l.id) (flagged passed failed l) =
      flagged (passed || r.outcome = .passed) (failed || r.outcome = .failed) l := by
  obtain ⟨outcome, negated⟩ := r
  cases passed <;> cases failed <;> cases outcome
  all_goals exact FlowLine.ext_cells (fun c => by cases c <;> rfl) rfl rfl rfl rfl

end Settlement

/-! ## Drafts -/

namespace FlowDraft

open Settlement

/-- The line that a relation is to. -/
def target? (d : FlowDraft) (p : PendingRelation) : Option Nat := lastNamed? p.target (d.lines.take p.line)

/-- The relations of a line. -/
def relationsOf (d : FlowDraft) (i : Nat) : List PendingRelation := d.pending.filter fun p => p.line == i

/-- The lines that relations about an outcome are to. -/
def tested (d : FlowDraft) (outcome : TestOutcome) : List Nat :=
  d.pending.filterMap fun p => if p.relation.outcome = outcome then d.target? p else none

/-- A line of the draft with its flags and conditions. -/
def settledLine (d : FlowDraft) (i : Nat) (l : FlowLine) : FlowLine :=
  conditioned (d.relationsOf i) (flagged ((d.tested .passed).contains i) ((d.tested .failed).contains i) l)

/-- Settling a line changes no columns but those for its outcome and for its conditions. -/
theorem settledLine_kept (d : FlowDraft) (i : Nat) (l : FlowLine) :
    KeptBut (fun c => c.isOutcome || c.isCondition) (d.settledLine i l) l := by
  have hflagged := flagged_kept l ((d.tested .passed).contains i) ((d.tested .failed).contains i)
  have hconditioned := conditioned_kept
    (flagged ((d.tested .passed).contains i) ((d.tested .failed).contains i) l) (d.relationsOf i)
  exact (hflagged.mono fun _ hc => (Bool.or_eq_false_iff.mp hc).1).trans
    (hconditioned.mono fun _ hc => (Bool.or_eq_false_iff.mp hc).2)

/-- All relations settled. -/
def settlement (d : FlowDraft) : Settlement where
  lines := d.lines.mapIdx d.settledLine
  conditions := (d.pending.map PendingRelation.line).reverse
  ran := (d.tested .ran).reverse

/-- The draft with one more relation. -/
def noting (d : FlowDraft) (p : PendingRelation) : FlowDraft := { d with pending := d.pending ++ [p] }

theorem tested_noting (d : FlowDraft) {p : PendingRelation} {t : Nat} (ht : d.target? p = some t)
    (outcome : TestOutcome) :
    (d.noting p).tested outcome = d.tested outcome ++ if p.relation.outcome = outcome then [t] else [] := by
  have htarget : (d.noting p).target? = d.target? := rfl
  rw [tested, htarget, noting, List.filterMap_append, ← tested]
  by_cases h : p.relation.outcome = outcome
  · simp only [List.filterMap_cons, List.filterMap_nil, h, if_true, ht]
  · simp only [List.filterMap_cons, List.filterMap_nil, h, if_false]

theorem relationsOf_noting (d : FlowDraft) (p : PendingRelation) (i : Nat) :
    (d.noting p).relationsOf i = d.relationsOf i ++ if p.line = i then [p] else [] := by
  rw [relationsOf, noting, List.filter_append, ← relationsOf]
  simp only [List.filter_cons, List.filter_nil, beq_iff_eq]

theorem count_conditions (d : FlowDraft) (i : Nat) : d.settlement.conditions.count i = (d.relationsOf i).length := by
  rw [settlement, List.count_reverse, List.count_eq_countP, List.countP_map, relationsOf, List.countP_eq_length_filter]
  rfl

/-! ### Names -/

/-- Which line it is depends on the names of the lines only. -/
theorem lastNamed?_congr (id : String) {lines lines' : List FlowLine}
    (h : lines.map FlowLine.id = lines'.map FlowLine.id) : lastNamed? id lines = lastNamed? id lines' := by
  have hnames (lines : List FlowLine) : lastNamed? id lines =
      ((lines.map FlowLine.id).zipIdx.reverse.find? fun name => name.1 == id).map Prod.snd := by
    rw [List.zipIdx_map, ← List.map_reverse, List.find?_map, Option.map_map]
    rfl
  rw [hnames, hnames, h]

theorem exists_of_lastNamed? {id : String} {lines : List FlowLine} {i : Nat} (h : lastNamed? id lines = some i) :
    ∃ l, lines[i]? = some l ∧ l.id = id := by
  obtain ⟨⟨l, j⟩, hfind, rfl⟩ := Option.map_eq_some_iff.mp h
  have hmem := List.mem_reverse.mp (List.mem_of_find?_eq_some hfind)
  have hid := List.find?_some hfind
  exact ⟨l, List.mem_zipIdx_iff_getElem?.mp hmem, beq_iff_eq.mp hid⟩

theorem isSome_lastNamed? {id : String} {lines : List FlowLine} :
    (lastNamed? id lines).isSome ↔ ∃ l ∈ lines, l.id = id := by
  rw [lastNamed?, Option.isSome_map, List.find?_isSome]
  constructor
  · rintro ⟨⟨l, i⟩, hmem, hid⟩
    exact ⟨l, List.mem_of_getElem? (List.mem_zipIdx_iff_getElem?.mp (List.mem_reverse.mp hmem)), beq_iff_eq.mp hid⟩
  · rintro ⟨l, hl, hid⟩
    obtain ⟨i, hi⟩ := List.getElem?_of_mem hl
    exact ⟨(l, i), List.mem_reverse.mpr (List.mem_zipIdx_iff_getElem?.mpr hi), beq_iff_eq.mpr hid⟩

theorem target?_eq_some {d : FlowDraft} {p : PendingRelation} {t : Nat} (h : d.target? p = some t) :
    t < p.line ∧ ∃ l, d.lines[t]? = some l ∧ l.id = p.target := by
  obtain ⟨l, hl, hid⟩ := exists_of_lastNamed? h
  have ht : t < p.line := by
    refine Nat.lt_of_not_le fun hle => ?_
    rw [List.getElem?_take_eq_none hle] at hl
    cases hl
  rw [List.getElem?_take_of_lt ht] at hl
  exact ⟨ht, l, hl, hid⟩

theorem isSome_target? {d : FlowDraft} {p : PendingRelation} :
    (d.target? p).isSome ↔ ∃ i < p.line, ∃ l, d.lines[i]? = some l ∧ l.id = p.target := by
  constructor
  · intro h
    obtain ⟨t, ht⟩ := Option.isSome_iff_exists.mp h
    exact ⟨t, target?_eq_some ht⟩
  · rintro ⟨i, hi, l, hl, hid⟩
    rw [← List.getElem?_take_of_lt hi] at hl
    exact isSome_lastNamed?.mpr ⟨l, List.mem_of_getElem? hl, hid⟩

/-! ### One relation after the other -/

theorem id_settledLine (d : FlowDraft) (i : Nat) (l : FlowLine) : (d.settledLine i l).id = l.id :=
  (d.settledLine_kept i l).id

theorem contains_tested_noting {d : FlowDraft} {p : PendingRelation} {t : Nat} (ht : d.target? p = some t)
    (outcome : TestOutcome) (i : Nat) : ((d.noting p).tested outcome).contains i =
      ((d.tested outcome).contains i || decide (p.relation.outcome = outcome) && i == t) := by
  rw [tested_noting d ht, List.contains_append]
  by_cases h : p.relation.outcome = outcome
  · rw [if_pos h, decide_eq_true h, Bool.true_and, List.contains_cons, List.contains_nil, Bool.or_false]
  · rw [if_neg h, decide_eq_false h, Bool.false_and, List.contains_nil]

/-- A settled line with one more relation of some line. -/
theorem settledLine_noting {d : FlowDraft} {p : PendingRelation} {t i : Nat} {l : FlowLine}
    (ht : d.target? p = some t) (hl : d.lines[i]? = some l) :
    (d.noting p).settledLine i l = conditioned (d.relationsOf i ++ if p.line = i then [p] else [])
      (if t = i then raiseLine p.relation.outcome p.flag
        (flagged ((d.tested .passed).contains i) ((d.tested .failed).contains i) l)
      else flagged ((d.tested .passed).contains i) ((d.tested .failed).contains i) l) := by
  rw [settledLine, relationsOf_noting, contains_tested_noting ht, contains_tested_noting ht]
  congr 1
  split
  · rename_i heq
    subst heq
    obtain ⟨-, l', hl', hid⟩ := target?_eq_some ht
    obtain rfl := Option.some.inj (hl.symm.trans hl')
    have hflag : p.flag = p.relation.flag l.id := by rw [hid, PendingRelation.flag]
    rw [hflag, raiseLine_flagged, beq_self_eq_true, Bool.and_true, Bool.and_true]
  · rename_i hne
    have hbeq : (i == t) = false := beq_false_of_ne (Ne.symm hne)
    rw [hbeq, Bool.and_false, Bool.and_false, Bool.or_false, Bool.or_false]

/-- The next relation gives its line the next condition. -/
theorem test_settlement {d : FlowDraft} {p : PendingRelation} (s : Settlement)
    (hs : s.conditions = d.settlement.conditions) : s.test p.line p.relation.sense p.flag =
      if (d.relationsOf p.line).length < 2 then
        .ok { s with
          lines := s.lines.modify p.line fun l => if d.relationsOf p.line = [] then
            firstCondition p.relation.sense p.flag l else secondCondition p.relation.sense p.flag l
          conditions := p.line :: s.conditions }
      else .error (.tooManyConditions ((s.lines[p.line]?.map FlowLine.id).getD "")) := by
  unfold Settlement.test
  rw [hs, count_conditions]
  cases d.relationsOf p.line with
  | nil => rfl
  | cons q relations =>
    cases relations with
    | nil => rfl
    | cons q' rest =>
      have hmany : ¬ (q :: q' :: rest).length < 2 := by simp
      rw [if_neg hmany]
      rfl

theorem names_settlement (d : FlowDraft) : d.settlement.lines.map FlowLine.id = d.lines.map FlowLine.id := by
  refine List.ext_getElem? fun i => ?_
  rw [settlement, List.getElem?_map, List.getElem?_map, List.getElem?_mapIdx, Option.map_map]
  cases d.lines[i]? with
  | none => rfl
  | some l => exact congrArg some (d.id_settledLine i l)

/-- The lines of a settlement with one more relation. -/
theorem lines_noting {d : FlowDraft} {p : PendingRelation} {t : Nat} (ht : d.target? p = some t)
    (hroom : (d.relationsOf p.line).length < 2) :
    ((d.settlement.lines.modify t (raiseLine p.relation.outcome p.flag)).modify p.line fun l =>
      if d.relationsOf p.line = [] then firstCondition p.relation.sense p.flag l
      else secondCondition p.relation.sense p.flag l) = (d.noting p).settlement.lines := by
  have hlines : (d.noting p).lines = d.lines := rfl
  refine List.ext_getElem? fun i => ?_
  rw [settlement, settlement, hlines, List.getElem?_modify, List.getElem?_modify, List.getElem?_mapIdx,
    List.getElem?_mapIdx]
  cases hl : d.lines[i]? with
  | none => rfl
  | some l =>
    refine congrArg some ?_
    have hraised : (if t = i then raiseLine p.relation.outcome p.flag (d.settledLine i l) else d.settledLine i l) =
        conditioned (d.relationsOf i) (if t = i then raiseLine p.relation.outcome p.flag
            (flagged ((d.tested .passed).contains i) ((d.tested .failed).contains i) l)
          else flagged ((d.tested .passed).contains i) ((d.tested .failed).contains i) l) := by
      split
      · rw [settledLine, raiseLine_conditioned]
      · rfl
    rw [settledLine_noting ht hl]
    dsimp only
    rw [hraised]
    split
    · rename_i heq
      subst heq
      cases hrelations : d.relationsOf p.line with
      | nil => rfl
      | cons q relations =>
        rw [hrelations] at hroom
        obtain rfl : relations = [] := List.eq_nil_of_length_eq_zero (by simp only [List.length_cons] at hroom; omega)
        rfl
    · rw [List.append_nil]

/-- The name of the line at a position. -/
def nameAt (d : FlowDraft) (i : Nat) : String := (d.lines[i]?.map FlowLine.id).getD ""

theorem nameAt_congr {d : FlowDraft} {lines : List FlowLine} (h : lines.map FlowLine.id = d.lines.map FlowLine.id)
    (i : Nat) : (lines[i]?.map FlowLine.id).getD "" = d.nameAt i := by
  rw [← List.getElem?_map, h, List.getElem?_map, nameAt]

theorem names_modify {f : FlowLine → FlowLine} (hf : ∀ l, (f l).id = l.id) (lines : List FlowLine) (i : Nat) :
    (lines.modify i f).map FlowLine.id = lines.map FlowLine.id := by
  refine List.ext_getElem? fun j => ?_
  rw [List.getElem?_map, List.getElem?_map, List.getElem?_modify]
  cases lines[j]? with
  | none => rfl
  | some l =>
    refine congrArg some ?_
    dsimp only
    split
    · exact hf l
    · rfl

/-- Settling the next relation leads from the settlement without it to the one with it. -/
theorem settle_settlement (d : FlowDraft) (p : PendingRelation) : d.settlement.settle p =
    match d.target? p with
    | none => .error (.unresolvedReference (d.nameAt p.line) p.target)
    | some _ =>
      if (d.relationsOf p.line).length < 2 then .ok (d.noting p).settlement
      else .error (.tooManyConditions (d.nameAt p.line)) := by
  have htarget : lastNamed? p.target (d.settlement.lines.take p.line) = d.target? p := by
    refine lastNamed?_congr p.target ?_
    rw [List.map_take, List.map_take, names_settlement]
  unfold Settlement.settle
  rw [htarget]
  cases ht : d.target? p with
  | none =>
    dsimp only
    rw [nameAt_congr d.names_settlement]
  | some t =>
    have hflag : p.relation.flag p.target = p.flag := rfl
    have hid (l : FlowLine) : (raiseLine p.relation.outcome p.flag l).id = l.id := by
      cases p.relation.outcome <;> rfl
    have hnames := (names_modify hid d.settlement.lines t).trans d.names_settlement
    dsimp only
    rw [hflag, raise_eq, test_settlement (d := d)]
    · rw [nameAt_congr hnames]
      split
      · rename_i hroom
        have hran : (if p.relation.outcome = .ran then t :: d.settlement.ran else d.settlement.ran) =
            (d.noting p).settlement.ran := by
          rw [settlement, settlement, tested_noting d ht]
          split
          · rw [List.reverse_append, List.reverse_singleton, List.singleton_append]
          · rw [List.append_nil]
        have hconditions : p.line :: d.settlement.conditions = (d.noting p).settlement.conditions := by
          rw [settlement, settlement, noting, List.map_append, List.reverse_append]
          rfl
        rw [lines_noting ht hroom, hran, hconditions]
      · rfl
    · rfl

/-- The draft with more relations. -/
def notingAll (d : FlowDraft) (relations : List PendingRelation) : FlowDraft :=
  { d with pending := d.pending ++ relations }

theorem length_relationsOf_notingAll (d : FlowDraft) (relations : List PendingRelation) (i : Nat) :
    (d.relationsOf i).length ≤ ((d.notingAll relations).relationsOf i).length := by
  rw [relationsOf, relationsOf, notingAll, List.filter_append, List.length_append]
  exact Nat.le_add_right _ _

/-- Settling more relations succeeds if all of them are to earlier lines and there is room
for their conditions, and then ends in the settlement with them. -/
theorem foldlM_settle : ∀ (relations : List PendingRelation) {d : FlowDraft} {s : Settlement},
    (∀ i, (d.relationsOf i).length ≤ 2) → (relations.foldlM Settlement.settle d.settlement = .ok s ↔
      (∀ p ∈ relations, (d.target? p).isSome) ∧ (∀ i, ((d.notingAll relations).relationsOf i).length ≤ 2) ∧
        s = (d.notingAll relations).settlement)
  | [], d, s, hroom => by
    have hnone : d.notingAll [] = d := congrArg (fun pending => { d with pending }) (List.append_nil d.pending)
    rw [List.foldlM_nil, hnone]
    exact ⟨fun h => ⟨List.forall_mem_nil _, hroom, (Except.ok.inj h).symm⟩, fun h => congrArg Except.ok h.2.2.symm⟩
  | p :: relations, d, s, hroom => by
    have hall : d.notingAll (p :: relations) = (d.noting p).notingAll relations :=
      congrArg (fun pending => { d with pending }) (List.append_cons d.pending p relations)
    rw [List.foldlM_cons, settle_settlement, List.forall_mem_cons, hall]
    cases ht : d.target? p with
    | none => exact ⟨nofun, fun h => nomatch h.1.1⟩
    | some t =>
      have hcount (i : Nat) : ((d.noting p).relationsOf i).length =
          (d.relationsOf i).length + if p.line = i then 1 else 0 := by
        rw [relationsOf_noting, List.length_append]
        split <;> rfl
      dsimp only
      split
      · rename_i hlt
        have hnext : ∀ i, ((d.noting p).relationsOf i).length ≤ 2 := by
          intro i
          rw [hcount]
          split
          · rename_i heq
            rw [← heq]
            exact hlt
          · exact hroom i
        refine (foldlM_settle relations hnext).trans ?_
        exact ⟨fun ⟨htargets, hrest⟩ => ⟨⟨rfl, htargets⟩, hrest⟩, fun ⟨⟨_, htargets⟩, hrest⟩ => ⟨htargets, hrest⟩⟩
      · rename_i hfull
        refine ⟨nofun, fun ⟨_, hrelations, _⟩ => ?_⟩
        have hle := Nat.le_trans (length_relationsOf_notingAll (d.noting p) relations p.line) (hrelations p.line)
        rw [hcount, if_pos rfl] at hle
        omega

end FlowDraft

end TestProgram
