import TestProgram.Proofs.Flow.Settling

/-!
# Finished flows

Which drafts can be finished (`FlowDraft.Finishable`), and what the lines of the finished
flow are (`finish_eq_ok`): each of them is a line of the draft, settled and with its job
column, or sets the flag for such a line's having run (`LineOrigin`, `FlowDraft.rows`).
-/

namespace TestProgram

/-- Where a line of a finished flow comes from: it is the line `l` of the draft, at the
position `i`, or the line that sets the flag for this one's having run. -/
inductive LineOrigin where
  | given (i : Nat) (l : FlowLine)
  | ranFlag (i : Nat) (l : FlowLine)

/-- Where a flag line goes after its line if that line's having run is tested. -/
def LineOrigin.ofLine (ran : List Nat) (l : FlowLine × Nat) : List LineOrigin :=
  if ran.contains l.2 then [.given l.2 l.1, .ranFlag l.2 l.1] else [.given l.2 l.1]

/-! ## Columns -/

namespace FlowLine

theorem get?_setIf (l : FlowLine) (c d : Column) (value : Option String) :
    (l.setIf c value).get? d = if d = c then value.or (l.get? c) else l.get? d := by
  cases value with
  | none =>
    split
    · rename_i h
      rw [h]
      rfl
    · rfl
  | some v =>
    split
    · rename_i h
      rw [h]
      exact l.get?_set_self c v
    · rename_i h
      exact l.get?_set_of_ne v h

/-- A line without attributes has its operation, its parameter and a result. -/
theorem get?_new (id : String) (op : Opcode) (parameter : String) (c : Column) :
    (new id op parameter).get? c = match c with
      | .opcode => some op.text
      | .parameter => if parameter.isEmpty then none else some parameter
      | .result => op.defaultResult?
      | _ => none := by
  unfold new
  dsimp only
  rw [get?_setIf]
  cases hempty : parameter.isEmpty
  all_goals cases c
  all_goals first | rfl | exact Option.or_none

theorem new_rest (id : String) (op : Opcode) (parameter : String) : (new id op parameter).id = id ∧
    (new id op parameter).op = op ∧ (new id op parameter).ifJobs = [] ∧ (new id op parameter).unlessJobs = [] := by
  unfold new
  dsimp only
  cases op.defaultResult? <;> split <;> exact ⟨rfl, rfl, rfl, rfl⟩

end FlowLine

/-! ## Job columns and jumps -/

/-- The line with its job column, if it asks for no more than one kind of jobs. -/
def FlowLine.sealed (l : FlowLine) : FlowLine := l.setIf .job (l.job?.toOption.getD none)

/-- A line that asks for one kind of jobs at most and is no jump to nowhere. -/
structure FlowLine.Sealable (labels : List String) (l : FlowLine) : Prop where
  jobs : l.ifJobs = [] ∨ l.unlessJobs = []
  jump : l.op = .goto → l.parameter ∈ labels

namespace FlowLine

theorem exists_job? {l : FlowLine} : (∃ job, l.job? = .ok job) ↔ l.ifJobs = [] ∨ l.unlessJobs = [] := by
  unfold job?
  cases l.ifJobs with
  | nil => cases l.unlessJobs <;> exact ⟨fun _ => .inl rfl, fun _ => ⟨_, rfl⟩⟩
  | cons job jobs =>
    cases l.unlessJobs with
    | nil => exact ⟨fun _ => .inr rfl, fun _ => ⟨_, rfl⟩⟩
    | cons job' jobs' =>
      constructor
      · rintro ⟨_, h⟩
        cases h
      · rintro (h | h) <;> cases h

theorem freeze_eq_ok {l m : FlowLine} : l.freeze = .ok m ↔ (l.ifJobs = [] ∨ l.unlessJobs = []) ∧ m = l.sealed := by
  rw [freeze, bind_eq_ok, ← exists_job?, sealed]
  constructor
  · rintro ⟨job, hjob, h⟩
    rw [hjob]
    exact ⟨⟨job, rfl⟩, (Except.ok.inj h).symm⟩
  · rintro ⟨⟨job, hjob⟩, rfl⟩
    rw [hjob]
    exact ⟨job, rfl, rfl⟩

/-- All other columns stay as they are. -/
theorem sealed_kept (l : FlowLine) : KeptBut (· == .job) l.sealed l := by
  unfold sealed
  cases l.job?.toOption.getD none with
  | none => exact .refl l
  | some job => exact .set l job rfl

end FlowLine

namespace FlowDraft

open Settlement

theorem sealLine_eq_ok {labels : List String} {l m : FlowLine} :
    sealLine labels l = .ok m ↔ l.Sealable labels ∧ m = l.sealed := by
  have hop := l.sealed_kept.op
  have hparameter := l.sealed_kept.parameter rfl
  rw [sealLine, bind_eq_ok]
  simp only [FlowLine.freeze_eq_ok]
  constructor
  · rintro ⟨_, ⟨hjobs, rfl⟩, h⟩
    rw [hop, hparameter] at h
    split at h
    · cases h
    · rename_i hjump
      refine ⟨⟨hjobs, fun hgoto => ?_⟩, (Except.ok.inj h).symm⟩
      simp only [hgoto, true_and, Bool.not_eq_true', Bool.not_eq_false, List.contains_iff_mem] at hjump
      exact hjump
  · rintro ⟨⟨hjobs, hjump⟩, rfl⟩
    refine ⟨_, ⟨hjobs, rfl⟩, ?_⟩
    rw [hop, hparameter, if_neg]
    · rfl
    · rintro ⟨hgoto, hmissing⟩
      rw [List.contains_iff_mem.mpr (hjump hgoto)] at hmissing
      cases hmissing

theorem mapM_sealLine {labels : List String} : ∀ {lines lines' : List FlowLine},
    lines.mapM (sealLine labels) = .ok lines' ↔
      (∀ l ∈ lines, l.Sealable labels) ∧ lines' = lines.map FlowLine.sealed
  | [], lines' => by
    rw [List.mapM_nil]
    exact ⟨fun h => ⟨List.forall_mem_nil _, (Except.ok.inj h).symm⟩, fun h => congrArg Except.ok h.2.symm⟩
  | l :: lines, lines' => by
    rw [List.mapM_cons, bind_eq_ok, List.forall_mem_cons, List.map_cons]
    simp only [bind_eq_ok, sealLine_eq_ok, mapM_sealLine]
    constructor
    · rintro ⟨m, ⟨hl, rfl⟩, ms, ⟨hlines, rfl⟩, h⟩
      exact ⟨⟨hl, hlines⟩, (Except.ok.inj h).symm⟩
    · rintro ⟨⟨hl, hlines⟩, rfl⟩
      exact ⟨_, ⟨hl, rfl⟩, _, ⟨hlines, rfl⟩, rfl⟩

/-! ## Lines and their origins -/

/-- Where the lines of the finished flow come from. -/
def rows (d : FlowDraft) : List LineOrigin := d.lines.zipIdx.flatMap (LineOrigin.ofLine (d.tested .ran))

/-- The line before it gets its job column. -/
def lineOf (d : FlowDraft) : LineOrigin → FlowLine
  | .given i l => d.settledLine i l
  | .ranFlag i l => ranLine (d.settledLine i l)

/-- The line in the finished flow. -/
def finishedLine (d : FlowDraft) (o : LineOrigin) : FlowLine := (d.lineOf o).sealed

theorem allLines_settlement (d : FlowDraft) : d.settlement.allLines = d.rows.map d.lineOf := by
  have hlines : d.settlement.lines.zipIdx = d.lines.zipIdx.map fun l => (d.settledLine l.2 l.1, l.2) := by
    refine List.ext_getElem? fun i => ?_
    rw [settlement, List.getElem?_zipIdx, List.getElem?_mapIdx, List.getElem?_map, List.getElem?_zipIdx,
      Option.map_map, Option.map_map, Nat.zero_add]
    rfl
  have hran (i : Nat) : d.settlement.ran.contains i = (d.tested .ran).contains i := by
    rw [settlement, List.contains_reverse]
  rw [allLines, hlines, List.flatMap_map, rows, List.map_flatMap]
  congr 1
  funext l
  dsimp only
  rw [hran, LineOrigin.ofLine]
  split <;> rfl

theorem mem_ofLine {ran : List Nat} {l : FlowLine} {i : Nat} {o : LineOrigin} :
    o ∈ LineOrigin.ofLine ran (l, i) ↔ o = .given i l ∨ i ∈ ran ∧ o = .ranFlag i l := by
  unfold LineOrigin.ofLine
  by_cases hran : i ∈ ran
  · rw [if_pos (List.contains_iff_mem.mpr hran), List.mem_cons, List.mem_singleton, and_iff_right hran]
  · rw [if_neg fun h => hran (List.contains_iff_mem.mp h), List.mem_singleton, or_iff_left fun h => hran h.1]

theorem mem_rows {d : FlowDraft} {o : LineOrigin} : o ∈ d.rows ↔ match o with
    | .given i l => d.lines[i]? = some l
    | .ranFlag i l => d.lines[i]? = some l ∧ i ∈ d.tested .ran := by
  rw [rows, List.mem_flatMap]
  simp only [Prod.exists, List.mem_zipIdx_iff_getElem?, mem_ofLine]
  cases o with
  | given i l =>
    constructor
    · rintro ⟨l', j, hl, h | ⟨_, h⟩⟩
      · obtain ⟨rfl, rfl⟩ := LineOrigin.given.inj h
        exact hl
      · cases h
    · exact fun hl => ⟨l, i, hl, .inl rfl⟩
  | ranFlag i l =>
    constructor
    · rintro ⟨l', j, hl, h | ⟨hran, h⟩⟩
      · cases h
      · obtain ⟨rfl, rfl⟩ := LineOrigin.ranFlag.inj h
        exact ⟨hl, hran⟩
    · exact fun ⟨hl, hran⟩ => ⟨l, i, hl, .inr ⟨hran, rfl⟩⟩

/-! ## The lines that set flags -/

/-- The flag line is enabled like its line, and in the same part and environment. All
other columns but the operation and the flag are empty. -/
theorem get?_ranLine (l : FlowLine) : ∀ c : Column, (ranLine l).get? c =
    match c with
    | .enable | .part | .env => l.get? c
    | .opcode => some Opcode.flagTrue.text
    | .parameter => some ((⟨.ran, false⟩ : Relation).flag l.id)
    | _ => none := by
  have hflag : ((⟨.ran, false⟩ : Relation).flag l.id).isEmpty = false := by
    rw [← Bool.not_eq_true, String.isEmpty_iff, Relation.flag, String.append_eq_empty_iff]
    exact fun h => nomatch h.2
  intro c
  rw [ranLine, List.foldl_cons, List.foldl_cons, List.foldl_cons, List.foldl_nil]
  simp only [FlowLine.get?_setIf, FlowLine.get?_new, hflag]
  cases c <;> simp [Opcode.defaultResult?]

theorem ranLine_rest (l : FlowLine) : (ranLine l).id = l.id ++ "_ran" ∧ (ranLine l).op = .flagTrue ∧
    (ranLine l).ifJobs = [] ∧ (ranLine l).unlessJobs = [] := by
  have hgate (m : FlowLine) (c : Column) (value : Option String) : (m.setIf c value).id = m.id ∧
      (m.setIf c value).op = m.op ∧ (m.setIf c value).ifJobs = m.ifJobs ∧
        (m.setIf c value).unlessJobs = m.unlessJobs := by
    cases value <;> exact ⟨rfl, rfl, rfl, rfl⟩
  rw [ranLine, List.foldl_cons, List.foldl_cons, List.foldl_cons, List.foldl_nil]
  simp only [hgate]
  exact FlowLine.new_rest _ _ _

/-! ## Which drafts can be finished -/

/-- Every relation is to an earlier line, no line has more than two of them, no line asks
for both kinds of jobs, and no line is a jump to nowhere. -/
structure Finishable (d : FlowDraft) : Prop where
  targets : ∀ p ∈ d.pending, ∃ i < p.line, ∃ l, d.lines[i]? = some l ∧ l.id = p.target
  relations : ∀ i, (d.relationsOf i).length ≤ 2
  jobs : ∀ l ∈ d.lines, l.ifJobs = [] ∨ l.unlessJobs = []
  jumps : ∀ l ∈ d.lines, l.op = .goto → ∃ m ∈ d.lines, m.get? .label = some l.parameter

/-- Settling and flag lines leave the labels as they are. -/
theorem mem_labels_rows {d : FlowDraft} {label : String} :
    label ∈ labels (d.rows.map d.lineOf) ↔ ∃ l ∈ d.lines, l.get? .label = some label := by
  have hgiven (i : Nat) (l : FlowLine) : (d.lineOf (.given i l)).get? .label = l.get? .label :=
    (d.settledLine_kept i l).cells .label rfl
  rw [labels, List.mem_filterMap]
  constructor
  · rintro ⟨m, hm, hlabel⟩
    obtain ⟨o, ho, rfl⟩ := List.mem_map.mp hm
    cases o with
    | given i l =>
      rw [hgiven] at hlabel
      exact ⟨l, List.mem_of_getElem? (mem_rows.mp ho), hlabel⟩
    | ranFlag i l =>
      rw [lineOf, get?_ranLine] at hlabel
      cases hlabel
  · rintro ⟨l, hl, hlabel⟩
    obtain ⟨i, hi⟩ := List.getElem?_of_mem hl
    exact ⟨d.lineOf (.given i l), List.mem_map_of_mem (mem_rows.mpr hi), (hgiven i l).trans hlabel⟩

theorem sealable_rows {d : FlowDraft} :
    (∀ l ∈ d.rows.map d.lineOf, l.Sealable (labels (d.rows.map d.lineOf))) ↔
      (∀ l ∈ d.lines, l.ifJobs = [] ∨ l.unlessJobs = []) ∧
        ∀ l ∈ d.lines, l.op = .goto → ∃ m ∈ d.lines, m.get? .label = some l.parameter := by
  have hgiven (i : Nat) (l : FlowLine) : (d.lineOf (.given i l)).Sealable (labels (d.rows.map d.lineOf)) ↔
      (l.ifJobs = [] ∨ l.unlessJobs = []) ∧ (l.op = .goto → ∃ m ∈ d.lines, m.get? .label = some l.parameter) := by
    have hkept := d.settledLine_kept i l
    rw [← mem_labels_rows, ← hkept.ifJobs, ← hkept.unlessJobs, ← hkept.op, ← hkept.parameter rfl]
    exact ⟨fun h => ⟨h.jobs, h.jump⟩, fun h => ⟨h.1, h.2⟩⟩
  constructor
  · intro h
    have hline (l : FlowLine) (hl : l ∈ d.lines) : (l.ifJobs = [] ∨ l.unlessJobs = []) ∧
        (l.op = .goto → ∃ m ∈ d.lines, m.get? .label = some l.parameter) := by
      obtain ⟨i, hi⟩ := List.getElem?_of_mem hl
      exact (hgiven i l).mp (h _ (List.mem_map_of_mem (mem_rows.mpr hi)))
    exact ⟨fun l hl => (hline l hl).1, fun l hl => (hline l hl).2⟩
  · rintro ⟨hjobs, hjumps⟩ m hm
    obtain ⟨o, ho, rfl⟩ := List.mem_map.mp hm
    cases o with
    | given i l =>
      have hl := List.mem_of_getElem? (mem_rows.mp ho)
      exact (hgiven i l).mpr ⟨hjobs l hl, hjumps l hl⟩
    | ranFlag i l =>
      obtain ⟨-, hop, hif, -⟩ := ranLine_rest (d.settledLine i l)
      exact ⟨.inl hif, fun hgoto => nomatch hop.symm.trans hgoto⟩

theorem finish_eq_ok {d : FlowDraft} {f : Flow} :
    d.finish = .ok f ↔ d.Finishable ∧ f = ⟨d.name, d.rows.map d.finishedLine⟩ := by
  have hblank : ({ d with pending := [] } : FlowDraft).settlement = ⟨d.lines, [], []⟩ := by
    have hlines : d.lines.mapIdx ({ d with pending := [] } : FlowDraft).settledLine = d.lines := by
      refine List.ext_getElem? fun i => ?_
      rw [List.getElem?_mapIdx]
      cases d.lines[i]? <;> rfl
    exact congrArg (Settlement.mk · [] []) hlines
  have hsettle (s : Settlement) :=
    foldlM_settle d.pending (d := { d with pending := [] }) (s := s) fun _ => Nat.zero_le 2
  have hall : ({ d with pending := [] } : FlowDraft).notingAll d.pending = d := rfl
  have hlines : (d.rows.map d.lineOf).map FlowLine.sealed = d.rows.map d.finishedLine := List.map_map
  rw [hall] at hsettle
  rw [finish, ← hblank]
  simp only [bind_eq_ok, hsettle, mapM_sealLine]
  constructor
  · rintro ⟨s, ⟨htargets, hrelations, rfl⟩, lines, ⟨hsealable, rfl⟩, h⟩
    rw [allLines_settlement] at hsealable h
    rw [hlines] at h
    obtain ⟨hjobs, hjumps⟩ := sealable_rows.mp hsealable
    exact ⟨⟨fun p hp => isSome_target?.mp (htargets p hp), hrelations, hjobs, hjumps⟩, (Except.ok.inj h).symm⟩
  · rintro ⟨h, rfl⟩
    refine ⟨_, ⟨fun p hp => isSome_target?.mpr (h.targets p hp), h.relations, rfl⟩, _, ⟨?_, rfl⟩, ?_⟩
    · rw [allLines_settlement]
      exact sealable_rows.mpr ⟨h.jobs, h.jumps⟩
    · rw [allLines_settlement, hlines]
      rfl

theorem exists_finish {d : FlowDraft} (h : d.finish.isOk = true) : ∃ f, d.finish = .ok f := by
  cases hf : d.finish with
  | ok f => exact ⟨f, rfl⟩
  | error e =>
    rw [hf] at h
    cases h

end FlowDraft

end TestProgram
