import TestProgram.Proofs.Flow.Jobs
import TestProgram.Proofs.Text.Splitting

/-!
# Texts of flows

A program gives texts to its flow (`FlowOperation.texts`): parameters, values of attributes, jobs and words. The cells
of the finished flow are made of these and of constants. So no cell has a tab or a newline in it if no text of the
program has one (`FlowOperation.neat_finish`).
-/

namespace TestProgram

namespace Text

/-- The text has neither tabs nor newlines, the separators of tables. -/
def Unbroken (s : String) : Prop := '\t' ∉ s.toList ∧ '\n' ∉ s.toList

instance (s : String) : Decidable (Unbroken s) := inferInstanceAs (Decidable (_ ∧ _))

theorem Unbroken.of_subset {s t : String} (h : Unbroken s) (hsub : t.toList ⊆ s.toList) : Unbroken t :=
  ⟨fun ht => h.1 (hsub ht), fun ht => h.2 (hsub ht)⟩

theorem Unbroken.append {s t : String} (hs : Unbroken s) (ht : Unbroken t) : Unbroken (s ++ t) := by
  rw [Unbroken, String.toList_append, List.mem_append, List.mem_append, not_or, not_or]
  exact ⟨⟨hs.1, ht.1⟩, ⟨hs.2, ht.2⟩⟩

theorem Unbroken.intercalate {sep : String} {parts : List String} (hsep : Unbroken sep)
    (hparts : ∀ part ∈ parts, Unbroken part) : Unbroken (sep.intercalate parts) := by
  rw [Unbroken, String.toList_intercalate]
  constructor
  all_goals
    intro h
    rcases mem_of_mem_intercalate h with h | ⟨part, hpart, h⟩
  · exact hsep.1 h
  · obtain ⟨text, htext, rfl⟩ := List.mem_map.mp hpart
    exact (hparts text htext).1 h
  · exact hsep.2 h
  · obtain ⟨text, htext, rfl⟩ := List.mem_map.mp hpart
    exact (hparts text htext).2 h

theorem unbroken_toString (n : Nat) : Unbroken (toString n) := by
  have hdigit {c : Char} (hc : c ∈ (toString n).toList) : c.isDigit = true := by
    rw [Nat.toString_eq_repr, Nat.toList_repr] at hc
    exact Nat.isDigit_of_mem_toDigits (by decide) (by decide) hc
  exact ⟨fun h => absurd (hdigit h) (by decide), fun h => absurd (hdigit h) (by decide)⟩

/-- The words of a list with commas are taken from it. -/
theorem unbroken_entries {s : String} (h : Unbroken s) : ∀ word ∈ entries s, Unbroken word := by
  intro word hword
  rw [entries_eq] at hword
  obtain ⟨cs, hcs, rfl⟩ := List.mem_map.mp hword
  obtain ⟨part, hpart, rfl⟩ := List.mem_map.mp (List.mem_of_mem_filter hcs)
  obtain ⟨before, after, htrim, -⟩ := trim_spec part
  refine h.of_subset fun c hc => mem_of_mem_splitOn hpart ?_
  rw [String.toList_ofList] at hc
  rw [htrim]
  exact List.mem_append_right _ (List.mem_append_left _ hc)

end Text

open Text (Unbroken)

/-! ## Texts of programs -/

namespace FlowScope

/-- What the scope is given. -/
def texts : FlowScope → List String
  | .ifJob jobs | .unlessJob jobs => jobs
  | .ifEnable word | .unlessEnable word => [word]

theorem ifJobs_subset : ∀ s : FlowScope, s.ifJobs ⊆ s.texts
  | .ifJob jobs => List.Subset.refl jobs
  | .unlessJob _ | .ifEnable _ | .unlessEnable _ => List.nil_subset _

theorem unlessJobs_subset : ∀ s : FlowScope, s.unlessJobs ⊆ s.texts
  | .unlessJob jobs => List.Subset.refl jobs
  | .ifJob _ | .ifEnable _ | .unlessEnable _ => List.nil_subset _

theorem mem_texts_of_ifWord? {word : String} : ∀ {s : FlowScope}, s.ifWord? = some word → word ∈ s.texts
  | .ifEnable _, h => List.mem_singleton.mpr (Option.some.inj h).symm

end FlowScope

namespace FlowOperation

mutual

/-- What the operation gives to lines. A relation only names lines that are there. -/
def texts : FlowOperation → List String
  | .add _ parameter attrs => parameter :: attrs.map Prod.snd
  | .relate _ _ _ => []
  | .scope s body => s.texts ++ programTexts body

def programTexts : List FlowOperation → List String
  | [] => []
  | op :: ops => op.texts ++ programTexts ops

end

end FlowOperation

/-! ## Lines -/

/-- Attributes with unbroken values only. -/
structure Attributes.Neat (a : Attributes) : Prop where
  id : ∀ id ∈ a.id, Unbroken id
  ifJobs : ∀ job ∈ a.ifJobs, Unbroken job
  unlessJobs : ∀ job ∈ a.unlessJobs, Unbroken job
  enable : ∀ word ∈ a.enable, Unbroken word
  cells : ∀ cell ∈ a.cells, Unbroken cell.2

namespace Attributes.Neat

theorem add {a : Attributes} (h : a.Neat) (key : String) {value : String} (hvalue : Unbroken value) :
    (a.add key value).Neat := by
  have hentries := Text.unbroken_entries hvalue
  unfold Attributes.add
  split
  · exact ⟨h.id, h.ifJobs, h.unlessJobs, h.enable, h.cells⟩
  · split
    case h_1 => exact { h with id := fun _ hid => Option.some.inj hid ▸ hvalue }
    case h_2 | h_3 => exact { h with ifJobs := List.forall_mem_append.mpr ⟨h.ifJobs, hentries⟩ }
    case h_4 | h_5 => exact { h with unlessJobs := List.forall_mem_append.mpr ⟨h.unlessJobs, hentries⟩ }
    case h_6 => exact { h with enable := fun _ hword => Option.some.inj hword ▸ hvalue }
    case h_7 => exact { h with cells := List.forall_mem_append.mpr ⟨h.cells, List.forall_mem_singleton.mpr hvalue⟩ }

theorem ofList {attrs : List (String × String)} (h : ∀ attr ∈ attrs, Unbroken attr.2) :
    (Attributes.ofList attrs).Neat := by
  have hfold : ∀ (attrs : List (String × String)) (a : Attributes), (∀ attr ∈ attrs, Unbroken attr.2) →
      a.Neat → (attrs.foldl (fun a attr => a.add attr.1 attr.2) a).Neat := by
    intro attrs
    induction attrs with
    | nil => exact fun _ _ ha => ha
    | cons attr attrs ih =>
      intro a hattrs ha
      obtain ⟨hattr, hattrs⟩ := List.forall_mem_cons.mp hattrs
      exact ih _ hattrs (ha.add attr.1 hattr)
  exact hfold attrs empty h ⟨nofun, nofun, nofun, nofun, nofun⟩

end Attributes.Neat

/-- A line with unbroken texts only. -/
structure FlowLine.Neat (l : FlowLine) : Prop where
  id : Unbroken l.id
  cells : ∀ c, ∀ value ∈ l.get? c, Unbroken value
  ifJobs : ∀ job ∈ l.ifJobs, Unbroken job
  unlessJobs : ∀ job ∈ l.unlessJobs, Unbroken job

namespace FlowLine.Neat

variable {l : FlowLine}

theorem set (h : l.Neat) (c : Column) {value : String} (hvalue : Unbroken value) : (l.set c value).Neat := by
  refine { h with cells := fun d other hother => ?_ }
  by_cases hd : d = c
  · subst hd
    rw [FlowLine.get?_set_self] at hother
    exact Option.some.inj hother ▸ hvalue
  · rw [FlowLine.get?_set_of_ne l value hd] at hother
    exact h.cells d other hother

theorem setIf (h : l.Neat) (c : Column) {value : Option String} (hvalue : ∀ v ∈ value, Unbroken v) :
    (l.setIf c value).Neat := by
  cases value with
  | none => exact h
  | some v => exact h.set c (hvalue v rfl)

theorem withAttributes {attrs : List (String × String)} (h : l.Neat)
    (hattrs : ∀ attr ∈ attrs, Unbroken attr.2) : (l.withAttributes attrs).1.Neat := by
  induction attrs generalizing l with
  | nil => exact h
  | cons attr attrs ih =>
    obtain ⟨hattr, hattrs⟩ := List.forall_mem_cons.mp hattrs
    rw [FlowLine.withAttributes]
    split
    · rename_i c _
      exact ih (h.set c hattr) hattrs
    · exact ih h hattrs

/-- Cells of the row that are not filled are empty. -/
theorem row (h : l.Neat) : ∀ cell ∈ l.row, Unbroken cell := by
  intro cell hcell
  obtain ⟨c, -, rfl⟩ := List.mem_map.mp hcell
  cases hvalue : l.get? c with
  | none => decide
  | some value => exact h.cells c value hvalue

end FlowLine.Neat

theorem Opcode.unbroken_text (op : Opcode) : Unbroken op.text := by cases op <;> decide

theorem FlowLine.unbroken_new {id parameter : String} (op : Opcode) (hid : Unbroken id)
    (hparameter : Unbroken parameter) : (new id op parameter).Neat := by
  have hblank : (⟨id, op, fun _ => none, [], []⟩ : FlowLine).Neat := ⟨hid, nofun, nofun, nofun⟩
  have hopcode := hblank.set .opcode op.unbroken_text
  have hresult : ∀ v ∈ op.defaultResult?, Unbroken v := by cases op <;> decide
  unfold new
  dsimp only
  refine Neat.setIf ?_ .result hresult
  split
  · exact hopcode
  · exact hopcode.set .parameter hparameter

theorem FlowLine.unbroken_addJob {jobs known : List String} (hknown : ∀ job ∈ known, Unbroken job)
    (hjobs : ∀ job ∈ jobs, Unbroken job) : ∀ job ∈ jobs.foldl addJob known, Unbroken job := by
  rw [foldl_addJob]
  refine List.forall_mem_append.mpr ⟨hknown, fun job hjob => hjobs job ?_⟩
  exact List.mem_of_mem_filter (List.mem_eraseDups.mp hjob)

/-! ## Open scopes -/

/-- The texts of all scopes are unbroken. -/
def OpenScope.Neat (path : List OpenScope) : Prop := ∀ s ∈ path, ∀ text ∈ s.scope.texts, Unbroken text

namespace OpenScope.Neat

variable {path : List OpenScope}

theorem jobs (h : Neat path) {f : OpenScope → List String} (hf : ∀ s, f s ⊆ s.scope.texts) :
    ∀ job ∈ path.reverse.flatMap f, Unbroken job := by
  intro job hjob
  obtain ⟨s, hs, hjob⟩ := List.mem_flatMap.mp hjob
  exact h s (List.mem_reverse.mp hs) job (hf s hjob)

theorem ifJobs (h : Neat path) : ∀ job ∈ OpenScope.ifJobs path, Unbroken job :=
  h.jobs fun s => s.scope.ifJobs_subset

theorem unlessJobs (h : Neat path) : ∀ job ∈ OpenScope.unlessJobs path, Unbroken job :=
  h.jobs fun s => s.scope.unlessJobs_subset

theorem ifWords (h : Neat path) : ∀ word ∈ OpenScope.ifWords path, Unbroken word := by
  intro word hword
  obtain ⟨s, hs, hword⟩ := List.mem_filterMap.mp hword
  exact h s hs word (FlowScope.mem_texts_of_ifWord? hword)

end OpenScope.Neat

theorem neat_addedLine {path : List OpenScope} (op : Opcode) {parameter : String} {attrs : List (String × String)}
    (hpath : OpenScope.Neat path) (hparameter : Unbroken parameter) (hattrs : ∀ attr ∈ attrs, Unbroken attr.2)
    (position : Nat) : (addedLine path op parameter attrs position).Neat := by
  have ha := Attributes.Neat.ofList hattrs
  have hid : Unbroken ((Attributes.ofList attrs).id.getD s!"t{position + 1}") := by
    cases hgiven : (Attributes.ofList attrs).id with
    | none => exact .append (by decide) (Text.unbroken_toString _)
    | some id => exact ha.id id hgiven
  have hline := (FlowLine.unbroken_new op hid hparameter).withAttributes ha.cells
  have hplain : (plainLine path op parameter attrs position).Neat :=
    ⟨hline.id, hline.cells,
      FlowLine.unbroken_addJob hline.ifJobs (List.forall_mem_append.mpr ⟨hpath.ifJobs, ha.ifJobs⟩),
      FlowLine.unbroken_addJob hline.unlessJobs (List.forall_mem_append.mpr ⟨hpath.unlessJobs, ha.unlessJobs⟩)⟩
  unfold addedLine
  dsimp only
  split
  · exact hplain
  · refine hplain.setIf .enable fun word hword => ?_
    rcases Option.or_eq_some_iff.mp hword with hword | ⟨-, hword⟩
    · exact ha.enable word hword
    · exact hpath.ifWords word (List.mem_of_mem_head? hword)

/-! ## What programs add -/

/-- What the line is added for, and the scopes around it, have unbroken texts. -/
def Addition.Neat : Addition → Prop
  | asked path _ parameter attrs => OpenScope.Neat path ∧ Unbroken parameter ∧ ∀ attr ∈ attrs, Unbroken attr.2
  | jump path word _ | landing path word _ => OpenScope.Neat path ∧ Unbroken word

theorem unbroken_skipLabel {word : String} (hword : Unbroken word) (number : Nat) : Unbroken (skipLabel word number) :=
  .append (.append (.append (by decide) hword) (by decide)) (Text.unbroken_toString number)

theorem Addition.Neat.line (position : Nat) : ∀ {a : Addition}, a.Neat → (a.line position).Neat
  | asked path op parameter attrs, ⟨hpath, hparameter, hattrs⟩ => by
    rw [Addition.line]
    exact neat_addedLine op hpath hparameter hattrs position
  | jump path word number, ⟨hpath, hword⟩ => by
    have hscope : OpenScope.Neat (⟨.ifEnable word, number⟩ :: path) :=
      List.forall_mem_cons.mpr ⟨List.forall_mem_singleton.mpr hword, hpath⟩
    rw [Addition.line]
    exact neat_addedLine .goto hscope (unbroken_skipLabel hword number) (List.forall_mem_nil _) position
  | landing path word number, ⟨hpath, hword⟩ => by
    have hlabel := unbroken_skipLabel hword number
    rw [Addition.line]
    exact neat_addedLine .nop hpath (by decide) (List.forall_mem_singleton.mpr hlabel) position

namespace FlowOperation

variable {path : List OpenScope}

theorem neat_opening (hpath : OpenScope.Neat path) (number : Nat) : ∀ {s : FlowScope},
    (∀ text ∈ s.texts, Unbroken text) → ∀ a ∈ opening path number s ++ closing path number s, a.Neat
  | .ifJob _, _ | .unlessJob _, _ | .ifEnable _, _ => List.forall_mem_nil _
  | .unlessEnable word, h => by
    have hword : Unbroken word := h word (List.mem_singleton_self word)
    exact List.forall_mem_cons.mpr ⟨⟨hpath, hword⟩, List.forall_mem_singleton.mpr ⟨hpath, hword⟩⟩

mutual

theorem neat_additions : ∀ (op : FlowOperation) {path : List OpenScope} (d : FlowDraft), OpenScope.Neat path →
    (∀ text ∈ op.texts, Unbroken text) → ∀ a ∈ additions path op d, a.Neat
  | .add op parameter attrs, path, d, hpath, h => by
    rw [texts] at h
    obtain ⟨hparameter, hattrs⟩ := List.forall_mem_cons.mp h
    rw [additions]
    exact List.forall_mem_singleton.mpr ⟨hpath, hparameter, List.forall_mem_map.mp hattrs⟩
  | .relate _ _ _, path, d, _, _ => by
    rw [additions]
    exact List.forall_mem_nil _
  | .scope s body, path, d, hpath, h => by
    rw [texts] at h
    obtain ⟨hscope, hbody⟩ := List.forall_mem_append.mp h
    obtain ⟨hopening, hclosing⟩ := List.forall_mem_append.mp (neat_opening hpath (d.entered s).skips hscope)
    have hlines := neat_bodyAdditions body (d.entered s)
      (List.forall_mem_cons.mpr ⟨hscope, hpath⟩ : OpenScope.Neat (⟨s, (d.entered s).skips⟩ :: path)) hbody
    rw [additions]
    exact List.forall_mem_append.mpr ⟨List.forall_mem_append.mpr ⟨hopening, hlines⟩, hclosing⟩

theorem neat_bodyAdditions : ∀ (ops : List FlowOperation) {path : List OpenScope} (d : FlowDraft), OpenScope.Neat path →
    (∀ text ∈ programTexts ops, Unbroken text) → ∀ a ∈ bodyAdditions path ops d, a.Neat
  | [], path, d, _, _ => by
    rw [bodyAdditions]
    exact List.forall_mem_nil _
  | op :: ops, path, d, hpath, h => by
    rw [programTexts] at h
    obtain ⟨hfirst, hrest⟩ := List.forall_mem_append.mp h
    rw [bodyAdditions]
    refine List.forall_mem_append.mpr ⟨neat_additions op d hpath hfirst, ?_⟩
    split
    · exact neat_bodyAdditions ops _ hpath hrest
    · exact List.forall_mem_nil _

end

theorem neat_allAdditions : ∀ (ops : List FlowOperation) (d : FlowDraft), (∀ text ∈ programTexts ops, Unbroken text) →
    ∀ a ∈ allAdditions ops d, a.Neat
  | [], _, _ => List.forall_mem_nil _
  | op :: ops, d, h => by
    rw [programTexts] at h
    obtain ⟨hfirst, hrest⟩ := List.forall_mem_append.mp h
    exact List.forall_mem_append.mpr
      ⟨neat_additions op d (List.forall_mem_nil _) hfirst, neat_allAdditions ops _ hrest⟩

theorem neat_draft (name : String) {ops : List FlowOperation} (h : ∀ text ∈ programTexts ops, Unbroken text) :
    ∀ l ∈ (draft name ops).lines, l.Neat := by
  intro l hl
  rw [draft_lines] at hl
  obtain ⟨i, hi, rfl⟩ := List.mem_mapIdx.mp hl
  exact (neat_allAdditions ops (.new name) h _ (List.getElem_mem hi)).line i

end FlowOperation

/-! ## Finished lines -/

theorem Relation.unbroken_flag (r : Relation) {target : String} (h : Unbroken target) : Unbroken (r.flag target) :=
  h.append (by cases r.outcome <;> decide)

theorem Relation.unbroken_sense (r : Relation) : Unbroken r.sense := by
  unfold sense
  split <;> decide

namespace FlowLine.Neat

open Settlement

variable {l : FlowLine}

theorem raiseLine (h : l.Neat) {flag : String} (hflag : Unbroken flag) : ∀ outcome : TestOutcome,
    (raiseLine outcome flag l).Neat
  | .passed | .failed => (h.set .result (by decide)).set _ hflag
  | .ran => h

theorem flagged (h : l.Neat) (passed failed : Bool) : (flagged passed failed l).Neat := by
  have hflag (r : Relation) : Unbroken (r.flag l.id) := r.unbroken_flag h.id
  have hpassed := h.raiseLine (hflag ⟨.passed, false⟩) .passed
  cases passed with
  | false =>
    cases failed with
    | false => exact h
    | true => exact h.raiseLine (hflag ⟨.failed, false⟩) .failed
  | true =>
    cases failed with
    | false => exact hpassed
    | true => exact hpassed.raiseLine (hflag ⟨.failed, false⟩) .failed

theorem firstCondition (h : l.Neat) {sense flag : String} (hsense : Unbroken sense) (hflag : Unbroken flag) :
    (firstCondition sense flag l).Neat :=
  ((h.set .deviceSense hsense).set .deviceCondition (by decide)).set .deviceName hflag

theorem secondCondition (h : l.Neat) {sense flag : String} (hsense : Unbroken sense) (hflag : Unbroken flag) :
    (secondCondition sense flag l).Neat :=
  (((h.set .groupSpecifier (by decide)).set .groupSense hsense).set .groupCondition (by decide)).set .groupName hflag

theorem conditioned (h : l.Neat) : ∀ {relations : List PendingRelation}, (∀ p ∈ relations, Unbroken p.target) →
    (conditioned relations l).Neat
  | [], _ => h
  | [p], hrelations => by
    have hp := hrelations p (List.mem_singleton_self p)
    exact h.firstCondition p.relation.unbroken_sense (p.relation.unbroken_flag hp)
  | p :: q :: _, hrelations => by
    obtain ⟨hp, hrest⟩ := List.forall_mem_cons.mp hrelations
    obtain ⟨hq, -⟩ := List.forall_mem_cons.mp hrest
    have hfirst := h.firstCondition p.relation.unbroken_sense (p.relation.unbroken_flag hp)
    exact hfirst.secondCondition q.relation.unbroken_sense (q.relation.unbroken_flag hq)

theorem ranLine (h : l.Neat) : (ranLine l).Neat := by
  obtain ⟨hid, -, hif, hunless⟩ := FlowDraft.ranLine_rest l
  refine ⟨hid ▸ h.id.append (by decide), fun c value hvalue => ?_, hif ▸ List.forall_mem_nil _,
    hunless ▸ List.forall_mem_nil _⟩
  rw [FlowDraft.get?_ranLine] at hvalue
  split at hvalue
  case h_4 => exact Option.some.inj hvalue ▸ Opcode.unbroken_text _
  case h_5 => exact Option.some.inj hvalue ▸ Relation.unbroken_flag _ h.id
  case h_6 => cases hvalue
  all_goals exact h.cells _ value hvalue

theorem sealed (h : l.Neat) : l.sealed.Neat := by
  have hmarked : ∀ job ∈ l.unlessJobs.map ("!" ++ ·), Unbroken job :=
    List.forall_mem_map.mpr fun job hjob => .append (by decide) (h.unlessJobs job hjob)
  refine h.setIf .job fun cell hcell => ?_
  rw [FlowLine.job?] at hcell
  split at hcell
  · cases hcell
  · exact Option.some.inj hcell ▸ Unbroken.intercalate (by decide) h.ifJobs
  · exact Option.some.inj hcell ▸ Unbroken.intercalate (by decide) hmarked
  · cases hcell

end FlowLine.Neat

namespace FlowDraft

theorem neat_finishedLine {d : FlowDraft} (h : ∀ l ∈ d.lines, l.Neat) (hd : d.Finishable) :
    ∀ o ∈ d.rows, (d.finishedLine o).Neat := by
  have htarget (p : PendingRelation) (hp : p ∈ d.pending) : Unbroken p.target := by
    obtain ⟨_, -, l, hl, hid⟩ := hd.targets p hp
    exact hid ▸ (h l (List.mem_of_getElem? hl)).id
  have hsettled {i : Nat} {l : FlowLine} (hl : d.lines[i]? = some l) : (d.settledLine i l).Neat :=
    ((h l (List.mem_of_getElem? hl)).flagged _ _).conditioned fun p hp => htarget p (List.mem_of_mem_filter hp)
  intro o ho
  cases o with
  | given i l => exact (hsettled (mem_rows.mp ho)).sealed
  | ranFlag i l => exact (hsettled (mem_rows.mp ho).1).ranLine.sealed

end FlowDraft

/-- No text of the finished flow is broken if no text of its program is. -/
theorem FlowOperation.neat_finish {name : String} {ops : List FlowOperation} {f : Flow}
    (h : ∀ text ∈ programTexts ops, Unbroken text) (hf : (draft name ops).finish = .ok f) : ∀ l ∈ f.lines, l.Neat := by
  obtain ⟨hfinishable, rfl⟩ := FlowDraft.finish_eq_ok.mp hf
  exact List.forall_mem_map.mpr (FlowDraft.neat_finishedLine (neat_draft name h) hfinishable)

end TestProgram
