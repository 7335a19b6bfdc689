import TestProgram.Proofs.Flow.Drafts
import TestProgram.Proofs.Flow.Finishing

/-!
# What programs add to a flow

The lines of a draft are those that its program asks for, and for each scope of lines that
an enabled word switches off a jump before and the landing of the jump after them
(`FlowOperation.additions`). A line is given by what asks for it, by the scopes around it
and by its position (`Addition.line`); other settings of a draft do not matter, since a
program leaves a scope with the settings that it entered it with (`draft_lines`).
Jumps are numbered in the order in which their scopes are entered. So a program's
additions are well nested (`Block`).
-/

namespace TestProgram

/-! ## Columns of a new line -/

namespace Column

/-- The label, the operation and the columns that say when a line runs are filled under no other names. -/
theorem alias?_ne {c : Column} (hc : c = .label ∨ c = .opcode ∨ c.isContext) (key : String) : alias? key ≠ some c := by
  intro h
  unfold alias? at h
  split at h
  all_goals cases h
  all_goals exact hc.elim nofun fun hc => hc.elim nofun nofun

theorem of_ofAttribute? {c : Column} {key : String} (hc : c = .label ∨ c = .opcode ∨ c.isContext)
    (h : ofAttribute? key = some c) : key = c.name ∧ c ≠ .job := by
  have hfound := (Option.or_eq_some_iff.mp h).resolve_right fun h => alias?_ne hc key h.2
  have hname := List.find?_some hfound
  rw [Bool.and_eq_true, beq_iff_eq, decide_eq_true_eq] at hname
  exact ⟨hname.1.symm, hname.2⟩

end Column

namespace FlowLine

theorem get?_new_eq_none (id : String) (op : Opcode) (parameter : String) {c : Column} (hopcode : c ≠ .opcode)
    (hparameter : c ≠ .parameter) (hresult : c ≠ .result) : (new id op parameter).get? c = none := by
  rw [get?_new]
  cases c <;> first | rfl | contradiction

/-- The last attribute for a column fills it. -/
theorem get?_withAttributes (c : Column) : ∀ (l : FlowLine) (attrs : List (String × String)),
    (l.withAttributes attrs).1.get? c =
      ((attrs.reverse.find? fun attr => Column.ofAttribute? attr.1 = some c).map Prod.snd).or (l.get? c)
  | _, [] => rfl
  | l, (key, value) :: attrs => by
    rw [withAttributes, List.reverse_cons, List.find?_append, Option.map_or, Option.or_assoc, List.find?_singleton]
    split
    · rename_i d hd
      rw [get?_withAttributes c _ attrs, hd]
      by_cases hcolumn : d = c
      · subst hcolumn
        rw [get?_set_self, decide_eq_true rfl, if_pos rfl]
        rfl
      · rw [get?_set_of_ne l value (Ne.symm hcolumn), decide_eq_false fun h => hcolumn (Option.some.inj h)]
        rfl
    · rename_i hnone
      dsimp only
      rw [get?_withAttributes c l attrs, hnone]
      rfl

/-- Attributes leave the columns alone that none of them is for. -/
theorem get?_withAttributes_of_ne {c : Column} (l : FlowLine) {attrs : List (String × String)}
    (h : ∀ attr ∈ attrs, Column.ofAttribute? attr.1 ≠ some c) : (l.withAttributes attrs).1.get? c = l.get? c := by
  have hnone : (attrs.reverse.find? fun attr => Column.ofAttribute? attr.1 = some c) = none :=
    List.find?_eq_none.mpr fun attr hattr => by
      rw [decide_eq_true_eq]
      exact h attr (List.mem_reverse.mp hattr)
  rw [get?_withAttributes, hnone, Option.map_none, Option.none_or]

theorem parameter_new (id : String) (op : Opcode) (parameter : String) :
    (new id op parameter).parameter = parameter := by
  rw [FlowLine.parameter, get?_new]
  dsimp only
  split
  · rename_i hempty
    exact (String.isEmpty_iff.mp hempty).symm
  · rfl

theorem op_withAttributes : ∀ (l : FlowLine) (attrs : List (String × String)), (l.withAttributes attrs).1.op = l.op
  | _, [] => rfl
  | l, (key, value) :: attrs => by
    rw [withAttributes]
    split
    · exact op_withAttributes _ attrs
    · exact op_withAttributes l attrs

end FlowLine

namespace Attributes

/-- None of the attributes is for the column. -/
def Omits (a : Attributes) (c : Column) : Prop := ∀ cell ∈ a.cells, Column.ofAttribute? cell.1 ≠ some c

/-- Whether an attribute of this name is for a column, or for none. -/
def isCell (key : String) : Bool :=
  match Relation.ofKey? key with
  | some _ => false
  | none =>
    match key with
    | "id" | "if_job" | "if_jobs" | "unless_job" | "unless_jobs" | "if_enable" => false
    | _ => true

theorem cells_add (a : Attributes) (key value : String) :
    (a.add key value).cells = if isCell key then a.cells ++ [(key, value)] else a.cells := by
  unfold add isCell
  cases Relation.ofKey? key with
  | some r => rfl
  | none =>
    dsimp only
    split
    case h_7 => simp only [if_true]
    all_goals rfl

theorem cells_ofList (attrs : List (String × String)) :
    (ofList attrs).cells = attrs.filter fun cell => isCell cell.1 := by
  have hfold : ∀ (attrs : List (String × String)) (a : Attributes),
      (attrs.foldl (fun a attr => a.add attr.1 attr.2) a).cells =
        a.cells ++ attrs.filter fun cell => isCell cell.1 := by
    intro attrs
    induction attrs with
    | nil => exact fun a => (List.append_nil _).symm
    | cons attr attrs ih =>
      intro a
      rw [List.foldl_cons, ih, cells_add, List.filter_cons]
      split
      · rw [List.append_assoc]
        rfl
      · rfl
  exact hfold attrs empty

/-- Only attributes that are given fill columns. -/
theorem mem_cells_ofList {attrs : List (String × String)} {cell : String × String} (h : cell ∈ (ofList attrs).cells) :
    cell ∈ attrs := by
  rw [cells_ofList] at h
  exact (List.mem_filter.mp h).1

end Attributes

/-! ## Open scopes -/

namespace FlowScope

/-- The jobs that the scope restricts its lines to. -/
def ifJobs : FlowScope → List String
  | .ifJob jobs => jobs
  | _ => []

def unlessJobs : FlowScope → List String
  | .unlessJob jobs => jobs
  | _ => []

/-- The word that enables the lines of the scope. -/
def ifWord? : FlowScope → Option String
  | .ifEnable word => some word
  | _ => none

/-- The word that switches the lines of the scope off. -/
def unlessWord? : FlowScope → Option String
  | .unlessEnable word => some word
  | _ => none

end FlowScope

/-- A scope that is open. -/
structure OpenScope where
  scope : FlowScope
  /-- How many jumps have been made by now, that of the scope included. -/
  number : Nat
  deriving DecidableEq

/-! Lists of open scopes start with the innermost one. -/

namespace OpenScope

/-- The jobs of all scopes, from the outermost to the innermost one. -/
def ifJobs (path : List OpenScope) : List String := path.reverse.flatMap fun s => s.scope.ifJobs

def unlessJobs (path : List OpenScope) : List String := path.reverse.flatMap fun s => s.scope.unlessJobs

/-- The words that enable the lines, of the innermost scope first. -/
def ifWords (path : List OpenScope) : List String := path.filterMap fun s => s.scope.ifWord?

/-- The words that switch the lines off. -/
def unlessWords (path : List OpenScope) : List String := path.filterMap fun s => s.scope.unlessWord?

theorem ifJobs_cons (s : OpenScope) (path : List OpenScope) : ifJobs (s :: path) = ifJobs path ++ s.scope.ifJobs := by
  rw [ifJobs, List.reverse_cons, List.flatMap_append, List.flatMap_singleton, ifJobs]

theorem unlessJobs_cons (s : OpenScope) (path : List OpenScope) :
    unlessJobs (s :: path) = unlessJobs path ++ s.scope.unlessJobs := by
  rw [unlessJobs, List.reverse_cons, List.flatMap_append, List.flatMap_singleton, unlessJobs]

end OpenScope

/-! ## Additions -/

section

variable (path : List OpenScope) (op : Opcode) (parameter : String) (attrs : List (String × String)) (position : Nat)

/-- The line that is added under scopes, before it is enabled by a scope or an attribute. -/
def plainLine : FlowLine :=
  let a := Attributes.ofList attrs
  let line := ((FlowLine.new (a.id.getD s!"t{position + 1}") op parameter).withAttributes a.cells).1
  (line.addIfJobs (OpenScope.ifJobs path ++ a.ifJobs)).addUnlessJobs (OpenScope.unlessJobs path ++ a.unlessJobs)

/-- The line that is added under scopes. -/
def addedLine : FlowLine :=
  let line := plainLine path op parameter attrs position
  match line.get? .enable with
  | some _ => line
  | none => line.setIf .enable ((Attributes.ofList attrs).enable.or (OpenScope.ifWords path).head?)

theorem addedLine_kept : KeptBut (· == .enable) (addedLine path op parameter attrs position)
    (plainLine path op parameter attrs position) := by
  unfold addedLine
  dsimp only
  split
  · exact .refl _
  · cases (Attributes.ofList attrs).enable.or (OpenScope.ifWords path).head? with
    | none => exact .refl _
    | some word => exact .set _ word rfl

theorem op_addedLine : (addedLine path op parameter attrs position).op = op :=
  (addedLine_kept path op parameter attrs position).op.trans
    ((FlowLine.op_withAttributes _ _).trans (FlowLine.new_rest _ op parameter).2.1)

variable {attrs}

/-- Columns that no attribute is for are empty, but for those that every line has. -/
theorem get?_plainLine {c : Column} (homits : (Attributes.ofList attrs).Omits c)
    (hopcode : c ≠ .opcode) (hparameter : c ≠ .parameter) (hresult : c ≠ .result) :
    (plainLine path op parameter attrs position).get? c = none :=
  (FlowLine.get?_withAttributes_of_ne _ homits).trans
    (FlowLine.get?_new_eq_none _ op parameter hopcode hparameter hresult)

theorem get?_addedLine {c : Column} (homits : (Attributes.ofList attrs).Omits c)
    (hopcode : c ≠ .opcode) (hparameter : c ≠ .parameter) (hresult : c ≠ .result) (henable : c ≠ .enable) :
    (addedLine path op parameter attrs position).get? c = none :=
  ((addedLine_kept path op parameter attrs position).cells c (beq_false_of_ne henable)).trans
    (get?_plainLine path op parameter position homits hopcode hparameter hresult)

/-- A line without attributes for that is enabled by the innermost scope that enables lines. -/
theorem get?_addedLine_enable (homits : (Attributes.ofList attrs).Omits .enable)
    (henable : (Attributes.ofList attrs).enable = none) :
    (addedLine path op parameter attrs position).get? .enable = (OpenScope.ifWords path).head? := by
  unfold addedLine
  dsimp only
  rw [get?_plainLine path op parameter position homits nofun nofun nofun]
  dsimp only
  rw [FlowLine.get?_setIf, if_pos rfl, henable, Option.none_or,
    get?_plainLine path op parameter position homits nofun nofun nofun, Option.or_none]

end

/-- The label of the line that a jump goes to. -/
def skipLabel (word : String) (number : Nat) : String := s!"skip_{word}_{number}"

/-- A line and why it is added, under the scopes `path`: it is asked for, or is the jump over the
lines that a word switches off, or the landing of this jump. -/
inductive Addition where
  | asked (path : List OpenScope) (op : Opcode) (parameter : String) (attrs : List (String × String))
  | jump (path : List OpenScope) (word : String) (number : Nat)
  | landing (path : List OpenScope) (word : String) (number : Nat)

namespace Addition

def path : Addition → List OpenScope
  | asked path _ _ _ | jump path _ _ | landing path _ _ => path

/-- The line itself, at a position. A jump is made only if its word is enabled. -/
def line : Addition → (position : Nat) → FlowLine
  | asked path op parameter attrs => addedLine path op parameter attrs
  | jump path word number => addedLine (⟨.ifEnable word, number⟩ :: path) .goto (skipLabel word number) []
  | landing path word number => addedLine path .nop "" [("label", skipLabel word number)]

/-- Every addition adds a line under scopes. -/
theorem exists_addedLine : ∀ a : Addition, ∃ path op parameter attrs, a.line = addedLine path op parameter attrs
  | asked path op parameter attrs => ⟨path, op, parameter, attrs, rfl⟩
  | jump path word number => ⟨⟨.ifEnable word, number⟩ :: path, .goto, skipLabel word number, [], rfl⟩
  | landing path word number => ⟨path, .nop, "", [("label", skipLabel word number)], rfl⟩

/-- Additions under scopes, after `before` jumps and up to the jump `after`. A scope that lines are
jumped over in has the number of its jump. -/
inductive Block : (path : List OpenScope) → (before : Nat) → List Addition → (after : Nat) → Prop
  | none {path n} : Block path n [] n
  | asked {path n op parameter attrs} : Block path n [.asked path op parameter attrs] n
  | append {path n additions m additions' k} :
      Block path n additions m → Block path m additions' k → Block path n (additions ++ additions') k
  | scope {path n additions m} {s : FlowScope} :
      s.unlessWord? = .none → Block (⟨s, n⟩ :: path) n additions m → Block path n additions m
  | skip {path n additions m word} : Block (⟨.unlessEnable word, n + 1⟩ :: path) (n + 1) additions m →
      Block path n (.jump path word (n + 1) :: additions ++ [.landing path word (n + 1)]) m

end Addition

namespace FlowDraft

/-! ## Entering and leaving a scope -/

/-- The draft that the lines of a scope are added to. -/
def entered (d : FlowDraft) : FlowScope → FlowDraft
  | .ifJob jobs => { d with ifJobs := d.ifJobs ++ jobs }
  | .unlessJob jobs => { d with unlessJobs := d.unlessJobs ++ jobs }
  | .ifEnable word => { d with enables := word :: d.enables }
  | .unlessEnable word => ({ d with skips := d.skips + 1 }.withinIfEnable word fun d =>
      d.add .goto (skipLabel word (d.skips)) []).2

/-- The draft after a scope whose lines end in the draft `d'`. -/
def left (d : FlowDraft) (s : FlowScope) (d' : FlowDraft) : FlowDraft :=
  match s with
  | .ifJob _ => { d' with ifJobs := d.ifJobs }
  | .unlessJob _ => { d' with unlessJobs := d.unlessJobs }
  | .ifEnable _ => { d' with enables := d.enables }
  | .unlessEnable word => (d'.add .nop "" [("label", skipLabel word (d.skips + 1))]).2

theorem within_eq {β : Type} (d : FlowDraft) (body : FlowDraft → β × FlowDraft) : ∀ s : FlowScope,
    d.within s body = ((body (d.entered s)).1, d.left s (body (d.entered s)).2)
  | .ifJob _ | .unlessJob _ | .ifEnable _ | .unlessEnable _ => rfl

/-- The settings of a draft are those of the open scopes. -/
structure Stands (path : List OpenScope) (d : FlowDraft) : Prop where
  ifJobs : d.ifJobs = OpenScope.ifJobs path
  unlessJobs : d.unlessJobs = OpenScope.unlessJobs path
  enables : d.enables = OpenScope.ifWords path

/-- The lines of `d'` are those of `d` with additions. -/
def Extends (d : FlowDraft) (additions : List Addition) (d' : FlowDraft) : Prop :=
  d'.lines = d.lines ++ additions.mapIdx fun i a => a.line (d.lines.length + i)

variable {path : List OpenScope} {d d' d'' : FlowDraft} {s : FlowScope} {number : Nat}

theorem Extends.trans {additions additions' : List Addition} (h : d.Extends additions d')
    (h' : d'.Extends additions' d'') : d.Extends (additions ++ additions') d'' := by
  unfold Extends at h h' ⊢
  rw [h', h, List.length_append, List.length_mapIdx, List.mapIdx_append, List.append_assoc]
  congr 3
  funext i a
  rw [Nat.add_assoc, Nat.add_comm i]

theorem Extends.nil (d : FlowDraft) : d.Extends [] d := (List.append_nil _).symm

namespace Stands

theorem add_line (h : d.Stands path) (op : Opcode) (parameter : String) (attrs : List (String × String)) :
    (d.add op parameter attrs).2.lines = d.lines ++ [addedLine path op parameter attrs d.lines.length] := by
  rw [addedLine, plainLine, ← h.ifJobs, ← h.unlessJobs, ← h.enables]
  rfl

theorem ifEnable (h : d.Stands path) (word : String) (number : Nat) :
    Stands (⟨.ifEnable word, number⟩ :: path) { d with enables := word :: d.enables } where
  ifJobs := by rw [OpenScope.ifJobs_cons, ← h.ifJobs]; exact (List.append_nil _).symm
  unlessJobs := by rw [OpenScope.unlessJobs_cons, ← h.unlessJobs]; exact (List.append_nil _).symm
  enables := congrArg (word :: ·) h.enables

/-- A scope that lines are jumped over in has no settings. -/
theorem of_unlessEnable {word : String} (h : d.Stands (⟨.unlessEnable word, number⟩ :: path)) : d.Stands path where
  ifJobs := h.ifJobs.trans ((OpenScope.ifJobs_cons _ _).trans (List.append_nil _))
  unlessJobs := h.unlessJobs.trans ((OpenScope.unlessJobs_cons _ _).trans (List.append_nil _))
  enables := h.enables

/-- Entering a scope adds it to the open ones, -/
theorem entered (h : d.Stands path) (s : FlowScope) (number : Nat) : (d.entered s).Stands (⟨s, number⟩ :: path) := by
  have hif := h.ifJobs
  have hunless := h.unlessJobs
  have henables := h.enables
  constructor
  · rw [OpenScope.ifJobs_cons, ← hif]
    cases s <;> first | rfl | exact (List.append_nil _).symm
  · rw [OpenScope.unlessJobs_cons, ← hunless]
    cases s <;> first | rfl | exact (List.append_nil _).symm
  · cases s <;> first | exact henables | exact congrArg _ henables

/-- and leaving it leads back. -/
theorem left (h : d.Stands path) (h' : d'.Stands (⟨s, number⟩ :: path)) : (d.left s d').Stands path := by
  have hif := h'.ifJobs
  have hunless := h'.unlessJobs
  have henables := h'.enables
  rw [OpenScope.ifJobs_cons] at hif
  rw [OpenScope.unlessJobs_cons] at hunless
  cases s with
  | ifJob jobs => exact ⟨h.ifJobs, hunless.trans (List.append_nil _), henables⟩
  | unlessJob jobs => exact ⟨hif.trans (List.append_nil _), h.unlessJobs, henables⟩
  | ifEnable word => exact ⟨hif.trans (List.append_nil _), hunless.trans (List.append_nil _), h.enables⟩
  | unlessEnable word =>
    have hinside := h'.of_unlessEnable
    exact ⟨hinside.ifJobs, hinside.unlessJobs, hinside.enables⟩

end Stands

end FlowDraft

/-! ## What programs add -/

namespace FlowOperation

open FlowDraft

/-- What comes before the lines of a scope. -/
def opening (path : List OpenScope) (number : Nat) : FlowScope → List Addition
  | .unlessEnable word => [.jump path word number]
  | _ => []

/-- What comes after them. -/
def closing (path : List OpenScope) (number : Nat) : FlowScope → List Addition
  | .unlessEnable word => [.landing path word number]
  | _ => []

mutual

/-- What an operation adds to a draft under scopes. -/
def additions (path : List OpenScope) : FlowOperation → FlowDraft → List Addition
  | .add op parameter attrs, _ => [.asked path op parameter attrs]
  | .relate _ _ _, _ => []
  | .scope s body, d =>
    let number := (d.entered s).skips
    opening path number s ++ bodyAdditions (⟨s, number⟩ :: path) body (d.entered s) ++ closing path number s

/-- What operations add, up to the first one that fails. -/
def bodyAdditions (path : List OpenScope) : List FlowOperation → FlowDraft → List Addition
  | [], _ => []
  | op :: ops, d => additions path op d ++
    match op.perform d with
    | (⟨.ok _, _⟩, d) => bodyAdditions path ops d
    | (⟨.error _, _⟩, _) => []

end

/-- What operations add, whether they fail or not. -/
def allAdditions : List FlowOperation → FlowDraft → List Addition
  | [], _ => []
  | op :: ops, d => additions [] op d ++ allAdditions ops (op.perform d).2

/-- The draft `d` has become the draft `d'` by additions, and stands under the same scopes. -/
structure Grown (path : List OpenScope) (d : FlowDraft) (additions : List Addition) (d' : FlowDraft) : Prop where
  stands : d'.Stands path
  lines : d.Extends additions d'
  block : Addition.Block path d.skips additions d'.skips

variable {path : List OpenScope} {d d' d'' : FlowDraft} {lines lines' : List Addition}

theorem Grown.trans (h : Grown path d lines d') (h' : Grown path d' lines' d'') :
    Grown path d (lines ++ lines') d'' :=
  ⟨h'.stands, h.lines.trans h'.lines, h.block.append h'.block⟩

theorem extends_opening (h : d.Stands path) : ∀ s : FlowScope,
    d.Extends (opening path (d.entered s).skips s) (d.entered s)
  | .ifJob _ | .unlessJob _ | .ifEnable _ => .nil d
  | .unlessEnable word => by
    have hstands : Stands path { d with skips := d.skips + 1 } := ⟨h.ifJobs, h.unlessJobs, h.enables⟩
    exact (hstands.ifEnable word (d.skips + 1)).add_line .goto (skipLabel word (d.skips + 1)) []

theorem extends_closing {number : Nat} (d : FlowDraft) : ∀ s : FlowScope, d'.Stands (⟨s, number⟩ :: path) →
    d'.Extends (closing path (d.entered s).skips s) (d.left s d')
  | .ifJob _, _ | .unlessJob _, _ | .ifEnable _, _ => .nil d'
  | .unlessEnable word, h => h.of_unlessEnable.add_line .nop "" [("label", skipLabel word (d.skips + 1))]

theorem block_scope {after : Nat} (path : List OpenScope) (d : FlowDraft) : ∀ s : FlowScope,
    Addition.Block (⟨s, (d.entered s).skips⟩ :: path) (d.entered s).skips lines after →
      Addition.Block path d.skips
        (opening path (d.entered s).skips s ++ lines ++ closing path (d.entered s).skips s) after
  | .ifJob _, h | .unlessJob _, h | .ifEnable _, h => by
    rw [opening, closing, List.nil_append, List.append_nil]
    · exact .scope rfl h
    all_goals exact nofun
  | .unlessEnable _, h => .skip h

theorem skips_left (d d' : FlowDraft) (s : FlowScope) : (d.left s d').skips = d'.skips := by
  cases s <;> rfl

/-- What grows inside of a scope grows with the scope around it. -/
theorem Grown.scope (h : d.Stands path) {s : FlowScope}
    (h' : Grown (⟨s, (d.entered s).skips⟩ :: path) (d.entered s) lines d') :
    Grown path d (opening path (d.entered s).skips s ++ lines ++ closing path (d.entered s).skips s)
      (d.left s d') where
  stands := h.left h'.stands
  lines := ((extends_opening h s).trans h'.lines).trans (extends_closing d s h'.stands)
  block := by
    rw [skips_left]
    exact block_scope path d s h'.block

mutual

theorem grown_perform : ∀ (op : FlowOperation) {path : List OpenScope} {d : FlowDraft}, d.Stands path →
    Grown path d (additions path op d) (op.perform d).2
  | .add op parameter attrs, path, d, h => by
    rw [additions]
    exact ⟨⟨h.ifJobs, h.unlessJobs, h.enables⟩, h.add_line op parameter attrs, .asked⟩
  | .relate id relation target, path, d, h => by
    have hnone : Grown path d [] d := ⟨h, .nil d, .none⟩
    rw [additions, perform]
    split
    · rename_i d' hrelate
      unfold FlowDraft.relate at hrelate
      split at hrelate
      · obtain rfl := Except.ok.inj hrelate
        exact ⟨⟨h.ifJobs, h.unlessJobs, h.enables⟩, .nil d, .none⟩
      · cases hrelate
    · exact hnone
  | .scope s body, path, d, h => by
    have hbody := grown_performBody body (h.entered s (d.entered s).skips)
    rw [additions, perform, within_eq]
    exact hbody.scope h

theorem grown_performBody : ∀ (ops : List FlowOperation) {path : List OpenScope} {d : FlowDraft}, d.Stands path →
    Grown path d (bodyAdditions path ops d) (performBody ops d).2
  | [], path, d, h => by
    rw [bodyAdditions, performBody]
    exact ⟨h, .nil d, .none⟩
  | op :: ops, path, d, h => by
    have hfirst := grown_perform op h
    rw [bodyAdditions, performBody]
    split
    · rename_i heq
      rw [heq] at hfirst ⊢
      exact hfirst.trans (grown_performBody ops hfirst.stands)
    · rename_i heq
      rw [heq] at hfirst ⊢
      rw [List.append_nil]
      exact hfirst

end

theorem grown_performAll : ∀ (ops : List FlowOperation) {d : FlowDraft}, d.Stands [] →
    Grown [] d (allAdditions ops d) (performAll ops d).2
  | [], d, h => ⟨h, .nil d, .none⟩
  | op :: ops, _, h => (grown_perform op h).trans (grown_performAll ops (grown_perform op h).stands)

/-- What a program for a flow adds to it. -/
def draftAdditions (name : String) (ops : List FlowOperation) : List Addition := allAdditions ops (.new name)

theorem grown_draft (name : String) (ops : List FlowOperation) :
    Grown [] (.new name) (draftAdditions name ops) (draft name ops) :=
  grown_performAll ops ⟨rfl, rfl, rfl⟩

/-- The lines of a draft are what its program adds. -/
theorem draft_lines (name : String) (ops : List FlowOperation) :
    (draft name ops).lines = (draftAdditions name ops).mapIdx fun i a => a.line i := by
  have hlines := (grown_draft name ops).lines
  unfold FlowDraft.Extends at hlines
  rw [hlines]
  simp only [FlowDraft.new, List.length_nil, List.nil_append, Nat.zero_add]

end FlowOperation

end TestProgram
