import Mathlib.Data.List.Forall2
import Mathlib.Data.List.Nodup
import TestProgram.Proofs.Flow.Additions
import TestProgram.Proofs.Flow.Documents

/-!
# Two formats of one flow

The row of a line in a table and its entry in a document are written from the same columns, and say the same of them:
each column that is filled is at the head of the entry or in one of its two mappings, with what its cell holds
(`FlowDocument.restates_ofLine`).

The type of an entry is another matter. It is written from the operation of the line, and the cell from a column that
an attribute can fill with anything (`Addition.opcode?`). So the formats agree on the types of a flow just if no
attribute of its program fills this column with the text of another operation (`FlowOperation.formats_agree`).
-/

namespace TestProgram

open Text

theorem Column.name_injective : Function.Injective Column.name := fun c d h =>
  List.inj_on_of_nodup_map (show (all.map name).Nodup by decide) (mem_all c) (mem_all d) h

namespace FlowLine

/-- What the row of the line holds under a column. -/
def cell (l : FlowLine) (c : Column) : String := l.row.getD (Column.all.idxOf c) ""

theorem cell_eq (l : FlowLine) (c : Column) : l.cell c = (l.get? c).getD "" := by
  cases c <;> rfl

/-- The column is filled, and not written at the head of an entry. -/
def Mapped (l : FlowLine) (c : Column) : Prop := (l.get? c).isSome ∧ c ≠ .opcode ∧ c ≠ .parameter ∧ c ≠ .comment

theorem mem_columns {l : FlowLine} {e : Column × String} : e ∈ l.columns ↔ l.get? e.1 = some e.2 := by
  obtain ⟨c, value⟩ := e
  rw [columns, List.mem_filterMap]
  constructor
  · rintro ⟨d, -, hd⟩
    obtain ⟨v, hv, heq⟩ := Option.map_eq_some_iff.mp hd
    obtain ⟨rfl, rfl⟩ := Prod.mk.inj heq
    exact hv
  · exact fun h => ⟨c, Column.mem_all c, by rw [show l.get? c = some value from h]; rfl⟩

theorem nodup_names_columns (l : FlowLine) : (l.columns.map fun e => e.1.name).Nodup := by
  rw [columns, List.map_filterMap]
  refine Column.nodup_all.filterMap fun c d key hc hd => ?_
  obtain ⟨e, he, rfl⟩ := Option.map_eq_some_iff.mp hc
  obtain ⟨v, -, rfl⟩ := Option.map_eq_some_iff.mp he
  obtain ⟨e, he, heq⟩ := Option.map_eq_some_iff.mp hd
  obtain ⟨v, -, rfl⟩ := Option.map_eq_some_iff.mp he
  exact (Column.name_injective heq).symm

end FlowLine

namespace FlowDocument

/-- The entry says what the row of the line says, but for the type, which is that of the operation. -/
structure Entry.Restates (e : Entry) (l : FlowLine) : Prop where
  kind : e.kind = lower l.op.text
  parameter : e.parameter = l.cell .parameter
  description : (l.get? .comment).isSome → e.description = l.cell .comment
  attributes : ∀ key value, (key, value) ∈ e.attributes ↔
    ∃ c, l.Mapped c ∧ c.isContext = false ∧ key = c.name ∧ value = l.cell c
  context : ∀ key value, (key, value) ∈ e.context ↔
    ∃ c, l.Mapped c ∧ c.isContext = true ∧ key = c.name ∧ value = l.cell c
  /-- No column is in both mappings, or twice in one of them. -/
  once : ((e.attributes ++ e.context).map Prod.fst).Nodup

theorem mem_furtherColumns {l : FlowLine} {e : Column × String} :
    e ∈ Flow.furtherColumns l ↔ l.Mapped e.1 ∧ e.2 = l.cell e.1 := by
  have hhead : (!([Column.opcode, Column.parameter, Column.comment].contains e.1)) = true ↔
      e.1 ≠ .opcode ∧ e.1 ≠ .parameter ∧ e.1 ≠ .comment := by
    simp
  rw [Flow.furtherColumns, List.mem_filter, FlowLine.mem_columns, FlowLine.cell_eq, FlowLine.Mapped, hhead]
  constructor
  · rintro ⟨hset, hother⟩
    rw [hset]
    exact ⟨⟨rfl, hother⟩, rfl⟩
  · rintro ⟨⟨hset, hother⟩, heq⟩
    obtain ⟨value, hvalue⟩ := Option.isSome_iff_exists.mp hset
    rw [hvalue] at heq
    exact ⟨hvalue.trans (congrArg some heq.symm), hother⟩

theorem mem_named {l : FlowLine} {p : Column → Bool} {key value : String} :
    (key, value) ∈ named ((Flow.furtherColumns l).filter fun e => p e.1) ↔
      ∃ c, l.Mapped c ∧ p c = true ∧ key = c.name ∧ value = l.cell c := by
  rw [named, List.mem_map]
  simp only [List.mem_filter, mem_furtherColumns]
  constructor
  · rintro ⟨e, ⟨⟨hmapped, hvalue⟩, hp⟩, heq⟩
    obtain ⟨rfl, rfl⟩ := Prod.mk.inj heq
    exact ⟨e.1, hmapped, hp, rfl, hvalue⟩
  · rintro ⟨c, hmapped, hp, rfl, rfl⟩
    exact ⟨(c, l.cell c), ⟨⟨hmapped, rfl⟩, hp⟩, rfl⟩

theorem restates_ofLine (l : FlowLine) : (Entry.ofLine l).Restates l where
  kind := rfl
  parameter := (l.cell_eq .parameter).symm
  description h := by
    obtain ⟨comment, hcomment⟩ := Option.isSome_iff_exists.mp h
    rw [l.cell_eq, hcomment]
    show ((l.get? .comment).or (l.get? .tname)).getD l.parameter = _
    rw [hcomment]
    rfl
  attributes key value := by
    simp only [← Bool.not_eq_true']
    exact mem_named (p := fun c => !c.isContext)
  context key value := mem_named
  once := by
    have hperm : (attributesOf l ++ contextOf l).Perm (Flow.furtherColumns l) :=
      List.perm_append_comm.trans (List.filter_append_perm _ _)
    have hkeys : ((named (attributesOf l) ++ named (contextOf l)).map Prod.fst) =
        (attributesOf l ++ contextOf l).map fun e => e.1.name := by
      rw [named, named, ← List.map_append, List.map_map]
      rfl
    show ((named (attributesOf l) ++ named (contextOf l)).map Prod.fst).Nodup
    rw [hkeys, (hperm.map _).nodup_iff]
    exact (List.filter_sublist.map _).nodup l.nodup_names_columns

end FlowDocument

/-! ## Types -/

namespace FlowOperation

/-- The last value that attributes give for a key. -/
def lastValue? (key : String) (attrs : List (String × String)) : Option String :=
  (attrs.reverse.find? fun attr => attr.1 = key).map Prod.snd

end FlowOperation

namespace Addition

/-- The operation of the line. -/
def op : Addition → Opcode
  | asked _ op _ _ => op
  | jump _ _ _ => .goto
  | landing _ _ _ => .nop

/-- What an attribute fills the column of the operation with. -/
def opcode? : Addition → Option String
  | asked _ _ _ attrs => FlowOperation.lastValue? "opcode" attrs
  | jump _ _ _ | landing _ _ _ => none

theorem op_line (a : Addition) (position : Nat) : (a.line position).op = a.op := by
  cases a <;> exact op_addedLine _ _ _ _ position

end Addition

theorem Column.ofAttribute?_eq_opcode {key : String} : ofAttribute? key = some .opcode ↔ key = "opcode" := by
  constructor
  · exact fun h => (of_ofAttribute? (.inr (.inl rfl)) h).1
  · rintro rfl
    rfl

/-- The column of the operation holds the last value that an attribute gives for it, or else the operation. -/
theorem get?_addedLine_opcode (path : List OpenScope) (op : Opcode) (parameter : String)
    (attrs : List (String × String)) (position : Nat) : (addedLine path op parameter attrs position).get? .opcode =
      some ((FlowOperation.lastValue? "opcode" attrs).getD op.text) := by
  have hlast : ((Attributes.ofList attrs).cells.reverse.find? fun attr => Column.ofAttribute? attr.1 = some .opcode) =
      attrs.reverse.find? fun attr => attr.1 = "opcode" := by
    rw [Attributes.cells_ofList, ← List.filter_reverse, List.find?_filter]
    congr 1
    funext attr
    simp only [Column.ofAttribute?_eq_opcode, decide_eq_true_eq, decide_eq_decide]
    exact ⟨And.right, fun hkey => ⟨by rw [hkey]; rfl, hkey⟩⟩
  have hplain := (addedLine_kept path op parameter attrs position).cells .opcode rfl
  rw [hplain]
  show ((FlowLine.new _ op parameter).withAttributes (Attributes.ofList attrs).cells).1.get? .opcode = _
  rw [FlowLine.get?_withAttributes, hlast, FlowLine.get?_new, FlowOperation.lastValue?]
  cases attrs.reverse.find? fun attr => attr.1 = "opcode" <;> rfl

theorem Addition.cell_line_opcode (a : Addition) (position : Nat) :
    (a.line position).cell .opcode = a.opcode?.getD a.op.text := by
  rw [FlowLine.cell_eq]
  cases a <;> rw [Addition.line, get?_addedLine_opcode] <;> rfl

namespace FlowDraft

/-- A line of the finished flow shows an operation of its own, or is a line of the draft that shows the same. -/
theorem shows_finishedLine {d : FlowDraft} {f : Flow} (h : d.finish = .ok f) :
    (∀ l ∈ f.lines, l.cell .opcode = l.op.text ∨ ∃ m ∈ d.lines, m.op = l.op ∧ m.cell .opcode = l.cell .opcode) ∧
      ∀ m ∈ d.lines, ∃ l ∈ f.lines, l.op = m.op ∧ l.cell .opcode = m.cell .opcode := by
  obtain ⟨-, rfl⟩ := finish_eq_ok.mp h
  have hgiven (i : Nat) (m : FlowLine) : (d.finishedLine (.given i m)).op = m.op ∧
      (d.finishedLine (.given i m)).cell .opcode = m.cell .opcode := by
    have hsealed := (d.lineOf (.given i m)).sealed_kept
    have hsettled := d.settledLine_kept i m
    refine ⟨hsealed.op.trans hsettled.op, ?_⟩
    rw [FlowLine.cell_eq, FlowLine.cell_eq]
    exact congrArg (Option.getD · "") ((hsealed.cells .opcode rfl).trans (hsettled.cells .opcode rfl))
  constructor
  · refine List.forall_mem_map.mpr fun o ho => ?_
    cases o with
    | given i m =>
      exact .inr ⟨m, List.mem_of_getElem? (mem_rows.mp ho), (hgiven i m).1.symm, (hgiven i m).2.symm⟩
    | ranFlag i m =>
      have hsealed := (d.lineOf (.ranFlag i m)).sealed_kept
      have hop : (d.finishedLine (.ranFlag i m)).op = .flagTrue :=
        hsealed.op.trans (ranLine_rest (d.settledLine i m)).2.1
      left
      rw [hop, FlowLine.cell_eq, finishedLine, hsealed.cells .opcode rfl, lineOf, get?_ranLine]
      rfl
  · intro m hm
    obtain ⟨i, hi⟩ := List.getElem?_of_mem hm
    exact ⟨_, List.mem_map_of_mem (mem_rows.mpr hi), hgiven i m⟩

end FlowDraft

/-! ## Formats -/

theorem Flow.render_header (f : Flow) (format : FlowFormat) (header : List String) :
    f.render format header = unlines (headerLines header) ++ f.render format [] := by
  unfold render
  rw [unlines, List.map_append, String.join_append]
  rfl

namespace FlowOperation

variable {name : String} {ops : List FlowOperation} {f : Flow}

/-- The cells of operations are filled by what a program adds. -/
theorem cell_opcode_finish (h : (draft name ops).finish = .ok f) :
    (∀ l ∈ f.lines, l.cell .opcode = l.op.text ∨
      ∃ a ∈ draftAdditions name ops, a.op = l.op ∧ a.opcode? = some (l.cell .opcode)) ∧
    ∀ a ∈ draftAdditions name ops, ∃ l ∈ f.lines, l.op = a.op ∧ l.cell .opcode = a.opcode?.getD a.op.text := by
  obtain ⟨hlines, hdraft⟩ := FlowDraft.shows_finishedLine h
  rw [draft_lines] at hlines hdraft
  constructor
  · intro l hl
    rcases hlines l hl with hown | ⟨m, hm, hop, hcell⟩
    · exact .inl hown
    · obtain ⟨i, hi, rfl⟩ := List.mem_mapIdx.mp hm
      rw [Addition.op_line] at hop
      rw [Addition.cell_line_opcode] at hcell
      cases hvalue : (draftAdditions name ops)[i].opcode? with
      | none =>
        rw [hvalue, hop] at hcell
        exact .inl hcell.symm
      | some value =>
        rw [hvalue] at hcell
        exact .inr ⟨_, List.getElem_mem hi, hop, hvalue.trans (congrArg some hcell)⟩
  · intro a ha
    obtain ⟨i, hi, rfl⟩ := List.getElem_of_mem ha
    obtain ⟨l, hl, hop, hcell⟩ := hdraft _ (List.mem_mapIdx.mpr ⟨i, hi, rfl⟩)
    exact ⟨l, hl, hop.trans (Addition.op_line _ i), hcell.trans (Addition.cell_line_opcode _ i)⟩

/-- Under any header, the entries of a flow say what its rows say, but perhaps for the types. These agree just if no
attribute of the program fills a column of an operation with the text of another one. -/
theorem formats_agree (h : (draft name ops).finish = .ok f) (header : List String) :
    ∃ text doc, f.render .yaml header = unlines (Flow.headerLines header) ++ text ∧
      FlowDocument.read? text = some doc ∧ List.Forall₂ FlowDocument.Entry.Restates doc.entries f.lines ∧
      (List.Forall₂ (fun e l => e.kind = lower (l.cell .opcode)) doc.entries f.lines ↔
        ∀ a ∈ draftAdditions name ops, ∀ value ∈ a.opcode?, lower value = lower a.op.text) ∧
      ∀ l ∈ f.lines, l.cell .opcode = l.op.text ∨
        ∃ a ∈ draftAdditions name ops, a.op = l.op ∧ a.opcode? = some (l.cell .opcode) := by
  obtain ⟨hlines, hadditions⟩ := cell_opcode_finish h
  refine ⟨_, _, f.render_header .yaml header, f.read?_render, ?_, ?_, hlines⟩
  · rw [FlowDocument.ofFlow, List.forall₂_map_left_iff, List.forall₂_same]
    exact fun l _ => FlowDocument.restates_ofLine l
  · rw [FlowDocument.ofFlow, List.forall₂_map_left_iff, List.forall₂_same]
    constructor
    · intro hkinds a ha value hvalue
      obtain ⟨l, hl, hop, hcell⟩ := hadditions a ha
      have hkind : lower l.op.text = lower (l.cell .opcode) := hkinds l hl
      rw [hcell, hop, hvalue] at hkind
      exact hkind.symm
    · intro hvalues l hl
      show lower l.op.text = lower (l.cell .opcode)
      rcases hlines l hl with hown | ⟨a, ha, hop, hvalue⟩
      · rw [hown]
      · rw [hvalues a ha _ hvalue, hop]

/-- A test that names its operation in capital letters, and is for one environment. -/
def namedTest : List FlowOperation :=
  [.add .test "leakage" [("opcode", "nop"), ("opcode", "TEST"), ("bin", "3"), ("env", "hot"), ("comment", "at 3: 5")]]

theorem namedTest_agrees : ∃ f, (draft "sort1" namedTest).finish = .ok f ∧
    ∃ text doc, f.render .yaml ["by hand"] = unlines ["# by hand"] ++ text ∧ FlowDocument.read? text = some doc ∧
      List.Forall₂ FlowDocument.Entry.Restates doc.entries f.lines ∧
      List.Forall₂ (fun e l => e.kind = lower (l.cell .opcode)) doc.entries f.lines := by
  obtain ⟨f, hf⟩ : ∃ f, (draft "sort1" namedTest).finish = .ok f := FlowDraft.exists_finish (by decide +kernel)
  obtain ⟨text, doc, htext, hdoc, hentries, hkinds, -⟩ := formats_agree hf ["by hand"]
  exact ⟨f, hf, text, doc, htext, hdoc, hentries, hkinds.mpr (by decide)⟩

/-- A line that is a test in the document of its flow, and does nothing in the table. -/
theorem not_forall_kind_eq_cell : ¬ ∀ (name : String) (ops : List FlowOperation) (f : Flow),
    (draft name ops).finish = .ok f → ∃ doc, FlowDocument.read? (f.render .yaml []) = some doc ∧
      List.Forall₂ (fun e l => e.kind = lower (l.cell .opcode)) doc.entries f.lines := by
  intro h
  obtain ⟨f, hf⟩ : ∃ f, (draft "f" [.add .test "a" [("opcode", "nop")]]).finish = .ok f :=
    FlowDraft.exists_finish (by decide)
  obtain ⟨doc, hdoc, hkinds⟩ := h _ _ f hf
  obtain rfl := Option.some.inj (f.read?_render.symm.trans hdoc)
  rw [FlowDocument.ofFlow, List.forall₂_map_left_iff, List.forall₂_same] at hkinds
  obtain ⟨-, rfl⟩ := FlowDraft.finish_eq_ok.mp hf
  have hkind := hkinds _ (List.mem_cons_self ..)
  revert hkind
  decide

end FlowOperation

end TestProgram
