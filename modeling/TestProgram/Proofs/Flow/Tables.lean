import Mathlib.Data.List.Forall2
import TestProgram.Flow.Render
import TestProgram.Proofs.Flow.Texts

/-!
# Reading flow tables

A flow table has a line for its title, one for the names of the columns and one for each line of the flow. Splitting
its text at newlines, and these lines at tabs, gives the cells back (`Flow.ReadsBack`) just if the name of the flow has
no newline in it and no cell has a tab or a newline (`Flow.readsBack_iff`). What is written into a table is not
escaped, so this is up to the texts of its program (`FlowOperation.tables_read_back`).
-/

namespace TestProgram

namespace Flow

/-- Splitting the table at newlines gives its title, the names of the columns and a row for each line, and nothing
after the last newline. Splitting a row at tabs gives the cells of the line. -/
def ReadsBack (f : Flow) : Prop :=
  ∃ title names rows, (f.render .tabular []).toList.splitOn '\n' = title :: names :: rows ++ [[]] ∧
    List.Forall₂ (fun (row : List Char) (l : FlowLine) =>
      row.splitOn '\t' = l.row.map String.toList ∧ l.row.length = 27) rows f.lines

/-- Nothing that is written into the table ends a line or a cell. -/
structure Unbroken (f : Flow) : Prop where
  name : '\n' ∉ f.name.toList
  cells : ∀ l ∈ f.lines, ∀ cell ∈ l.row, Text.Unbroken cell

theorem length_row (l : FlowLine) : l.row.length = 27 := List.length_map _

theorem row_ne_nil (l : FlowLine) : l.row ≠ [] := List.ne_nil_of_length_eq_add_one (length_row l)

theorem splitOn_tabbed_iff {cells : List String} (hcells : cells ≠ []) :
    (tabbed cells).toList.splitOn '\t' = cells.map String.toList ↔ ∀ cell ∈ cells, '\t' ∉ cell.toList := by
  rw [tabbed, String.toList_intercalate]
  exact (Text.splitOn_intercalate_iff (mt List.map_eq_nil_iff.mp hcells)).trans List.forall_mem_map

theorem newline_not_mem_tabbed {cells : List String} :
    '\n' ∉ (tabbed cells).toList ↔ ∀ cell ∈ cells, '\n' ∉ cell.toList := by
  rw [tabbed, String.toList_intercalate]
  constructor
  · exact fun h cell hcell hnewline => h (Text.mem_intercalate_of_mem hnewline (List.mem_map_of_mem hcell))
  · intro h hnewline
    rcases Text.mem_of_mem_intercalate hnewline with htab | ⟨part, hpart, hnewline⟩
    · exact absurd htab (by decide)
    · obtain ⟨cell, hcell, rfl⟩ := List.mem_map.mp hpart
      exact h cell hcell hnewline

/-- No line of the table has a newline in it if the name and the cells have none. -/
theorem newline_not_mem_tableLines {f : Flow} : (∀ line ∈ f.tableLines, '\n' ∉ line.toList) ↔
    '\n' ∉ f.name.toList ∧ ∀ l ∈ f.lines, ∀ cell ∈ l.row, '\n' ∉ cell.toList := by
  have htitle : '\n' ∉ ("Flow Table\t" ++ f.name).toList ↔ '\n' ∉ f.name.toList := by
    rw [String.toList_append, List.mem_append, or_iff_right (by decide)]
  have hnames : '\n' ∉ (tabbed (Column.all.map Column.name)).toList := newline_not_mem_tabbed.mpr (by decide)
  rw [tableLines, List.forall_mem_cons, List.forall_mem_cons, List.forall_mem_map, htitle, and_iff_right hnames]
  simp only [newline_not_mem_tabbed]

theorem readsBack_iff (f : Flow) : f.ReadsBack ↔ f.Unbroken := by
  have hrow (l : FlowLine) : ((tabbed l.row).toList.splitOn '\t' = l.row.map String.toList ∧ l.row.length = 27) ↔
      ∀ cell ∈ l.row, '\t' ∉ cell.toList :=
    (and_iff_left (length_row l)).trans (splitOn_tabbed_iff (row_ne_nil l))
  constructor
  · rintro ⟨title, names, rows, hsplit, hrows⟩
    -- There are no more lines than those of the table, so none of these has been split.
    have hnewline : ∀ line ∈ f.tableLines, '\n' ∉ line.toList := by
      refine Text.newline_not_mem_of_length ((congrArg List.length hsplit).trans ?_)
      simp only [tableLines, List.length_append, List.length_cons, List.length_nil, List.length_map, hrows.length_eq]
    have hlines := hsplit.symm.trans (Text.splitOn_unlines_eq hnewline)
    obtain ⟨-, hlines⟩ := List.cons.inj (List.append_cancel_right hlines)
    obtain ⟨-, rfl⟩ := List.cons.inj hlines
    rw [List.map_map, List.forall₂_map_left_iff, List.forall₂_same] at hrows
    obtain ⟨hname, hcells⟩ := newline_not_mem_tableLines.mp hnewline
    exact ⟨hname, fun l hl cell hcell => ⟨(hrow l).mp (hrows l hl) cell hcell, hcells l hl cell hcell⟩⟩
  · intro h
    have hnewline := newline_not_mem_tableLines.mpr ⟨h.name, fun l hl cell hcell => (h.cells l hl cell hcell).2⟩
    have hsplit := Text.splitOn_unlines_eq hnewline
    rw [tableLines, List.map_cons, List.map_cons, List.map_map] at hsplit
    refine ⟨_, _, _, hsplit, ?_⟩
    rw [List.forall₂_map_left_iff, List.forall₂_same]
    exact fun l hl => (hrow l).mpr fun cell hcell => (h.cells l hl cell hcell).1

end Flow

namespace FlowOperation

/-- The table of a finished flow reads back just if nothing that is written into it ends a line or a cell. So it does
if the flow has a name without newlines and its program gives it unbroken texts only. -/
theorem tables_read_back {name : String} {ops : List FlowOperation} {f : Flow} (h : (draft name ops).finish = .ok f) :
    (f.ReadsBack ↔ f.Unbroken) ∧
      ('\n' ∉ name.toList → (∀ text ∈ programTexts ops, Text.Unbroken text) → f.ReadsBack) := by
  refine ⟨f.readsBack_iff, fun hname htexts => f.readsBack_iff.mpr ⟨?_, fun l hl => (neat_finish htexts h l hl).row⟩⟩
  obtain ⟨-, rfl⟩ := FlowDraft.finish_eq_ok.mp h
  exact (name_draft name ops).symm ▸ hname

/-- A test for one job, and one that runs if the first has passed. -/
def sortProgram : List FlowOperation :=
  [.scope (.ifJob ["P1"]) [.add .test "continuity" [("id", "c"), ("bin", "3")]],
    .scope (.unlessEnable "fast") [.add .test "leakage" [("if_passed", "c"), ("comment", "after contact")]]]

theorem sortProgram_readsBack : ∃ f, (draft "sort1" sortProgram).finish = .ok f ∧ f.ReadsBack := by
  obtain ⟨f, hf⟩ : ∃ f, (draft "sort1" sortProgram).finish = .ok f := FlowDraft.exists_finish (by decide +kernel)
  exact ⟨f, hf, (tables_read_back hf).2 (by decide) (by decide)⟩

/-- A parameter with a tab in it takes two cells. -/
theorem not_forall_readsBack : ¬ ∀ (name : String) (ops : List FlowOperation) (f : Flow),
    (draft name ops).finish = .ok f → f.ReadsBack := by
  intro h
  obtain ⟨f, hf⟩ : ∃ f, (draft "f" [.add .test "a\tb" []]).finish = .ok f := FlowDraft.exists_finish (by decide)
  have hunbroken := f.readsBack_iff.mp (h _ _ f hf)
  obtain ⟨-, rfl⟩ := FlowDraft.finish_eq_ok.mp hf
  have hcell := hunbroken.cells _ (List.mem_cons_self ..) "a\tb" (List.mem_map_of_mem (Column.mem_all .parameter))
  revert hcell
  decide

end FlowOperation

end TestProgram
