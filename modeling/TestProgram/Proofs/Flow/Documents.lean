import Mathlib.Data.List.SplitBy
import TestProgram.Flow.Render
import TestProgram.Proofs.Flow.Texts
import TestProgram.Proofs.Text.YamlScalar

/-!
# Reading flow documents

The YAML document of a flow has one shape only, and can be read line by line: an entry starts with a dash, its scalars
stand behind their keys, and the columns of a mapping are indented further than its key (`FlowDocument.read?`). What is
read from the document of a flow is the name of the flow and an entry for each of its lines (`Flow.read?_render`), as
scalars are on one line and are read back.
-/

namespace TestProgram

open Text

/-- What an entry of a document says of a line. The parameter is its instance. -/
structure FlowDocument.Entry where
  kind : String
  description : String
  parameter : String
  attributes : List (String × String)
  context : List (String × String)

structure FlowDocument where
  name : String
  entries : List FlowDocument.Entry

namespace FlowDocument

/-! ## Reading -/

/-- The scalar behind a key. -/
def scalar? (key : String) (line : List Char) : Option String := do
  let cs ← line.dropPrefix? key.toList
  let cs ← YamlScalar.read cs
  pure (String.ofList cs)

/-- A name and a scalar with a colon between them, indented as in a mapping. -/
def pair? (line : List Char) : Option (String × String) := do
  let cs ← line.dropPrefix? "        ".toList
  let value ← scalar? ": " (cs.dropWhile (· ≠ ':'))
  pure (String.ofList (cs.takeWhile (· ≠ ':')), value)

/-- The pairs at the start, and the lines after them. -/
def pairs : List (List Char) → List (String × String) × List (List Char)
  | [] => ([], [])
  | line :: lines => match pair? line with
    | some pair => (pair :: (pairs lines).1, (pairs lines).2)
    | none => ([], line :: lines)

/-- The mapping at the start, and the lines after it. -/
def mapping? (key : String) : List (List Char) → Option (List (String × String) × List (List Char))
  | [] => none
  | line :: lines =>
    if line = ("      " ++ key ++ ": \x7b\x7d").toList then some ([], lines)
    else if line = ("      " ++ key ++ ":").toList then some (pairs lines)
    else none

def block? : List (List Char) → Option Entry
  | kind :: description :: parameter :: flow :: lines => do
    let kind ← scalar? "  - type: " kind
    let description ← scalar? "    description: " description
    let parameter ← scalar? "    instance: " parameter
    guard (flow = "    flow:".toList)
    let (attributes, lines) ← mapping? "attributes" lines
    let (context, lines) ← mapping? "context" lines
    guard (lines = [])
    pure ⟨kind, description, parameter, attributes, context⟩
  | _ => none

/-- Whether an entry starts here. -/
def startsEntry (line : List Char) : Bool := "  - ".toList.isPrefixOf line

def ofLines? : List (List Char) → Option FlowDocument
  | name :: key :: lines => do
    let name ← scalar? "flow: " name
    if key = "lines: []".toList then
      guard (lines = [])
      pure ⟨name, []⟩
    else
      guard (key = "lines:".toList)
      let entries ← (lines.splitBy fun _ line => !startsEntry line).mapM block?
      pure ⟨name, entries⟩
  | _ => none

/-- The document that a text is, which ends in a newline. -/
def read? (text : String) : Option FlowDocument := ofLines? (text.toList.splitOn '\n').dropLast

/-! ## Scalars and mappings -/

theorem dropPrefix?_append (p s : List Char) : (p ++ s).dropPrefix? p = some s :=
  List.dropPrefix?_eq_some_iff.mpr ⟨p, rfl, beq_self_eq_true p⟩

theorem scalar?_write (key s : String) : scalar? key (key ++ YamlScalar.write s).toList = some s := by
  rw [scalar?, String.toList_append, dropPrefix?_append, Option.bind_eq_bind, Option.bind_some,
    YamlScalar.read_write, Option.bind_some, String.ofList_toList]
  rfl

theorem colon_not_mem_name (c : Column) : ∀ d ∈ c.name.toList, decide (d ≠ ':') = true :=
  List.all_eq_true.mp (by cases c <;> rfl)

theorem pair?_write (c : Column) (value : String) :
    pair? ("        " ++ c.name ++ ": " ++ YamlScalar.write value).toList = some (c.name, value) := by
  have hline : ("        " ++ c.name ++ ": " ++ YamlScalar.write value).toList =
      "        ".toList ++ (c.name.toList ++ (": " ++ YamlScalar.write value).toList) := by
    simp only [String.toList_append, List.append_assoc]
  have hbehind : (": " ++ YamlScalar.write value).toList = ':' :: (" " ++ YamlScalar.write value).toList := by
    rw [String.toList_append, String.toList_append]
    rfl
  have hname : (c.name.toList ++ (": " ++ YamlScalar.write value).toList).takeWhile (· ≠ ':') = c.name.toList := by
    rw [List.takeWhile_append_of_pos (colon_not_mem_name c), hbehind, List.takeWhile_cons_of_neg (by decide),
      List.append_nil]
  have hvalue : (c.name.toList ++ (": " ++ YamlScalar.write value).toList).dropWhile (· ≠ ':') =
      (": " ++ YamlScalar.write value).toList := by
    rw [List.dropWhile_append_of_pos (colon_not_mem_name c), hbehind, List.dropWhile_cons_of_neg (by decide)]
  rw [hline, pair?, dropPrefix?_append, Option.bind_eq_bind, Option.bind_some, hname, hvalue, scalar?_write,
    String.ofList_toList]
  rfl

/-- The columns that a mapping is made of, by their names. -/
def named (cells : List (Column × String)) : List (String × String) := cells.map fun e => (e.1.name, e.2)

theorem pairs_append {lines : List (List Char)} (hend : ∀ line ∈ lines.head?, pair? line = none) :
    ∀ cells : List (Column × String),
      pairs (cells.map (fun e => ("        " ++ e.1.name ++ ": " ++ YamlScalar.write e.2).toList) ++ lines) =
        (named cells, lines)
  | [] => by
    cases lines with
    | nil => rfl
    | cons line lines =>
      rw [List.map_nil, List.nil_append, pairs, hend line rfl]
      rfl
  | (c, value) :: cells => by
    rw [List.map_cons, List.cons_append, pairs, pair?_write, pairs_append hend cells]
    rfl

/-- A mapping ends at the first line that is no pair of it. -/
theorem mapping?_mappingLines (key : String) (cells : List (Column × String)) (lines : List (List Char))
    (hend : ∀ line ∈ lines.head?, pair? line = none) :
    mapping? key ((Flow.mappingLines key cells).map String.toList ++ lines) = some (named cells, lines) := by
  cases cells with
  | nil => exact if_pos rfl
  | cons e cells =>
    have hother : ("      " ++ key ++ ":").toList ≠ ("      " ++ key ++ ": \x7b\x7d").toList := by
      intro h
      simp only [String.toList_append] at h
      exact absurd (List.append_cancel_left h) (by decide)
    rw [Flow.mappingLines, List.map_cons, List.cons_append, mapping?, if_neg hother, if_pos rfl, List.map_map]
    · exact congrArg some (pairs_append hend (e :: cells))
    · exact nofun

/-! ## Entries -/

/-- The columns that are written as attributes, and -/
def attributesOf (l : FlowLine) : List (Column × String) := (Flow.furtherColumns l).filter fun e => !e.1.isContext

/-- the columns that are written as the context. -/
def contextOf (l : FlowLine) : List (Column × String) := (Flow.furtherColumns l).filter fun e => e.1.isContext

/-- The entry of a line. -/
def Entry.ofLine (l : FlowLine) : Entry where
  kind := lower l.op.text
  description := Flow.description l
  parameter := l.parameter
  attributes := named (attributesOf l)
  context := named (contextOf l)

/-- The context is no pair of the attributes. -/
theorem pair?_head_context (cells : List (Column × String)) :
    ∀ line ∈ ((Flow.mappingLines "context" cells).map String.toList).head?, pair? line = none := by
  cases cells <;> rintro _ ⟨⟩ <;> rfl

theorem block?_entryLines (l : FlowLine) : block? ((Flow.entryLines l).map String.toList) = some (.ofLine l) := by
  have hattributes := mapping?_mappingLines "attributes" (attributesOf l) _ (pair?_head_context (contextOf l))
  have hcontext := mapping?_mappingLines "context" (contextOf l) [] nofun
  rw [List.append_nil] at hcontext
  rw [Flow.entryLines, List.map_append, List.map_append, List.append_assoc]
  show block? (("  - type: " ++ YamlScalar.write (lower l.op.text)).toList ::
    ("    description: " ++ YamlScalar.write (Flow.description l)).toList ::
      ("    instance: " ++ YamlScalar.write l.parameter).toList :: "    flow:".toList ::
        ((Flow.mappingLines "attributes" (attributesOf l)).map String.toList ++
          (Flow.mappingLines "context" (contextOf l)).map String.toList)) = _
  rw [block?, scalar?_write, scalar?_write, scalar?_write, hattributes]
  simp only [Option.bind_eq_bind, Option.bind_some, guard, if_true, hcontext]
  rfl

/-! ## Documents -/

/-- The first four characters of a line tell. -/
theorem startsEntry_append {key : String} (hkey : 4 ≤ key.toList.length) (s : String) :
    startsEntry (key ++ s).toList = startsEntry key.toList := by
  rw [Bool.eq_iff_iff, startsEntry, startsEntry, List.isPrefixOf_iff_prefix, List.isPrefixOf_iff_prefix,
    String.toList_append]
  exact ⟨fun h => List.prefix_of_prefix_length_le h (List.prefix_append ..) hkey,
    fun h => h.trans (List.prefix_append ..)⟩

theorem startsEntry_mappingLines (key : String) (cells : List (Column × String)) :
    ∀ line ∈ (Flow.mappingLines key cells).map String.toList, startsEntry line = false := by
  have hkey (s : String) : startsEntry ("      " ++ s).toList = false :=
    (startsEntry_append (by decide) s).trans (by decide)
  have hpair (s : String) : startsEntry ("        " ++ s).toList = false :=
    (startsEntry_append (by decide) s).trans (by decide)
  cases cells with
  | nil =>
    rw [Flow.mappingLines, List.map_singleton, List.forall_mem_singleton, String.append_assoc]
    exact hkey _
  | cons e cells =>
    rw [Flow.mappingLines, List.map_cons, List.forall_mem_cons, String.append_assoc, List.forall_mem_map,
      List.forall_mem_map]
    · refine ⟨hkey _, fun e _ => ?_⟩
      rw [String.append_assoc, String.append_assoc]
      exact hpair _
    · exact nofun

/-- An entry starts with its first line and nowhere else. -/
theorem startsEntry_entryLines (l : FlowLine) : ∃ line rest, (Flow.entryLines l).map String.toList = line :: rest ∧
    startsEntry line = true ∧ ∀ line ∈ rest, startsEntry line = false := by
  refine ⟨_, _, rfl, (startsEntry_append (by decide) _).trans (by decide), ?_⟩
  simp only [List.append_eq, List.map_append, List.forall_mem_append]
  refine ⟨⟨?_, startsEntry_mappingLines "attributes" _⟩, startsEntry_mappingLines "context" _⟩
  simp only [List.map_cons, List.map_nil, List.forall_mem_cons]
  exact ⟨(startsEntry_append (by decide) _).trans (by decide), (startsEntry_append (by decide) _).trans (by decide),
    by decide, List.forall_mem_nil _⟩

/-- Lines are divided into entries where these start. -/
theorem splitBy_startsEntry {blocks : List (List (List Char))} (h : ∀ block ∈ blocks, ∃ line rest,
    block = line :: rest ∧ startsEntry line = true ∧ ∀ line ∈ rest, startsEntry line = false) :
    blocks.flatten.splitBy (fun _ line => !startsEntry line) = blocks := by
  refine List.splitBy_flatten ?_ ?_ ?_
  · intro hnil
    obtain ⟨_, _, heq, -⟩ := h [] hnil
    cases heq
  · intro block hblock
    obtain ⟨line, rest, rfl, -, hrest⟩ := h block hblock
    refine List.Pairwise.isChain (List.pairwise_cons.mpr ⟨fun next hnext => ?_, ?_⟩)
    · rw [hrest next hnext]
      rfl
    · refine List.pairwise_of_forall_mem_list fun _ _ next hnext => ?_
      rw [hrest next hnext]
      rfl
  · refine List.Pairwise.isChain (List.pairwise_of_forall_mem_list fun block hblock next hnext => ?_)
    obtain ⟨line, rest, rfl, -⟩ := h block hblock
    obtain ⟨first, others, rfl, hfirst, -⟩ := h next hnext
    refine ⟨List.cons_ne_nil _ _, List.cons_ne_nil _ _, ?_⟩
    rw [List.head_cons, hfirst]
    rfl

/-- The document of a flow. -/
def ofFlow (f : Flow) : FlowDocument := ⟨f.name, f.lines.map .ofLine⟩

theorem mapM_block? (lines : List FlowLine) :
    (lines.map fun l => (Flow.entryLines l).map String.toList).mapM block? = some (lines.map .ofLine) := by
  induction lines with
  | nil => rfl
  | cons l lines ih =>
    rw [List.map_cons, List.mapM_cons, block?_entryLines, ih]
    rfl

theorem ofLines?_yamlLines (f : Flow) : ofLines? (f.yamlLines.map String.toList) = some (ofFlow f) := by
  unfold Flow.yamlLines ofFlow
  cases f.lines with
  | nil =>
    show ofLines? (("flow: " ++ YamlScalar.write f.name).toList :: "lines: []".toList :: []) = _
    rw [ofLines?, scalar?_write]
    rfl
  | cons l lines =>
    have hsplit : ((l :: lines).flatMap Flow.entryLines).map String.toList =
        ((l :: lines).map fun l => (Flow.entryLines l).map String.toList).flatten := by
      rw [List.map_flatMap, List.flatMap_def]
    have hblocks : ∀ block ∈ (l :: lines).map fun l => (Flow.entryLines l).map String.toList, ∃ line rest,
        block = line :: rest ∧ startsEntry line = true ∧ ∀ line ∈ rest, startsEntry line = false :=
      List.forall_mem_map.mpr fun l _ => startsEntry_entryLines l
    show ofLines? (("flow: " ++ YamlScalar.write f.name).toList :: "lines:".toList ::
      ((l :: lines).flatMap Flow.entryLines).map String.toList) = _
    rw [ofLines?, scalar?_write, hsplit, splitBy_startsEntry hblocks, mapM_block?]
    rfl

end FlowDocument

namespace Flow

open FlowDocument

theorem unbroken_write (s : String) : Unbroken (YamlScalar.write s) := by
  constructor
  all_goals
    intro h
    have hcontrol := (YamlScalar.shown_write s _ h).control
    revert hcontrol
    decide

theorem unbroken_mappingLines {key : String} (hkey : Unbroken key) (cells : List (Column × String)) :
    ∀ line ∈ mappingLines key cells, Unbroken line := by
  have hstart : Unbroken ("      " ++ key) := .append (by decide) hkey
  have hname (c : Column) : Unbroken c.name := by cases c <;> decide
  cases cells with
  | nil => exact List.forall_mem_singleton.mpr (hstart.append (by decide))
  | cons e cells =>
    refine List.forall_mem_cons.mpr ⟨hstart.append (by decide), List.forall_mem_map.mpr fun e _ => ?_⟩
    exact ((Unbroken.append (by decide) (hname e.1)).append (by decide)).append (unbroken_write e.2)

theorem unbroken_entryLines (l : FlowLine) : ∀ line ∈ entryLines l, Unbroken line := by
  refine List.forall_mem_append.mpr ⟨List.forall_mem_append.mpr ⟨?_, unbroken_mappingLines (by decide) _⟩,
    unbroken_mappingLines (by decide) _⟩
  simp only [List.forall_mem_cons]
  exact ⟨.append (by decide) (unbroken_write _), .append (by decide) (unbroken_write _),
    .append (by decide) (unbroken_write _), by decide, List.forall_mem_nil _⟩

/-- No text that is written into a document ends a line of it. -/
theorem unbroken_yamlLines (f : Flow) : ∀ line ∈ f.yamlLines, Unbroken line := by
  refine List.forall_mem_cons.mpr ⟨.append (by decide) (unbroken_write f.name), ?_⟩
  cases f.lines with
  | nil => exact List.forall_mem_singleton.mpr (by decide)
  | cons l lines =>
    refine List.forall_mem_cons.mpr ⟨by decide, fun line hline => ?_⟩
    obtain ⟨l, -, hline⟩ := List.mem_flatMap.mp hline
    exact unbroken_entryLines l line hline

theorem read?_render (f : Flow) : read? (f.render .yaml []) = some (ofFlow f) := by
  have hsplit := Text.splitOn_unlines_eq fun line hline => (unbroken_yamlLines f line hline).2
  show ofLines? ((unlines f.yamlLines).toList.splitOn '\n').dropLast = _
  rw [hsplit, List.dropLast_concat, ofLines?_yamlLines]

end Flow

end TestProgram
