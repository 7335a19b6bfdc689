import TestProgram.Build.Provenance
import TestProgram.Document.Flow
import TestProgram.Document.Pattern
import TestProgram.Document.Sheet
import TestProgram.Flow.Render
import TestProgram.Render
import TestProgram.Run.Basic
import TestProgram.Script.Dump
import TestProgram.Script.Read

/-!
# Builds

A build takes a script's text through three stages, reading, running and
writing, to files in memory. A stage that reports an error is the last one.
-/

namespace TestProgram

/-- Which files a build writes. -/
inductive Emit where
  /-- Patterns, flows and sheets. -/
  | all
  | vectors
  | flows
  | sheets
  /-- One data document. -/
  | json
  /-- A listing of the script as it was read. -/
  | ast
  deriving DecidableEq, Repr

namespace Emit

def choices : List Emit := [all, vectors, flows, sheets, json, ast]

def name : Emit → String
  | all => "all"
  | vectors => "vectors"
  | flows => "flows"
  | sheets => "sheets"
  | json => "json"
  | ast => "ast"

/-- The choice in reports. -/
def title : Emit → String
  | all => "All"
  | vectors => "Vectors"
  | flows => "Flows"
  | sheets => "Sheets"
  | json => "Json"
  | ast => "Ast"

def ofName? (s : String) : Option Emit := choices.find? fun e => e.name == s

/-- Whether a part of the product is written, given the choice for it alone. -/
def includes (e part : Emit) : Bool := e == all || e == part

end Emit

inductive Stage where
  | parse
  | execute
  | render
  deriving DecidableEq, Repr

namespace Stage

def name : Stage → String
  | parse => "parse"
  | execute => "execute"
  | render => "render"

def title : Stage → String
  | parse => "Parse"
  | execute => "Execute"
  | render => "Render"

end Stage

structure BuildOptions where
  config : Config
  /-- The format of flows, if it is not the platform's. -/
  flowFormat : Option FlowFormat
  emit : Emit

/-- A file that is not yet written. -/
structure Artifact where
  fileName : String
  contents : String
  deriving DecidableEq, Repr

structure Build where
  artifacts : List Artifact
  diagnostics : List Diagnostic

/-- A stage that reported errors, and all that was reported. -/
structure BuildFailure where
  stage : Stage
  diagnostics : List Diagnostic

namespace Build

/-! ## Files -/

/-- The file of a pattern, or why it cannot be written. -/
def patternFile (o : BuildOptions) (header : List String) (p : Pattern) : Except Diagnostic Artifact :=
  match o.config.platform.render header p with
  | .ok contents => .ok ⟨o.config.platform.fileName p.name, contents⟩
  | .error e => .error ⟨.unwritten p.name e, none⟩

def flowFile (o : BuildOptions) (header : List String) (f : Flow) : Artifact :=
  let format := o.flowFormat.getD o.config.platform.flowFormat
  ⟨format.fileName f.name, f.render format header⟩

/-- The file of a sheet, unless the sheet is empty. -/
def sheetFile (header : List String) (s : Sheet α) (text : Sheet α → String) : List Artifact :=
  if s.entries.isEmpty then []
  else [⟨s.name ++ ".txt", Text.unlines (Flow.headerLines header) ++ text s⟩]

/-- The data document of a whole product. -/
def document (source : String) (config : Config) (p : Product) : Document := .record [
  ("generator_version", .text Provenance.version),
  ("source_hash", .text (Provenance.sourceHash source)),
  ("config", config.document),
  ("patterns", .list (p.patterns.map Pattern.document)),
  ("flows", .list (p.flows.map Flow.document)),
  ("instances", .list (p.instances.entries.map TestInstance.document)),
  ("pattern_sets", .list (p.patternSets.entries.map PatternSet.document))]

def documentFile (source : String) (config : Config) (p : Product) : Artifact :=
  ⟨Provenance.generator ++ ".json", (document source config p).pretty ++ "\n"⟩

def listingFile (s : Script) : Artifact := ⟨"ast.txt", s.dump.text ++ "\n"⟩

/-- All files of a product, and the errors of patterns that cannot be
written. -/
def files (source : String) (o : BuildOptions) (p : Product) : List Artifact × List Diagnostic :=
  let header := Provenance.header source o.config
  let patterns := if o.emit.includes .vectors then p.patterns.map (patternFile o header) else []
  let flows := if o.emit.includes .flows then p.flows.map (flowFile o header) else []
  let sheets :=
    if o.emit.includes .sheets then
      sheetFile header p.instances TestInstance.sheetText
        ++ sheetFile header p.patternSets PatternSet.sheetText
    else []
  let documents := if o.emit = .json then [documentFile source o.config p] else []
  (patterns.filterMap Except.toOption ++ flows ++ sheets ++ documents,
    patterns.filterMap fun r => match r with
      | .ok _ => none
      | .error d => some d)

/-! ## Stages -/

/-- Ends a build at a stage that reported an error. -/
def settle (stage : Stage) (diagnostics : List Diagnostic) : Except BuildFailure Unit :=
  if diagnostics.any Diagnostic.isError then .error ⟨stage, diagnostics⟩ else .ok ()

/-- Runs a script and writes what it generates. -/
def ofScript (source : String) (o : BuildOptions) (s : Script) : Except BuildFailure Build := do
  let (product, reports) := s.run o.config
  settle .execute reports
  let (artifacts, errors) := files source o product
  settle .render (reports ++ errors)
  pure ⟨artifacts, reports⟩

/-- The build of a script's text. -/
def ofSource (source : String) (o : BuildOptions) : Except BuildFailure Build :=
  match Script.ofSource source with
  | .error complaints => .error ⟨.parse, complaints⟩
  | .ok s => if o.emit = .ast then .ok ⟨[listingFile s], []⟩ else ofScript source o s

end Build

end TestProgram
