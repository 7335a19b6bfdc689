import TestProgram.CommandLine.Options
import TestProgram.Text.Split

/-!
# Running a command

What a command prints, which files it delivers and with which status it ends:
zero after success, one after errors in the script, two if it could not do
its work. All of this is decided before a file is written.
-/

namespace TestProgram

/-- What is left of a command besides files. -/
structure Outcome where
  status : Nat
  stdout : String
  stderr : List String
  deriving DecidableEq, Repr

namespace Outcome

/-- Ends with an error of usage or of the file system. -/
def unusable (stderr : List String) : Outcome := ⟨2, "", stderr⟩

/-- Ends well after printing a text. -/
def printed (stdout : String) (stderr : List String) : Outcome := ⟨0, stdout, stderr⟩

def report (o : Outcome) (line : String) : Outcome := { o with stderr := o.stderr ++ [line] }

end Outcome

/-- Files on their way into a directory. -/
structure Delivery where
  directory : String
  /-- The files in the order in which they are written. -/
  files : List Artifact
  /-- Whether every file is reported when it has been written. -/
  announced : Bool
  deriving DecidableEq, Repr

/-- What a command comes to if its files can be delivered. -/
structure CommandResult where
  outcome : Outcome
  delivery : Option Delivery

/-- A command that ends without files. -/
def CommandResult.only (o : Outcome) : CommandResult := ⟨o, none⟩

namespace CommandLine

/-- Begins every line of reports. -/
def reporter : String := Provenance.generator ++ ": "

/-- The bytes of a text that stand before an offset. -/
def before (offset : Nat) : List Char → List Char
  | [] => []
  | c :: cs => if c.utf8Size ≤ offset then c :: before (offset - c.utf8Size) cs else []

/-- The line and column of an offset, counted from one; columns in bytes. -/
def position (source : String) (offset : Nat) : Nat × Nat :=
  let lines := Text.split '\n' (before offset source.toList)
  (lines.length, byteLength (lines.getLastD []) + 1)

/-- A diagnostic, with its place in the script. -/
def reportLine (path source : String) (d : Diagnostic) : String :=
  let place := match d.span with
    | some span =>
      let (line, column) := position source span.start
      s!"{path}:{line}:{column}: "
    | none => ""
  reporter ++ place ++ d.text

def settingLines (o : CommandOptions) : List String := [
  reporter ++ "source   = " ++ o.source,
  reporter ++ "output   = " ++ o.output,
  reporter ++ "platform = " ++ o.build.config.platform.name,
  reporter ++ "emit     = " ++ o.build.emit.title]

/-- The stages of a build up to the last one it reached. -/
def stagesOf (o : BuildOptions) : Except BuildFailure Build → List Stage
  | .error ⟨.parse, _⟩ => [.parse]
  | .error ⟨.execute, _⟩ => [.parse, .execute]
  | .error ⟨.render, _⟩ => [.parse, .execute, .render]
  | .ok _ => if o.emit = .ast then [.parse] else [.parse, .execute, .render]

def stageLine (s : Stage) : String := reporter ++ s.name ++ " complete"

/-- Builds a script that was read from a file, if it could be. -/
def build (o : CommandOptions) (source : Option String) : CommandResult :=
  let verbose (lines : List String) : List String := if o.verbose then lines else []
  let opening := verbose (settingLines o)
  if o.build.config.group = 0 then
    .only (.unusable (opening ++ [reporter ++ "error: --group-size must be at least 1"]))
  else
    match source with
    | none => .only (.unusable (opening ++ [reporter ++ "error: " ++ o.source ++ ": cannot be read"]))
    | some source =>
      let result := Build.ofSource source o.build
      let opening := opening ++ verbose ((stagesOf o.build result).map stageLine)
      match result with
      | .error failure =>
        .only ⟨1, "", opening ++ failure.diagnostics.map (reportLine o.source source)⟩
      | .ok b =>
        let opening := opening ++ b.diagnostics.map (reportLine o.source source)
        if o.build.emit = .ast then
          .only (.printed (String.join (b.artifacts.map Artifact.contents)) opening)
        else ⟨.printed "" opening, some ⟨o.output, b.artifacts, o.verbose⟩⟩

def versionText : String := Provenance.generator ++ " " ++ Provenance.version ++ "\n"

/-- The options, and what there is to say about each. -/
def optionHelp : List (String × String) := [
  ("  -o, --output <OUTPUT>", "Output directory [default: .]"),
  ("  -p, --platform <PLATFORM>",
    "Target tester platform (j750, ultraflex, v93k, jlink, bdm, doc) [default: j750]"),
  ("      --emit <EMIT>",
    "Outputs to produce [default: all] [possible values: all, vectors, flows, sheets, json, ast]"),
  ("      --max-repeat <MAX_REPEAT>", "Override the platform's maximum repeat per vector"),
  ("      --wait-rounding <WAIT_ROUNDING>",
    "How waits that are not a whole number of cycles are converted "
      ++ "[default: ceil] [possible values: ceil, truncate]"),
  ("      --group-size <GROUP_SIZE>", "Initial vector group size [default: 1]"),
  ("      --flow-format <FLOW_FORMAT>", "Flow sheet format (tabular, yaml); defaults to the platform's"),
  ("      --verbose", "Print passes and timing"),
  ("  -h, --help", "Print help"),
  ("  -V, --version", "Print version")]

/-- Where the second column of the help begins: two spaces behind the longest
option. -/
def helpColumn : Nat := 2 + ((optionHelp.map fun h => h.1.length).max?.getD 0)

def helpText : String := Text.unlines ([
  "vecgen — compiles pattern scripts into ATE vector files, flow sheets and instance sheets",
  "",
  "Usage: vecgen [OPTIONS] <SOURCE>",
  "",
  "Arguments:",
  "  <SOURCE>  Input pattern script",
  "",
  "Options:"]
  ++ optionHelp.map fun h => Text.padRight helpColumn h.1 ++ h.2)

end CommandLine

/-- The script that a command needs to read. -/
def Command.source? : Command → Option String
  | .build o => some o.source
  | _ => none

/-- The result of a command, given the text of its script if it could be
read. -/
def Command.run (source : Option String) : Command → CommandResult
  | .help => .only (.printed CommandLine.helpText [])
  | .version => .only (.printed CommandLine.versionText [])
  | .build o => CommandLine.build o source

end TestProgram
