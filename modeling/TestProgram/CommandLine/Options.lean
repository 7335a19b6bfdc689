import TestProgram.Build.Basic

/-!
# Options on the command line

Arguments are read from left to right: options with a value (`-o out`,
`-oout`, `--output out`, `--output=out`), switches, and one script. The first
argument that does not fit ends the reading, and so do the requests for help
and for the version.
-/

namespace TestProgram

structure CommandOptions where
  source : String
  output : String
  build : BuildOptions
  verbose : Bool

/-- What a command line asks for. -/
inductive Command where
  | help
  | version
  | build (o : CommandOptions)

/-- Why a command line cannot be read. -/
inductive UsageError where
  | unexpected (argument : String)
  | missingValue (option : String)
  | invalidValue (option value : String)
  | repeated (option : String)
  | missingSource
  deriving DecidableEq, Repr

def UsageError.message : UsageError → String
  | unexpected argument => "unexpected argument '" ++ argument ++ "' found"
  | missingValue option => "a value is required for '--" ++ option ++ "' but none was supplied"
  | invalidValue option value => "invalid value '" ++ value ++ "' for '--" ++ option ++ "'"
  | repeated option => "the argument '--" ++ option ++ "' cannot be used multiple times"
  | missingSource => "the following required arguments were not provided: <SOURCE>"

namespace CommandLine

/-- The options that take a value. -/
inductive Setting where
  | output
  | platform
  | emit
  | maxRepeat
  | waitRounding
  | groupSize
  | flowFormat
  deriving DecidableEq, Repr

namespace Setting

def all : List Setting := [output, platform, emit, maxRepeat, waitRounding, groupSize, flowFormat]

/-- The option after two hyphens. -/
def name : Setting → String
  | output => "output"
  | platform => "platform"
  | emit => "emit"
  | maxRepeat => "max-repeat"
  | waitRounding => "wait-rounding"
  | groupSize => "group-size"
  | flowFormat => "flow-format"

/-- The option after one hyphen. -/
def letter? : Setting → Option Char
  | output => some 'o'
  | platform => some 'p'
  | _ => none

def ofName? (s : String) : Option Setting := all.find? fun o => o.name == s

def ofLetter? (c : Char) : Option Setting := all.find? fun o => o.letter? == some c

end Setting

/-- What has been read so far. -/
structure Reading where
  source : Option String
  values : List (Setting × String)
  verbose : Bool

/-! ## Values -/

/-- A count in digits, with an optional plus sign, no larger than `largest`. -/
def count? (largest : Nat) (s : String) : Option Nat :=
  let digits := match s.toList with
    | '+' :: cs => cs
    | cs => cs
  if digits.isEmpty || !digits.all Char.isDigit then none
  else if Literal.value digits ≤ largest then some (Literal.value digits) else none

def rounding? : String → Option Rounding
  | "ceil" => some .ceil
  | "truncate" => some .truncate
  | _ => none

/-- Whether an option accepts a value. -/
def accepts : Setting → String → Bool
  | .output, v => !v.isEmpty
  | .platform, v => (Platform.ofName v).toOption.isSome
  | .emit, v => (Emit.ofName? v).isSome
  | .maxRepeat, v => (count? Word.largest v).isSome
  | .waitRounding, v => (rounding? v).isSome
  | .groupSize, v => (count? Word.largestShort v).isSome
  | .flowFormat, v => (FlowFormat.ofName v).toOption.isSome

namespace Reading

def start : Reading := ⟨none, [], false⟩

def value? (r : Reading) (o : Setting) : Option String :=
  (r.values.find? fun v => v.1 == o).map Prod.snd

def put (r : Reading) (o : Setting) (value : String) : Except UsageError Reading :=
  if (r.value? o).isSome then .error (.repeated o.name)
  else if accepts o value then .ok { r with values := r.values ++ [(o, value)] }
  else .error (.invalidValue o.name value)

/-- A free-standing argument, which is the script. -/
def putSource (r : Reading) (s : String) : Except UsageError Reading :=
  if r.source.isSome then .error (.unexpected s)
  else if s.isEmpty then .error (.invalidValue "source" s)
  else .ok { r with source := some s }

def putVerbose (r : Reading) : Except UsageError Reading :=
  if r.verbose then .error (.repeated "verbose") else .ok { r with verbose := true }

/-- All options, with their standard values where nothing was said. -/
def finish (r : Reading) : Except UsageError CommandOptions :=
  match r.source with
  | none => .error .missingSource
  | some source => .ok {
      source
      output := (r.value? .output).getD "."
      build := {
        config := {
          platform := (((r.value? .platform).bind fun v => (Platform.ofName v).toOption)).getD .j750
          maxRepeat := (r.value? .maxRepeat).bind (count? Word.largest)
          rounding := ((r.value? .waitRounding).bind rounding?).getD .ceil
          group := ((r.value? .groupSize).bind (count? Word.largestShort)).getD 1 }
        flowFormat := (r.value? .flowFormat).bind fun v => (FlowFormat.ofName v).toOption
        emit := ((r.value? .emit).bind Emit.ofName?).getD .all }
      verbose := r.verbose }

end Reading

/-! ## Arguments -/

/-- Whether an argument can be the value of the option before it. -/
def isValue (s : String) : Bool :=
  match s.toList with
  | '-' :: _ :: _ => false
  | _ => true

/-- What one argument is. -/
inductive Argument where
  /-- An option whose value is the next argument. -/
  | open (o : Setting)
  | given (o : Setting) (value : String)
  | verbose
  | help
  | version
  /-- Only free-standing arguments follow. -/
  | rest
  | free (s : String)
  | unknown (s : String)

/-- A long option, with or without a value after an equals sign. -/
def long (s : String) (cs : List Char) : Argument :=
  let name := String.ofList (cs.takeWhile (· ≠ '='))
  match cs.dropWhile (· ≠ '='), Setting.ofName? name with
  | [], some o => .open o
  | _ :: value, some o => .given o (String.ofList value)
  | [], none =>
    if name = "verbose" then .verbose
    else if name = "help" then .help
    else if name = "version" then .version
    else .unknown s
  | _ :: _, none => .unknown s

/-- Letters after a single hyphen; the value of an option may follow at once
or after an equals sign. -/
def short (s : String) (c : Char) (cs : List Char) : Argument :=
  match Setting.ofLetter? c, cs with
  | some o, [] => .open o
  | some o, '=' :: value => .given o (String.ofList value)
  | some o, value => .given o (String.ofList value)
  | none, _ => if c = 'h' then .help else if c = 'V' then .version else .unknown s

def classify (s : String) : Argument :=
  match s.toList with
  | ['-', '-'] => .rest
  | '-' :: '-' :: cs => long s cs
  | '-' :: c :: cs => short s c cs
  | _ => .free s

/-- Reads free-standing arguments. -/
def readFree (r : Reading) : List String → Except UsageError Reading
  | [] => .ok r
  | s :: args => do
    let r ← r.putSource s
    readFree r args

def read (r : Reading) : List String → Except UsageError Command
  | [] => do
    let o ← r.finish
    pure (.build o)
  | s :: args =>
    match classify s with
    | .help => .ok .help
    | .version => .ok .version
    | .verbose => do
      let r ← r.putVerbose
      read r args
    | .given o value => do
      let r ← r.put o value
      read r args
    | .open o =>
      match args with
      | [] => .error (.missingValue o.name)
      | value :: args =>
        if isValue value then do
          let r ← r.put o value
          read r args
        else .error (.missingValue o.name)
    | .free s => do
      let r ← r.putSource s
      read r args
    | .rest => do
      let r ← readFree r args
      let o ← r.finish
      pure (.build o)
    | .unknown s => .error (.unexpected s)

end CommandLine

/-- What a list of arguments asks for. -/
def Command.ofArguments (args : List String) : Except UsageError Command :=
  CommandLine.read .start args

end TestProgram
