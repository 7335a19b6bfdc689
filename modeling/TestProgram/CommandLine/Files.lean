import TestProgram.CommandLine.Run

/-!
# Commands and files

A command reads its script, and delivers files into a directory. How files
are reached is left open: a `FileAccess` says how to read, to make a directory
and to write, and whether that worked. `CommandLine.perform` is a whole
command over any such access. A delivery ends at the first file that cannot
be written; the files before it stay.
-/

namespace TestProgram

/-- A way to reach files by their paths. -/
structure FileAccess (m : Type → Type) where
  /-- The text of a file, if it is there and is text. -/
  read : String → m (Option String)
  /-- Makes a directory and all those on the way to it; whether it is there
  then. -/
  makeDirectory : String → m Bool
  /-- Writes a file, in place of one that was there; whether it could. -/
  write : (path contents : String) → m Bool

/-- The path of a file in a directory. -/
def CommandLine.joinPath (directory file : String) : String :=
  if directory.endsWith "/" then directory ++ file else directory ++ "/" ++ file

/-- The outcome after a path turned out not to be writable. -/
def Outcome.refused (o : Outcome) (path : String) : Outcome :=
  .unusable (o.stderr ++ [CommandLine.reporter ++ "error: " ++ path ++ ": cannot be written"])

namespace Delivery

variable {m : Type → Type} [Monad m] (access : FileAccess m)

/-- Writes files of a delivery until one is refused. -/
def writeFiles (d : Delivery) : List Artifact → Outcome → m Outcome
  | [], o => pure o
  | a :: files, o => do
    let path := CommandLine.joinPath d.directory a.fileName
    if ← access.write path a.contents then
      d.writeFiles files (if d.announced then o.report (CommandLine.reporter ++ "wrote " ++ path) else o)
    else pure (o.refused path)

/-- Makes the directory of a delivery and writes its files there. -/
def carryOut (d : Delivery) (o : Outcome) : m Outcome := do
  if ← access.makeDirectory d.directory then d.writeFiles access d.files o
  else pure (o.refused d.directory)

end Delivery

namespace CommandLine

variable {m : Type → Type} [Monad m] (access : FileAccess m)

/-- Reads the script of a command, if it has one. -/
def readScript (c : Command) : m (Option String) :=
  match c.source? with
  | some path => access.read path
  | none => pure none

/-- Carries out a command line. -/
def perform (args : List String) : m Outcome := do
  match Command.ofArguments args with
  | .error e => pure (.unusable ["error: " ++ e.message])
  | .ok command => do
    let source ← readScript access command
    let result := command.run source
    match result.delivery with
    | some d => d.carryOut access result.outcome
    | none => pure result.outcome

end CommandLine

end TestProgram
