import TestProgram.CommandLine.Files

/-!
# The program

Carries out the command line on the files of the computer it runs on.
-/

namespace TestProgram

/-- The answer of an action, or another one if the action fails. -/
def answerOr (other : α) (action : IO α) : IO α := do
  try
    action
  catch _ => pure other

/-- The files of this computer. -/
def localFiles : FileAccess IO where
  read path := answerOr none do
    let text ← IO.FS.readFile path
    pure (some text)
  makeDirectory path := answerOr false do
    IO.FS.createDirAll path
    pure true
  write path contents := answerOr false do
    IO.FS.writeFile path contents
    pure true

end TestProgram

def main (args : List String) : IO UInt32 := do
  let o ← TestProgram.CommandLine.perform TestProgram.localFiles args
  for line in o.stderr do
    IO.eprintln line
  IO.print o.stdout
  pure (UInt32.ofNat o.status)
