import TestProgram.Sheet.Instances

/-!
# Pattern sets

A pattern set names patterns that a tester loads together.
-/

namespace TestProgram

structure PatternSet where
  patterns : List String
  deriving DecidableEq, Repr

instance : SheetContent PatternSet where
  kind := "pattern set"
  key s := keySeparator.intercalate s.patterns

namespace PatternSet

def sheetLines (s : Sheet PatternSet) : List String :=
  ("Pattern Sets\t" ++ s.name) :: "name\tpattern"
    :: s.entries.flatMap fun e => e.content.patterns.map fun p => e.name ++ "\t" ++ p

/-- The text of a sheet of pattern sets. -/
def sheetText (s : Sheet PatternSet) : String := Text.unlines (sheetLines s)

end PatternSet

end TestProgram
