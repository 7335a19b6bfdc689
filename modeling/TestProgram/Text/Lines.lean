/-!
# Lines

Texts are put together from lines, each of which ends in a newline.
-/

namespace TestProgram.Text

/-- The text of a list of lines. -/
def unlines (lines : List String) : String := String.join (lines.map (· ++ "\n"))

/-- A text filled up with spaces on the right. -/
def padRight (width : Nat) (s : String) : String := s ++ "".pushn ' ' (width - s.length)

/-- A text filled up with spaces on the left. -/
def padLeft (width : Nat) (s : String) : String := "".pushn ' ' (width - s.length) ++ s

/-- Two spaces for every level of nesting. -/
def indent (depth : Nat) : String := "".pushn ' ' (2 * depth)

end TestProgram.Text
