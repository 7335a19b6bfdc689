import TestProgram.Render.CommandScript
import TestProgram.Render.GroupTable
import TestProgram.Render.Listing
import TestProgram.Render.VectorTable

/-!
# Writing patterns

The text of a pattern for a platform. Items are written in their order, and
repeat counts as they are recorded.
-/

namespace TestProgram

namespace Platform

/-- The lines of a pattern, or why the platform has no way to express it. -/
def patternLines (platform : Platform) (p : Pattern) : Except RenderFault (List String) :=
  match platform with
  | .j750 | .ultraFlex => VectorTable.lines platform.maxRepeat p
  | .v93k => GroupTable.lines p
  | .jlink => CommandScript.lines .jlink p
  | .bdm => CommandScript.lines .bdm p
  | .doc => .ok (Listing.lines p)

/-- The text of a pattern under a header of comment lines. -/
def render (platform : Platform) (header : List String) (p : Pattern) : Except Fault String :=
  match platform.patternLines p with
  | .ok lines => .ok (Text.unlines (header.map (fun line => platform.comment ++ " " ++ line) ++ lines))
  | .error cause => .error (.unrenderable platform.name cause)

end Platform

end TestProgram
