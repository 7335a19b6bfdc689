import TestProgram.Build.Sha256
import TestProgram.Config

/-!
# Provenance

Every file begins with lines that say what it was generated from.
-/

namespace TestProgram.Provenance

def generator : String := "vecgen"

def version : String := "0.3.0"

/-- The digest of a script's text. -/
def sourceHash (source : String) : String := Sha256.hex source.toUTF8.toList

def header (source : String) (config : Config) : List String := [
  "generated by " ++ generator ++ " " ++ version,
  "source sha256 " ++ sourceHash source,
  "platform " ++ config.platform.name]

end TestProgram.Provenance
