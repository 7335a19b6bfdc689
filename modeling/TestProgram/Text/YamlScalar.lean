import TestProgram.Document.Basic
import TestProgram.Number.Literal
import TestProgram.Text.Blank

/-!
# Scalars of YAML

A text is written as it is where that is plain (`YamlScalar.isPlain`): where
it cannot be taken for anything but a text. Otherwise it is written between
double quotes, with control characters by number.
-/

namespace TestProgram.Text.YamlScalar

/-- The characters that mean something else at the start of a scalar. -/
def indicators : List Char :=
  ['-', '?', ':', ',', '[', ']', '\x7b', '\x7d', '#', '&', '*', '!', '|', '>', '\x27', '"', '%', '@', '\x60']

/-- The words that stand for truth values and for nothing. -/
def reserved : List String := ["true", "false", "yes", "no", "on", "off", "null", "~", "y", "n"]

/-- Whether two characters follow one another somewhere in a text. -/
def hasPair (a b : Char) : List Char → Bool
  | c :: d :: cs => (c == a && d == b) || hasPair a b (d :: cs)
  | _ => false

/-- The two separators of lines and paragraphs. -/
def isLineBreak (c : Char) : Bool := c.toNat == 0x2028 || c.toNat == 0x2029

/-- Characters that are never written as they are. -/
def isHidden (c : Char) : Bool := c == '"' || c == '\\' || isLineBreak c || isControl c

def isPlain (s : String) : Bool :=
  let cs := s.toList
  !cs.isEmpty && trim cs == cs && !(cs.head?.any indicators.contains)
    && !hasPair ':' ' ' cs && !hasPair ' ' '#' cs && !cs.any isHidden
    && !reserved.contains (lower s) && (Real.read? s).isNone

/-- One character inside quotes. -/
def quotedChar (c : Char) : List Char :=
  if c = '"' then ['\\', '"']
  else if c = '\\' then ['\\', '\\']
  else if c = '\n' then ['\\', 'n']
  else if c = '\t' then ['\\', 't']
  else if c = '\r' then ['\\', 'r']
  else if isControl c || isLineBreak c then '\\' :: 'u' :: Document.hexDigits 4 c.toNat
  else [c]

def write (s : String) : String :=
  if isPlain s then s else String.ofList ('"' :: s.toList.flatMap quotedChar ++ ['"'])

end TestProgram.Text.YamlScalar
