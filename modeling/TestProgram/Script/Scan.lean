import TestProgram.Number.Literal
import TestProgram.Script.Token
import TestProgram.Text.Quoted

/-!
# The pieces of a script

A script's text is cut into pieces: tokens, blanks and comments, and what is
neither. At every place the longest piece is taken (`front`). The pieces
follow one another without gaps (`pieces_text`), so a bad character never
hides what comes after it.
-/

namespace TestProgram

/-- What a piece of the text is. -/
inductive PieceKind where
  | token (t : Token)
  /-- Blanks or a comment. -/
  | skipped
  | unrecognized
  deriving DecidableEq

structure Piece where
  kind : PieceKind
  text : List Char
  span : Span
  deriving DecidableEq

namespace Scan

/-! ## Words and numbers -/

/-- Blanks inside a line. -/
def isSpace (c : Char) : Bool := c == ' ' || c == '\t' || c == '\r'

def startsWord (c : Char) : Bool := c.isAlpha || c == '_'

def continuesWord (c : Char) : Bool := startsWord c || c.isDigit

/-- The unit of time at the front of a text, and its length. -/
def timeUnit? : List Char → Option (TimeUnit × Nat)
  | 'p' :: 's' :: _ => some (.ps, 2)
  | 'n' :: 's' :: _ => some (.ns, 2)
  | 'u' :: 's' :: _ => some (.us, 2)
  | 'm' :: 's' :: _ => some (.ms, 2)
  | 's' :: _ => some (.s, 1)
  | _ => none

/-- The unit of frequency at the front of a text in hertz, and its length. -/
def frequencyUnit? : List Char → Option (Float × Nat)
  | 'H' :: 'z' :: _ => some (1, 2)
  | 'k' :: 'H' :: 'z' :: _ => some (1000, 3)
  | 'M' :: 'H' :: 'z' :: _ => some (1000000, 3)
  | 'G' :: 'H' :: 'z' :: _ => some (1000000000, 3)
  | _ => none

/-- The number, duration or frequency at the front of a text that begins with
a digit, and its length. A duration has no exponent. -/
def quantity (cs : List Char) : Token × Nat :=
  let mantissa := Literal.mantissaLength cs
  let whole := mantissa + Literal.exponentLength (cs.drop mantissa)
  let value (n : Nat) : Float := (Literal.decimal (cs.take n)).toFloat
  match timeUnit? (cs.drop mantissa), frequencyUnit? (cs.drop whole) with
  | some (unit, n), _ => (.duration (.ofUnits unit (value mantissa)), mantissa + n)
  | none, some (scale, n) => (.frequency ⟨value whole * scale⟩, whole + n)
  | none, none => (.number (value whole), whole)

/-! ## Strings -/

/-- The length of the inside of a string: characters other than quotes and
backslashes, and backslashes together with a character of the same line. -/
def insideLength : List Char → Nat
  | [] => 0
  | '\\' :: c :: cs => if c = '\n' then 0 else insideLength cs + 2
  | c :: cs => if c = '"' ∨ c = '\\' then 0 else insideLength cs + 1

/-- What a quote begins, and the length of what follows it. -/
def string (cs : List Char) : PieceKind × Nat :=
  let n := insideLength cs
  match cs.drop n with
  | '"' :: _ =>
    match Text.Quoted.decode (cs.take n) with
    | some s => (.token (.text (String.ofList s)), n + 1)
    | none => (.unrecognized, n + 1)
  | _ => (.unrecognized, n)

/-! ## All pieces -/

/-- The sign that a character is on its own. -/
def sign? : Char → Option Token
  | '\x7b' => some .opening
  | '\x7d' => some .closing
  | ',' => some .comma
  | '=' => some .equals
  | ';' => some .semicolon
  | _ => none

/-- What the text `c :: cs` begins with, and how many characters of `cs`
belong to it. -/
def front (c : Char) (cs : List Char) : PieceKind × Nat :=
  if isSpace c then (.skipped, (cs.takeWhile isSpace).length)
  else if c = '#' then (.skipped, (cs.takeWhile (· ≠ '\n')).length)
  else if c = '\n' then (.token .newline, (cs.takeWhile (· = '\n')).length)
  else if c = '"' then string cs
  else if c.isDigit then
    let (token, length) := quantity (c :: cs)
    (.token token, length - 1)
  else if startsWord c then
    let more := cs.takeWhile continuesWord
    (.token (.ofWord (String.ofList (c :: more))), more.length)
  else match sign? c with
    | some token => (.token token, 0)
    | none => (.unrecognized, 0)

/-- The pieces of a text that begins at a byte of the script. -/
def piecesFrom (start : Nat) : List Char → List Piece
  | [] => []
  | c :: cs =>
    let (kind, more) := front c cs
    let text := c :: cs.take more
    let stop := start + byteLength text
    ⟨kind, text, ⟨start, stop⟩⟩ :: piecesFrom stop (cs.drop more)
termination_by cs => cs.length
decreasing_by simp only [List.length_drop, List.length_cons]; omega

def pieces (source : String) : List Piece := piecesFrom 0 source.toList

theorem piecesFrom_text (start : Nat) (cs : List Char) :
    (piecesFrom start cs).flatMap Piece.text = cs := by
  fun_induction piecesFrom start cs with
  | case1 => rfl
  | case2 start c cs kind more _ text stop ih =>
    simp only [List.flatMap_cons, ih, text, List.cons_append, List.take_append_drop]

/-- Nothing of a text is lost. -/
theorem pieces_text (source : String) : (pieces source).flatMap Piece.text = source.toList :=
  piecesFrom_text 0 source.toList

end Scan

namespace Piece

/-- The token that a piece is. -/
def lexeme? (p : Piece) : Option Lexeme :=
  match p.kind with
  | .token t => some ⟨t, p.span⟩
  | _ => none

def isUnrecognized (p : Piece) : Bool := p.kind matches .unrecognized

end Piece

/-- The tokens of a script in their order. -/
def Lexeme.ofSource (source : String) : List Lexeme := (Scan.pieces source).filterMap Piece.lexeme?

/-- The pieces of a script that are no tokens and cannot be skipped. -/
def Scan.unrecognized (source : String) : List Piece := (pieces source).filter Piece.isUnrecognized

end TestProgram
