import TestProgram.Script.Token

/-!
# Scripts

A script is a list of declarations. The bodies of patterns and flows are
lists of statements: a word, arguments, and sometimes a block of further
statements. Which statements there are is not a matter of form; a body says
only how it is written. Every part knows its place in the text.
-/

namespace TestProgram

structure Word where
  text : String
  span : Span
  deriving DecidableEq

/-- A word, or a value written out. -/
inductive Value where
  | word (w : Word)
  | number (x : Float) (span : Span)
  | duration (d : Duration) (span : Span)
  | frequency (f : Frequency) (span : Span)
  | text (s : String) (span : Span)
  deriving DecidableEq

namespace Value

def span : Value → Span
  | word w => w.span
  | number _ s | duration _ s | frequency _ s | text _ s => s

/-- The value as the contents of a cell. -/
def cell : Value → String
  | word w => w.text
  | number x _ => Layout.plain.text x
  | duration d _ => d.text
  | frequency f _ => f.text
  | text s _ => s

end Value

inductive Argument where
  | plain (v : Value)
  /-- An argument of the form `key=value`. -/
  | named (key : Word) (v : Value)
  deriving DecidableEq

namespace Argument

def span : Argument → Span
  | plain v => v.span
  | named key v => key.span.through v.span

def cell : Argument → String
  | plain v => v.cell
  | named key v => key.text ++ "=" ++ v.cell

def plain? : Argument → Option Value
  | plain v => some v
  | named .. => none

def named? : Argument → Option (Word × Value)
  | plain _ => none
  | named key v => some (key, v)

end Argument

inductive Statement where
  | mk (head : Word) (args : List Argument) (block : Option (List Statement)) (span : Span)

namespace Statement

def head : Statement → Word
  | mk head _ _ _ => head

def args : Statement → List Argument
  | mk _ args _ _ => args

def block : Statement → Option (List Statement)
  | mk _ _ block _ => block

def span : Statement → Span
  | mk _ _ _ span => span

def name (s : Statement) : String := s.head.text

/-- The arguments without a key. -/
def values (s : Statement) : List Value := s.args.filterMap Argument.plain?

/-- The arguments with a key. -/
def pairs (s : Statement) : List (Word × Value) := s.args.filterMap Argument.named?

/-- The value of the first argument with a given key. -/
def pair? (s : Statement) (key : String) : Option Value :=
  (s.pairs.find? fun p => p.1.text == key).map Prod.snd

end Statement

/-- What a declaration declares. -/
inductive Declared where
  | pins (names : List Word)
  | pattern (name : Word) (body : List Statement)
  | flow (name : Word) (body : List Statement)
  | testInstance (name : Word) (args : List Argument)
  | patternSet (name : Word) (patterns : List Word)

structure Declaration where
  content : Declared
  span : Span

structure Script where
  declarations : List Declaration
  span : Span

end TestProgram
