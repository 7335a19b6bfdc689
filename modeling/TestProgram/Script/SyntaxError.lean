import TestProgram.Script.Token

/-!
# Syntax errors

A script that cannot be read is refused at one token, or at its end. The
error names what was found there and everything that would have been
accepted.
-/

namespace TestProgram

/-- What a reader looks for at a place. -/
inductive Expectation where
  /-- A particular token. -/
  | token (t : Token)
  /-- A word that is no keyword. -/
  | name
  /-- A number, duration, frequency or string. -/
  | literal
  | endOfInput
  deriving DecidableEq

namespace Expectation

/-- All words. -/
def words : List Expectation := name :: Keyword.all.map fun k => token (.keyword k)

def separators : List Expectation := [token .newline, token .semicolon]

def text : Expectation → String
  | token t => "'" ++ t.label ++ "'"
  | name => "'<ident>'"
  | literal => "something else"
  | endOfInput => "end of input"

/-- Alternatives in running text. -/
def join : List String → String
  | [] => "something else"
  | [a] => a
  | [a, b] => a ++ " or " ++ b
  | alternatives => ", ".intercalate alternatives.dropLast ++ ", or " ++ alternatives.getLastD ""

end Expectation

structure SyntaxError where
  /-- The token at which reading stopped; none at the end of the script. -/
  found : Option Lexeme
  /-- All that would have been accepted, in the order it was tried. -/
  expected : List Expectation
  deriving DecidableEq

namespace SyntaxError

def message (e : SyntaxError) : String :=
  let found := match e.found with
    | some l => "'" ++ l.token.label ++ "'"
    | none => "end of input"
  "found " ++ found ++ " expected " ++ Expectation.join (e.expected.map Expectation.text)

/-- The place of the error in a script of `size` bytes. -/
def span (e : SyntaxError) (size : Nat) : Span :=
  match e.found with
  | some l => l.span
  | none => ⟨size, size⟩

end SyntaxError

end TestProgram
