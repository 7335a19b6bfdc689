import TestProgram.Script.Span
import TestProgram.Timing.Frequency

/-!
# Tokens

The words and signs that scripts are made of. Declarations begin with one of
five keywords; in all other places a keyword is a word like any other
(`Token.word?`).
-/

namespace TestProgram

/-- The words that begin a declaration. -/
inductive Keyword where
  | pins
  | pattern
  | flow
  | instances
  | patset
  deriving DecidableEq, Repr

namespace Keyword

def text : Keyword → String
  | pins => "pins"
  | pattern => "pattern"
  | flow => "flow"
  | instances => "instance"
  | patset => "patset"

def all : List Keyword := [pins, pattern, flow, instances, patset]

theorem mem_all (k : Keyword) : k ∈ all := by cases k <;> decide

def ofText? (s : String) : Option Keyword := all.find? fun k => k.text == s

end Keyword

inductive Token where
  | keyword (k : Keyword)
  /-- A word that is no keyword. -/
  | name (text : String)
  | number (x : Float)
  | duration (d : Duration)
  | frequency (f : Frequency)
  | text (s : String)
  | opening
  | closing
  | comma
  | equals
  | semicolon
  /-- One or more line ends. -/
  | newline
  deriving DecidableEq

namespace Token

/-- The token of a word. -/
def ofWord (s : String) : Token :=
  match Keyword.ofText? s with
  | some k => keyword k
  | none => name s

/-- The text of a word. -/
def word? : Token → Option String
  | keyword k => some k.text
  | name s => some s
  | _ => none

theorem word?_ofWord (s : String) : (ofWord s).word? = some s := by
  unfold ofWord
  split
  · rename_i k h
    have := List.find?_some h
    simp only [beq_iff_eq] at this
    rw [word?, this]
  · rfl

/-- Whether statements and declarations end here. -/
def isSeparator : Token → Bool
  | newline | semicolon => true
  | _ => false

/-- How messages name the token. -/
def label : Token → String
  | keyword k => k.text
  | name _ => "<ident>"
  | number x => Layout.plain.text x
  | duration d => d.text
  | frequency f => Layout.plain.text f.hertz ++ "Hz"
  | text s => "\"" ++ s ++ "\""
  | opening => "\x7b"
  | closing => "\x7d"
  | comma => ","
  | equals => "="
  | semicolon => ";"
  | newline => "<newline>"

end Token

/-- A token and where it stands. -/
structure Lexeme where
  token : Token
  span : Span
  deriving DecidableEq

end TestProgram
