import TestProgram.Diagnostic
import TestProgram.Script.Scan
import TestProgram.Script.Tree

/-!
# Reading scripts

The form of scripts, as readers on a row of tokens:

    script      := sep* (declaration (sep+ declaration)* sep*)?
    declaration := pins words | pattern word body | flow word body
                 | instance word args | patset word words
    words       := (word ','?)+
    args        := (arg ','?)*
    arg         := word ('=' value)? | literal
    value       := literal | word
    body        := '{' sep* (statement (sep+ statement)* sep*)? '}'
    statement   := word args body?

where `sep` is a newline or a semicolon. One token decides how to go on, so a
reader never goes back. It takes note of everything it looks for in vain at
the present place; that is what a syntax error there lists as expected.
-/

namespace TestProgram

/-- A place between the tokens of a script. -/
structure Cursor where
  rest : List Lexeme
  /-- The end of the last token before this place. -/
  stop : Nat
  /-- What has been looked for in vain at this place. -/
  tried : List Expectation
  deriving DecidableEq

namespace Cursor

/-- The place behind a token. -/
def past (l : Lexeme) (rest : List Lexeme) : Cursor := ⟨rest, l.span.stop, []⟩

/-- Adds to what has been looked for in vain. -/
def note (c : Cursor) (es : List Expectation) : Cursor :=
  { c with tried := c.tried ++ es.filter fun e => !c.tried.contains e }

end Cursor

/-- Reads something and moves on, or finds an error. -/
abbrev Reader := StateT Cursor (Except SyntaxError)

namespace Reader

/-- Takes the next token if it fits. `es` is what was looked for. -/
def take? (es : List Expectation) (fits : Token → Option α) : Reader (Option (α × Span)) := fun c =>
  match c.rest with
  | [] => .ok (none, c.note es)
  | l :: rest =>
    match fits l.token with
    | some a => .ok (some (a, l.span), .past l rest)
    | none => .ok (none, c.note es)

/-- Gives up here. -/
def fail : Reader α := fun c => .error ⟨c.rest.head?, c.tried⟩

def orFail : Option α → Reader α
  | some a => pure a
  | none => fail

/-- Takes one particular token if it comes next. -/
def sign (t : Token) : Reader Bool := do
  let found ← take? [.token t] fun u => if u = t then some () else none
  pure found.isSome

def require (t : Token) : Reader Unit := do
  if ← sign t then pure () else fail

/-- Takes all separators that come next; whether there were any. -/
def separators : Reader Bool := fun c =>
  match c.rest.takeWhile fun l => l.token.isSeparator with
  | [] => .ok (false, c.note Expectation.separators)
  | l :: ls =>
    let c' := Cursor.past (ls.getLastD l) (c.rest.dropWhile fun l => l.token.isSeparator)
    .ok (true, c'.note Expectation.separators)

/-- Reads items as long as there are any, but at most `n`. -/
def manyUpTo (item : Reader (Option α)) : Nat → Reader (List α)
  | 0 => pure []
  | n + 1 => do
    match ← item with
    | none => pure []
    | some a => do
      let as ← manyUpTo item n
      pure (a :: as)

/-- Reads items as long as there are any. Every item takes a token, which
bounds their number. -/
def many (item : Reader (Option α)) : Reader (List α) := fun c =>
  manyUpTo item (c.rest.length + 1) c

/-- Reads items with separators between them, but at most `n`. -/
def separatedUpTo (item : Reader (Option α)) : Nat → Reader (List α)
  | 0 => pure []
  | n + 1 => do
    match ← item with
    | none => pure []
    | some a => do
      if ← separators then
        let as ← separatedUpTo item n
        pure (a :: as)
      else pure [a]

/-- Reads items with separators before, between and after them. -/
def separated (item : Reader (Option α)) : Reader (List α) := do
  let _ ← separators
  let c ← get
  separatedUpTo item (c.rest.length + 1)

/-! ## Words and values -/

def word? : Reader (Option Word) := do
  let found ← take? Expectation.words Token.word?
  pure (found.map fun w => ⟨w.1, w.2⟩)

def word : Reader Word := do orFail (← word?)

/-- The value that a token stands for on its own. -/
def literalOf : Token → Option (Span → Value)
  | .number x => some (.number x)
  | .duration d => some (.duration d)
  | .frequency f => some (.frequency f)
  | .text s => some (.text s)
  | _ => none

def literal? : Reader (Option Value) := do
  let found ← take? [.literal] literalOf
  pure (found.map fun v => v.1 v.2)

def value : Reader Value := do
  match ← literal? with
  | some v => pure v
  | none => do
    let w ← word
    pure (.word w)

/-- A word as an entry of a list. -/
def listed? : Reader (Option Word) := do
  match ← word? with
  | none => pure none
  | some w => do
    let _ ← sign .comma
    pure (some w)

def words : Reader (List Word) := do
  let first ← orFail (← listed?)
  let more ← many listed?
  pure (first :: more)

def argument? : Reader (Option Argument) := do
  match ← word? with
  | some key => do
    if ← sign .equals then
      let v ← value
      pure (some (.named key v))
    else pure (some (.plain (.word key)))
  | none => do
    let v ← literal?
    pure (v.map .plain)

/-- An argument as an entry of a list. -/
def listedArgument? : Reader (Option Argument) := do
  match ← argument? with
  | none => pure none
  | some a => do
    let _ ← sign .comma
    pure (some a)

def args : Reader (List Argument) := many listedArgument?

/-! ## Statements -/

/-- The rest of a body whose opening brace has been taken. -/
def inside (statement? : Reader (Option Statement)) : Reader (List Statement) := do
  let body ← separated statement?
  require .closing
  pure body

def block? (statement? : Reader (Option Statement)) : Reader (Option (List Statement)) := do
  if ← sign .opening then
    let body ← inside statement?
    pure (some body)
  else pure none

/-- A statement with at most `depth` levels of blocks. -/
def statement? : (depth : Nat) → Reader (Option Statement)
  | 0 => pure none
  | depth + 1 => do
    match ← word? with
    | none => pure none
    | some head => do
      let args ← args
      let block ← block? (statement? depth)
      let c ← get
      pure (some (.mk head args block ⟨head.span.start, c.stop⟩))

/-- Every level of blocks takes a token, which bounds the depth. -/
def body : Reader (List Statement) := do
  require .opening
  let c ← get
  inside (statement? (c.rest.length + 1))

/-! ## Declarations -/

def keyword? : Token → Option Keyword
  | .keyword k => some k
  | _ => none

/-- What follows the keyword of a declaration. -/
def declared : Keyword → Reader Declared
  | .pins => do
    let names ← words
    pure (.pins names)
  | .pattern => do
    let name ← word
    let body ← body
    pure (.pattern name body)
  | .flow => do
    let name ← word
    let body ← body
    pure (.flow name body)
  | .instances => do
    let name ← word
    let args ← args
    pure (.testInstance name args)
  | .patset => do
    let name ← word
    let patterns ← words
    pure (.patternSet name patterns)

def declaration? : Reader (Option Declaration) := do
  match ← take? (Keyword.all.map fun k => .token (.keyword k)) keyword? with
  | none => pure none
  | some (k, span) => do
    let content ← declared k
    let c ← get
    pure (some ⟨content, ⟨span.start, c.stop⟩⟩)

def finish : Reader Unit := fun c =>
  match c.rest with
  | [] => .ok ((), c)
  | _ => fail (c.note [.endOfInput])

def declarations : Reader (List Declaration) := do
  let ds ← separated declaration?
  finish
  pure ds

end Reader

namespace Script

/-- The script that a row of tokens spells in a text of `size` bytes. -/
def ofLexemes (size : Nat) (ls : List Lexeme) : Except SyntaxError Script := do
  let (ds, c) ← Reader.declarations ⟨ls, size, []⟩
  let start := match ls with
    | [] => size
    | l :: _ => l.span.start
  pure ⟨ds, ⟨start, c.stop⟩⟩

/-- Reads the tokens of a text, whether there are bad characters between them
or not. -/
def ofTokens (source : String) : Except SyntaxError Script :=
  ofLexemes source.utf8ByteSize (Lexeme.ofSource source)

/-- What is wrong with the form of a text: bad characters first, and then the
syntax error if there is one. -/
def complaints (source : String) : List Diagnostic :=
  (Scan.unrecognized source).map (fun p => ⟨.unrecognized p.text, some p.span⟩)
    ++ match ofTokens source with
      | .ok _ => []
      | .error e => [⟨.grammar e, some (e.span source.utf8ByteSize)⟩]

/-- The script that a text spells, or what is wrong with it. -/
def ofSource (source : String) : Except (List Diagnostic) Script :=
  match complaints source, ofTokens source with
  | [], .ok script => .ok script
  | complaints, _ => .error complaints

end Script

end TestProgram
