import TestProgram.Script.Read

/-!
# The grammar of scripts

A phrase is a row of tokens together with the way in which the grammar derives it. What is optional
in the grammar is an option in a phrase, what is repeated is a list, and alternatives are a sum:

    script      := sep* (declaration (sep+ declaration)* sep*)?
    declaration := pins words | pattern word body | flow word body
                 | instance word args | patset word words
    words       := (word ','?)+
    args        := (arg ','?)*
    arg         := word ('=' value)? | literal
    value       := literal | word
    body        := '{' sep* (statement (sep+ statement)* sep*)? '}'
    statement   := word args body?

`Phrase.lexemes` are the tokens of a phrase, and `WordPhrase.word` to `ScriptPhrase.script` say what it
stands for. Nothing here depends on how scripts are read.
-/

namespace TestProgram

/-- What consists of tokens. -/
class Phrase (τ : Type) where
  /-- All tokens, in their order. -/
  lexemes : τ → List Lexeme

open Phrase (lexemes)

section

variable {σ τ : Type} [Phrase σ] [Phrase τ]

instance : Phrase (σ × τ) := ⟨fun p => lexemes p.1 ++ lexemes p.2⟩

instance : Phrase (σ ⊕ τ) := ⟨Sum.elim lexemes lexemes⟩

instance : Phrase (Option τ) := ⟨fun o => o.elim [] lexemes⟩

instance : Phrase (List τ) := ⟨List.flatMap lexemes⟩

end

/-- A token of a class, and what it means. -/
structure Leaf {α : Type} (fits : Token → Option α) where
  lexeme : Lexeme
  meaning : α
  fits_token : fits lexeme.token = some meaning

instance {α : Type} (fits : Token → Option α) : Phrase (Leaf fits) := ⟨fun leaf => [leaf.lexeme]⟩

/-- The end of the last of some tokens, or a place if there are none. -/
def stopAfter (stop : Nat) (ls : List Lexeme) : Nat := ls.foldl (fun _ l => l.span.stop) stop

/-- From the start of a token to the end of the last one of it and some others. -/
def extent (first : Lexeme) (ls : List Lexeme) : Span := ⟨first.span.start, stopAfter first.span.stop ls⟩

/-! ## Words, values and arguments -/

abbrev Sign (t : Token) := Leaf fun u => if u = t then some () else none

abbrev WordPhrase := Leaf Token.word?

def WordPhrase.word (w : WordPhrase) : Word := ⟨w.meaning, w.lexeme.span⟩

abbrev LiteralPhrase := Leaf Reader.literalOf

def LiteralPhrase.value (l : LiteralPhrase) : Value := l.meaning l.lexeme.span

abbrev ValuePhrase := LiteralPhrase ⊕ WordPhrase

def ValuePhrase.value : ValuePhrase → Value
  | .inl l => LiteralPhrase.value l
  | .inr w => .word (WordPhrase.word w)

abbrev ArgumentPhrase := (WordPhrase × Option (Sign .equals × ValuePhrase)) ⊕ LiteralPhrase

def ArgumentPhrase.argument : ArgumentPhrase → Argument
  | .inl (key, some (_, v)) => .named (WordPhrase.word key) (ValuePhrase.value v)
  | .inl (w, none) => .plain (.word (WordPhrase.word w))
  | .inr l => .plain (LiteralPhrase.value l)

/-- An entry of a list and the comma that may follow it. -/
abbrev Listed (τ : Type) := τ × Option (Sign .comma)

abbrev WordsPhrase := Listed WordPhrase × List (Listed WordPhrase)

def WordsPhrase.words (p : WordsPhrase) : List Word := (p.1 :: p.2).map fun w => WordPhrase.word w.1

abbrev ArgumentsPhrase := List (Listed ArgumentPhrase)

def ArgumentsPhrase.arguments (p : ArgumentsPhrase) : List Argument := p.map fun a => ArgumentPhrase.argument a.1

/-! ## Rows -/

abbrev Separator := Leaf fun t => if t.isSeparator then some () else none

/-- What stands between two items of a row. -/
abbrev Gap := Separator × List Separator

/-- At least one item. -/
structure Row (τ : Type) where
  first : τ
  more : List (Gap × τ)
  after : List Separator

/-- Items with separators before, between and after them. -/
structure Separated (τ : Type) where
  before : List Separator
  row : Option (Row τ)

structure Block (τ : Type) where
  opening : Sign .opening
  contents : Separated τ
  closing : Sign .closing

section

variable {τ : Type}

def Row.items (r : Row τ) : List τ := r.first :: r.more.map Prod.snd

def Separated.items (s : Separated τ) : List τ := s.row.elim [] Row.items

variable [Phrase τ]

instance : Phrase (Row τ) := ⟨fun r => lexemes (r.first, r.more, r.after)⟩

instance : Phrase (Separated τ) := ⟨fun s => lexemes (s.before, s.row)⟩

instance : Phrase (Block τ) := ⟨fun b => lexemes (b.opening, b.contents, b.closing)⟩

end

/-! ## Statements -/

inductive StatementPhrase where
  | mk (head : WordPhrase) (args : ArgumentsPhrase) (body : Option (Block StatementPhrase))

namespace StatementPhrase

-- The tokens and the meaning of a body are spelled out by cases, for the recursion to be on its
-- statements. They are those of any block (`lexemes_mk`, `statement_mk`).
mutual

def tokens : StatementPhrase → List Lexeme
  | mk head args body => lexemes head ++ (lexemes args ++ bodyTokens body)

def bodyTokens : Option (Block StatementPhrase) → List Lexeme
  | none => []
  | some ⟨opening, ⟨before, row⟩, closing⟩ =>
    lexemes opening ++ ((lexemes before ++ rowTokens row) ++ lexemes closing)

def rowTokens : Option (Row StatementPhrase) → List Lexeme
  | none => []
  | some ⟨first, more, after⟩ => first.tokens ++ (moreTokens more ++ lexemes after)

def moreTokens : List (Gap × StatementPhrase) → List Lexeme
  | [] => []
  | (gap, s) :: more => (lexemes gap ++ s.tokens) ++ moreTokens more

end

instance : Phrase StatementPhrase := ⟨tokens⟩

mutual

def statement : StatementPhrase → Statement
  | mk head args body =>
    .mk (WordPhrase.word head) (ArgumentsPhrase.arguments args) (bodyStatements body)
      (extent head.lexeme (lexemes (args, body)))

def bodyStatements : Option (Block StatementPhrase) → Option (List Statement)
  | none => none
  | some ⟨_, ⟨_, row⟩, _⟩ => some (rowStatements row)

def rowStatements : Option (Row StatementPhrase) → List Statement
  | none => []
  | some ⟨first, more, _⟩ => first.statement :: moreStatements more

def moreStatements : List (Gap × StatementPhrase) → List Statement
  | [] => []
  | (_, s) :: more => s.statement :: moreStatements more

end

theorem moreTokens_eq : ∀ more : List (Gap × StatementPhrase), moreTokens more = lexemes more
  | [] => by rw [moreTokens]; rfl
  | (gap, s) :: more => by rw [moreTokens, moreTokens_eq more]; rfl

theorem moreStatements_eq : ∀ more : List (Gap × StatementPhrase),
    moreStatements more = (more.map Prod.snd).map statement
  | [] => by rw [moreStatements]; rfl
  | (gap, s) :: more => by rw [moreStatements, moreStatements_eq more]; rfl

/-- A statement is a head, arguments and a body. -/
theorem lexemes_mk (head : WordPhrase) (args : ArgumentsPhrase) (body : Option (Block StatementPhrase)) :
    lexemes (mk head args body) = lexemes (head, args, body) := by
  show tokens _ = _
  rcases body with _ | ⟨opening, ⟨before, _ | ⟨first, more, after⟩⟩, closing⟩
  · simp only [tokens, bodyTokens]
    rfl
  · simp only [tokens, bodyTokens, rowTokens]
    rfl
  · simp only [tokens, bodyTokens, rowTokens, moreTokens_eq]
    rfl

theorem statement_mk (head : WordPhrase) (args : ArgumentsPhrase) (body : Option (Block StatementPhrase)) :
    (mk head args body).statement =
      .mk (WordPhrase.word head) (ArgumentsPhrase.arguments args)
        (body.map fun b => b.contents.items.map statement) (extent head.lexeme (lexemes (args, body))) := by
  rw [statement]
  rcases body with _ | ⟨opening, ⟨before, _ | ⟨first, more, after⟩⟩, closing⟩
  · simp only [bodyStatements]
    rfl
  · simp only [bodyStatements, rowStatements]
    rfl
  · simp only [bodyStatements, rowStatements, moreStatements_eq]
    rfl

end StatementPhrase

/-- The statements of a body. -/
def Block.statements (b : Block StatementPhrase) : List Statement := b.contents.items.map StatementPhrase.statement

/-! ## Scripts -/

/-- What follows the keyword of a declaration. -/
def DeclaredPhrase : Keyword → Type
  | .pins => WordsPhrase
  | .pattern => WordPhrase × Block StatementPhrase
  | .flow => WordPhrase × Block StatementPhrase
  | .instances => WordPhrase × ArgumentsPhrase
  | .patset => WordPhrase × WordsPhrase

instance : (k : Keyword) → Phrase (DeclaredPhrase k)
  | .pins => inferInstanceAs (Phrase WordsPhrase)
  | .pattern => inferInstanceAs (Phrase (WordPhrase × Block StatementPhrase))
  | .flow => inferInstanceAs (Phrase (WordPhrase × Block StatementPhrase))
  | .instances => inferInstanceAs (Phrase (WordPhrase × ArgumentsPhrase))
  | .patset => inferInstanceAs (Phrase (WordPhrase × WordsPhrase))

def DeclaredPhrase.declared : (k : Keyword) → DeclaredPhrase k → Declared
  | .pins, names => .pins (WordsPhrase.words names)
  | .pattern, (name, body) => .pattern (WordPhrase.word name) body.statements
  | .flow, (name, body) => .flow (WordPhrase.word name) body.statements
  | .instances, (name, args) => .testInstance (WordPhrase.word name) (ArgumentsPhrase.arguments args)
  | .patset, (name, patterns) => .patternSet (WordPhrase.word name) (WordsPhrase.words patterns)

structure DeclarationPhrase where
  keyword : Leaf Reader.keyword?
  content : DeclaredPhrase keyword.meaning

instance : Phrase DeclarationPhrase := ⟨fun d => lexemes d.keyword ++ lexemes d.content⟩

def DeclarationPhrase.declaration (d : DeclarationPhrase) : Declaration :=
  ⟨d.content.declared, extent d.keyword.lexeme (lexemes d.content)⟩

abbrev ScriptPhrase := Separated DeclarationPhrase

/-- The script of a phrase in a text of `size` bytes. A script without tokens stands at the end. -/
def ScriptPhrase.script (size : Nat) (p : ScriptPhrase) : Script where
  declarations := p.items.map DeclarationPhrase.declaration
  span := match lexemes p with
    | [] => ⟨size, size⟩
    | l :: ls => extent l ls

end TestProgram
