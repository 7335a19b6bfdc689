import TestProgram.Number.Literal
import TestProgram.Timing.Duration

/-!
# Wave formulas

The edges of a wave are given by formulas over the length of the period, such
as `period / 2 - 1`. A formula is read in two steps: its text is cut into
tokens (`Formula.scan`), and the tokens are read by recursive descent
(`Formula.ofTokens`) following

    expr  := term (('+' | '-') term)*
    term  := unary (('*' | '/') unary)*
    unary := '-' unary | atom
    atom  := number | name | '(' expr ')'

where a name is `period` or `period_in_ns`. Operators of one rank associate to
the left. `Formula.evaluate` computes the value for a given period.
-/

namespace TestProgram

/-- What a formula is made of. -/
inductive FormulaToken where
  | number (value : Float)
  | name (text : String)
  | plus | minus | star | slash | opening | closing
  deriving DecidableEq

/-- Why a formula has no value. -/
inductive FormulaFault where
  | unexpectedCharacter (c : Char)
  | unexpectedToken (token : FormulaToken)
  | unknownVariable (name : String)
  | unclosed
  | unexpectedEnd
  | trailingInput
  | notFinite
  deriving DecidableEq

/-- An arithmetic expression over the period. -/
inductive Formula where
  | number (value : Float)
  | period
  | negation (operand : Formula)
  | sum (left right : Formula)
  | difference (left right : Formula)
  | product (left right : Formula)
  | quotient (left right : Formula)
  deriving DecidableEq

namespace Formula

/-! ## Tokens -/

/-- Letters, digits and the underscore, which continue a name. -/
def isNamePart (c : Char) : Bool := c.isAlphanum || c == '_'

def isNameStart (c : Char) : Bool := c.isAlpha || c == '_'

/-- The length of an unsigned number with an optional exponent. -/
def numberLength (cs : List Char) : Nat :=
  let mantissa := Literal.mantissaLength cs
  mantissa + Literal.exponentLength (cs.drop mantissa)

/-- The token that starts with `c`, and how many characters of `cs` belong to
it. Spaces and tabs give no token. -/
def token (c : Char) (cs : List Char) : Except FormulaFault (Option FormulaToken × Nat) :=
  if c = ' ' ∨ c = '\t' then pure (none, 0)
  else if c.isDigit then
    let length := numberLength (c :: cs)
    pure (some (.number (Literal.decimal ((c :: cs).take length)).toFloat), length - 1)
  else if isNameStart c then
    pure (some (.name (String.ofList (c :: cs.takeWhile isNamePart))), (cs.takeWhile isNamePart).length)
  else if c = '+' then pure (some .plus, 0)
  else if c = '-' then pure (some .minus, 0)
  else if c = '*' then pure (some .star, 0)
  else if c = '/' then pure (some .slash, 0)
  else if c = '(' then pure (some .opening, 0)
  else if c = ')' then pure (some .closing, 0)
  else throw (.unexpectedCharacter c)

/-- The tokens of a text, each as long as possible. -/
def scan : List Char → Except FormulaFault (List FormulaToken)
  | [] => pure []
  | c :: cs => do
    let (token?, length) ← token c cs
    let tokens ← scan (cs.drop length)
    pure (token?.toList ++ tokens)
termination_by cs => cs.length
decreasing_by simp only [List.length_drop, List.length_cons]; omega

/-! ## Reading -/

mutual

def expr : Nat → List FormulaToken → Except FormulaFault (Formula × List FormulaToken)
  | 0, _ => throw .unexpectedEnd
  | fuel + 1, ts => do
    let (left, ts) ← term fuel ts
    sums fuel left ts

/-- Adds and subtracts further terms, from left to right. -/
def sums : Nat → Formula → List FormulaToken → Except FormulaFault (Formula × List FormulaToken)
  | 0, _, _ => throw .unexpectedEnd
  | fuel + 1, left, .plus :: ts => do
    let (right, ts) ← term fuel ts
    sums fuel (.sum left right) ts
  | fuel + 1, left, .minus :: ts => do
    let (right, ts) ← term fuel ts
    sums fuel (.difference left right) ts
  | _ + 1, left, ts => pure (left, ts)

def term : Nat → List FormulaToken → Except FormulaFault (Formula × List FormulaToken)
  | 0, _ => throw .unexpectedEnd
  | fuel + 1, ts => do
    let (left, ts) ← unary fuel ts
    products fuel left ts

/-- Multiplies and divides by further operands, from left to right. -/
def products : Nat → Formula → List FormulaToken → Except FormulaFault (Formula × List FormulaToken)
  | 0, _, _ => throw .unexpectedEnd
  | fuel + 1, left, .star :: ts => do
    let (right, ts) ← unary fuel ts
    products fuel (.product left right) ts
  | fuel + 1, left, .slash :: ts => do
    let (right, ts) ← unary fuel ts
    products fuel (.quotient left right) ts
  | _ + 1, left, ts => pure (left, ts)

def unary : Nat → List FormulaToken → Except FormulaFault (Formula × List FormulaToken)
  | 0, _ => throw .unexpectedEnd
  | fuel + 1, .minus :: ts => do
    let (operand, ts) ← unary fuel ts
    pure (.negation operand, ts)
  | fuel + 1, ts => atom fuel ts

def atom : Nat → List FormulaToken → Except FormulaFault (Formula × List FormulaToken)
  | 0, _ => throw .unexpectedEnd
  | _ + 1, .number value :: ts => pure (.number value, ts)
  | _ + 1, .name name :: ts =>
    if name = "period" ∨ name = "period_in_ns" then pure (.period, ts)
    else throw (.unknownVariable name)
  | fuel + 1, .opening :: ts => do
    match ← expr fuel ts with
    | (inner, .closing :: ts) => pure (inner, ts)
    | _ => throw .unclosed
  | _ + 1, token :: _ => throw (.unexpectedToken token)
  | _ + 1, [] => throw .unexpectedEnd

end

/-- The formula that a row of tokens spells. A call consumes a token after at
most four nested calls, which bounds the depth of the descent. -/
def ofTokens (ts : List FormulaToken) : Except FormulaFault Formula := do
  match ← expr (4 * ts.length + 6) ts with
  | (formula, []) => pure formula
  | _ => throw .trailingInput

/-! ## Values -/

/-- The value when the period is `period` nanoseconds long. -/
def value (period : Float) : Formula → Float
  | .number x => x
  | .period => period
  | .negation a => -value period a
  | .sum a b => value period a + value period b
  | .difference a b => value period a - value period b
  | .product a b => value period a * value period b
  | .quotient a b => value period a / value period b

/-- The value of a text for a period, which has to be finite. -/
def evaluate (text : String) (period : Duration) : Except FormulaFault Float := do
  let formula ← ofTokens (← scan text.toList)
  let result := formula.value period.nanoseconds
  if result.isFinite then pure result else throw .notFinite

end Formula

end TestProgram
