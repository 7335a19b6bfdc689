import TestProgram.Timing.Formula

/-!
# The grammar of wave formulas

A phrase is a row of tokens together with the way in which the grammar derives it. What is repeated in the grammar
is a row of its own, `SumsPhrase` after the first term of an expression and `ProductsPhrase` after the first operand
of a term:

    expr  := term (('+' | '-') term)*
    term  := unary (('*' | '/') unary)*
    unary := '-' unary | atom
    atom  := number | name | '(' expr ')'

The tokens of a phrase are its `tokens`, and its `value` is that of its operators, of one rank from left to right.
Nothing here depends on how formulas are read. Tokens have one derivation at most (`ExprPhrase.eq_of_tokens`): each
phrase ends where its tokens and the token after them say.
-/

namespace TestProgram.Formula

mutual

inductive ExprPhrase where
  | mk (first : TermPhrase) (more : SumsPhrase)

/-- The terms after the first one. -/
inductive SumsPhrase where
  | done
  | plus (right : TermPhrase) (more : SumsPhrase)
  | minus (right : TermPhrase) (more : SumsPhrase)

inductive TermPhrase where
  | mk (first : UnaryPhrase) (more : ProductsPhrase)

/-- The operands after the first one. -/
inductive ProductsPhrase where
  | done
  | star (right : UnaryPhrase) (more : ProductsPhrase)
  | slash (right : UnaryPhrase) (more : ProductsPhrase)

inductive UnaryPhrase where
  | minus (operand : UnaryPhrase)
  | atom (a : AtomPhrase)

inductive AtomPhrase where
  | number (x : Float)
  | name (text : String)
  | group (inner : ExprPhrase)

end

/-! ## Tokens -/

mutual

def ExprPhrase.tokens : ExprPhrase → List FormulaToken
  | .mk first more => first.tokens ++ more.tokens

def SumsPhrase.tokens : SumsPhrase → List FormulaToken
  | .done => []
  | .plus right more => .plus :: (right.tokens ++ more.tokens)
  | .minus right more => .minus :: (right.tokens ++ more.tokens)

def TermPhrase.tokens : TermPhrase → List FormulaToken
  | .mk first more => first.tokens ++ more.tokens

def ProductsPhrase.tokens : ProductsPhrase → List FormulaToken
  | .done => []
  | .star right more => .star :: (right.tokens ++ more.tokens)
  | .slash right more => .slash :: (right.tokens ++ more.tokens)

def UnaryPhrase.tokens : UnaryPhrase → List FormulaToken
  | .minus operand => .minus :: operand.tokens
  | .atom a => a.tokens

def AtomPhrase.tokens : AtomPhrase → List FormulaToken
  | .number x => [.number x]
  | .name text => [.name text]
  | .group inner => .opening :: (inner.tokens ++ [.closing])

end

/-! ## Values -/

section

variable (period : Float)

mutual

/-- The value when all names stand for the period. -/
def ExprPhrase.value : ExprPhrase → Float
  | .mk first more => more.value first.value

/-- The value after `left`. -/
def SumsPhrase.value (left : Float) : SumsPhrase → Float
  | .done => left
  | .plus right more => more.value (left + right.value)
  | .minus right more => more.value (left - right.value)

def TermPhrase.value : TermPhrase → Float
  | .mk first more => more.value first.value

/-- The value after `left`. -/
def ProductsPhrase.value (left : Float) : ProductsPhrase → Float
  | .done => left
  | .star right more => more.value (left * right.value)
  | .slash right more => more.value (left / right.value)

def UnaryPhrase.value : UnaryPhrase → Float
  | .minus operand => -operand.value
  | .atom a => a.value

def AtomPhrase.value : AtomPhrase → Float
  | .number x => x
  | .name _ => period
  | .group inner => inner.value

end

end

/-! ## Where phrases end -/

/-- No further operand of a term comes next. -/
def EndsTerm (rest : List FormulaToken) : Prop := ∀ t ∈ rest.head?, t ≠ .star ∧ t ≠ .slash

/-- No further operand of an expression comes next. -/
def EndsExpr (rest : List FormulaToken) : Prop :=
  ∀ t ∈ rest.head?, (t ≠ .star ∧ t ≠ .slash) ∧ t ≠ .plus ∧ t ≠ .minus

theorem EndsExpr.endsTerm {rest : List FormulaToken} (h : EndsExpr rest) : EndsTerm rest := fun t ht => (h t ht).1

section

variable {rest ts : List FormulaToken}

theorem EndsExpr.ne_plus (h : EndsExpr rest) : rest ≠ .plus :: ts := by
  rintro rfl
  exact (h _ rfl).2.1 rfl

theorem EndsExpr.ne_minus (h : EndsExpr rest) : rest ≠ .minus :: ts := by
  rintro rfl
  exact (h _ rfl).2.2 rfl

theorem EndsTerm.ne_star (h : EndsTerm rest) : rest ≠ .star :: ts := by
  rintro rfl
  exact (h _ rfl).1 rfl

theorem EndsTerm.ne_slash (h : EndsTerm rest) : rest ≠ .slash :: ts := by
  rintro rfl
  exact (h _ rfl).2 rfl

end

theorem endsExpr_nil : EndsExpr [] := nofun

theorem endsExpr_closing (rest : List FormulaToken) : EndsExpr (.closing :: rest) := by
  rintro t ⟨⟩
  exact ⟨⟨nofun, nofun⟩, nofun, nofun⟩

/-- A term ends where another one begins or the expression ends. -/
theorem SumsPhrase.endsTerm (s : SumsPhrase) {rest : List FormulaToken} (h : EndsExpr rest) :
    EndsTerm (s.tokens ++ rest) := by
  cases s with
  | done => exact h.endsTerm
  | plus _ _ | minus _ _ =>
    rintro t ⟨⟩
    exact ⟨nofun, nofun⟩

theorem AtomPhrase.exists_tokens (a : AtomPhrase) : ∃ t ts, a.tokens = t :: ts ∧ t ≠ .minus := by
  cases a with
  | number x => exact ⟨_, _, rfl, nofun⟩
  | name text => exact ⟨_, _, rfl, nofun⟩
  | group inner => exact ⟨_, _, rfl, nofun⟩

/-! ## One derivation at most -/

mutual

theorem ExprPhrase.eq_of_append : ∀ (e e' : ExprPhrase) {rest rest' : List FormulaToken}, EndsExpr rest →
    EndsExpr rest' → e.tokens ++ rest = e'.tokens ++ rest' → e = e' ∧ rest = rest'
  | .mk first more, .mk first' more', rest, rest', hrest, hrest', h => by
    rw [ExprPhrase.tokens, ExprPhrase.tokens, List.append_assoc, List.append_assoc] at h
    obtain ⟨rfl, hmore⟩ := first.eq_of_append first' (more.endsTerm hrest) (more'.endsTerm hrest') h
    obtain ⟨rfl, hend⟩ := more.eq_of_append more' hrest hrest' hmore
    exact ⟨rfl, hend⟩

theorem SumsPhrase.eq_of_append : ∀ (s s' : SumsPhrase) {rest rest' : List FormulaToken}, EndsExpr rest →
    EndsExpr rest' → s.tokens ++ rest = s'.tokens ++ rest' → s = s' ∧ rest = rest'
  | .done, .done, _, _, _, _, h => ⟨rfl, h⟩
  | .plus right more, .plus right' more', rest, rest', hrest, hrest', h
  | .minus right more, .minus right' more', rest, rest', hrest, hrest', h => by
    simp only [SumsPhrase.tokens, List.cons_append, List.append_assoc, List.cons.injEq, true_and] at h
    obtain ⟨rfl, hmore⟩ := right.eq_of_append right' (more.endsTerm hrest) (more'.endsTerm hrest') h
    obtain ⟨rfl, hend⟩ := more.eq_of_append more' hrest hrest' hmore
    exact ⟨rfl, hend⟩
  | .plus .., .minus .., _, _, _, _, h | .minus .., .plus .., _, _, _, _, h => nomatch (List.cons.inj h).1
  | .done, .plus .., _, _, hrest, _, h => absurd h hrest.ne_plus
  | .done, .minus .., _, _, hrest, _, h => absurd h hrest.ne_minus
  | .plus .., .done, _, _, _, hrest', h => absurd h.symm hrest'.ne_plus
  | .minus .., .done, _, _, _, hrest', h => absurd h.symm hrest'.ne_minus

theorem TermPhrase.eq_of_append : ∀ (t t' : TermPhrase) {rest rest' : List FormulaToken}, EndsTerm rest →
    EndsTerm rest' → t.tokens ++ rest = t'.tokens ++ rest' → t = t' ∧ rest = rest'
  | .mk first more, .mk first' more', rest, rest', hrest, hrest', h => by
    rw [TermPhrase.tokens, TermPhrase.tokens, List.append_assoc, List.append_assoc] at h
    obtain ⟨rfl, hmore⟩ := first.eq_of_append first' h
    obtain ⟨rfl, hend⟩ := more.eq_of_append more' hrest hrest' hmore
    exact ⟨rfl, hend⟩

theorem ProductsPhrase.eq_of_append : ∀ (p p' : ProductsPhrase) {rest rest' : List FormulaToken}, EndsTerm rest →
    EndsTerm rest' → p.tokens ++ rest = p'.tokens ++ rest' → p = p' ∧ rest = rest'
  | .done, .done, _, _, _, _, h => ⟨rfl, h⟩
  | .star right more, .star right' more', rest, rest', hrest, hrest', h
  | .slash right more, .slash right' more', rest, rest', hrest, hrest', h => by
    simp only [ProductsPhrase.tokens, List.cons_append, List.append_assoc, List.cons.injEq, true_and] at h
    obtain ⟨rfl, hmore⟩ := right.eq_of_append right' h
    obtain ⟨rfl, hend⟩ := more.eq_of_append more' hrest hrest' hmore
    exact ⟨rfl, hend⟩
  | .star .., .slash .., _, _, _, _, h | .slash .., .star .., _, _, _, _, h => nomatch (List.cons.inj h).1
  | .done, .star .., _, _, hrest, _, h => absurd h hrest.ne_star
  | .done, .slash .., _, _, hrest, _, h => absurd h hrest.ne_slash
  | .star .., .done, _, _, _, hrest', h => absurd h.symm hrest'.ne_star
  | .slash .., .done, _, _, _, hrest', h => absurd h.symm hrest'.ne_slash

theorem UnaryPhrase.eq_of_append : ∀ (u u' : UnaryPhrase) {rest rest' : List FormulaToken},
    u.tokens ++ rest = u'.tokens ++ rest' → u = u' ∧ rest = rest'
  | .minus operand, .minus operand', rest, rest', h => by
    obtain ⟨rfl, hend⟩ := operand.eq_of_append operand' (List.cons.inj h).2
    exact ⟨rfl, hend⟩
  | .atom a, .atom a', rest, rest', h => by
    obtain ⟨rfl, hend⟩ := a.eq_of_append a' h
    exact ⟨rfl, hend⟩
  | .minus operand, .atom a, rest, rest', h => by
    obtain ⟨t, ts, ha, ht⟩ := a.exists_tokens
    rw [UnaryPhrase.tokens, UnaryPhrase.tokens, ha] at h
    exact absurd (List.cons.inj h).1.symm ht
  | .atom a, .minus operand, rest, rest', h => by
    obtain ⟨t, ts, ha, ht⟩ := a.exists_tokens
    rw [UnaryPhrase.tokens, UnaryPhrase.tokens, ha] at h
    exact absurd (List.cons.inj h).1 ht

theorem AtomPhrase.eq_of_append : ∀ (a a' : AtomPhrase) {rest rest' : List FormulaToken},
    a.tokens ++ rest = a'.tokens ++ rest' → a = a' ∧ rest = rest'
  | .number x, .number x', _, _, h => by
    obtain ⟨hx, h⟩ := List.cons.inj h
    exact ⟨congrArg AtomPhrase.number (FormulaToken.number.inj hx), h⟩
  | .name text, .name text', _, _, h => by
    obtain ⟨htext, h⟩ := List.cons.inj h
    exact ⟨congrArg AtomPhrase.name (FormulaToken.name.inj htext), h⟩
  | .group inner, .group inner', rest, rest', h => by
    simp only [AtomPhrase.tokens, List.cons_append, List.append_assoc, List.cons.injEq, true_and] at h
    obtain ⟨rfl, hend⟩ := inner.eq_of_append inner' (endsExpr_closing rest) (endsExpr_closing rest') h
    exact ⟨rfl, (List.cons.inj hend).2⟩
  | .number _, .name _, _, _, h | .number _, .group _, _, _, h | .name _, .number _, _, _, h
  | .name _, .group _, _, _, h | .group _, .number _, _, _, h | .group _, .name _, _, _, h =>
    nomatch (List.cons.inj h).1

end

theorem ExprPhrase.eq_of_tokens {e e' : ExprPhrase} (h : e.tokens = e'.tokens) : e = e' :=
  (e.eq_of_append e' endsExpr_nil endsExpr_nil (by rw [h])).1

end TestProgram.Formula
