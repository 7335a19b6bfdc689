import TestProgram.Fault
import TestProgram.Proofs.Timing.FormulaGrammar

/-!
# Reading wave formulas

The descent of `Formula.ofTokens` takes phrases of the grammar: what one of its functions takes is a phrase, and its
answer is the formula that the phrase stands for (`Sound`, by induction on the depth of the descent). Conversely each
function takes every phrase that comes next, if its names are known and what follows it cannot go on with it, and
the bound on the depth is not reached (`ExprPhrase.expr_append`, by induction on the phrase). So the formulas with a
value are the texts with a derivation that has a finite one (`evaluate_eq_ok_iff`).
-/

namespace TestProgram.Formula

/-! ## What phrases stand for -/

mutual

/-- The formula that a phrase stands for. All names stand for the period. -/
def ExprPhrase.formula : ExprPhrase → Formula
  | .mk first more => more.formula first.formula

def SumsPhrase.formula (left : Formula) : SumsPhrase → Formula
  | .done => left
  | .plus right more => more.formula (.sum left right.formula)
  | .minus right more => more.formula (.difference left right.formula)

def TermPhrase.formula : TermPhrase → Formula
  | .mk first more => more.formula first.formula

def ProductsPhrase.formula (left : Formula) : ProductsPhrase → Formula
  | .done => left
  | .star right more => more.formula (.product left right.formula)
  | .slash right more => more.formula (.quotient left right.formula)

def UnaryPhrase.formula : UnaryPhrase → Formula
  | .minus operand => .negation operand.formula
  | .atom a => a.formula

def AtomPhrase.formula : AtomPhrase → Formula
  | .number x => .number x
  | .name _ => .period
  | .group inner => inner.formula

end

section

variable (period : Float)

mutual

theorem ExprPhrase.value_formula : ∀ e : ExprPhrase, e.formula.value period = e.value period
  | .mk first more => by
    rw [ExprPhrase.formula, more.value_formula, first.value_formula, ExprPhrase.value]

theorem SumsPhrase.value_formula : ∀ (s : SumsPhrase) (left : Formula),
    (s.formula left).value period = s.value period (left.value period)
  | .done, left => rfl
  | .plus right more, left | .minus right more, left => by
    rw [SumsPhrase.formula, more.value_formula, Formula.value, right.value_formula, SumsPhrase.value]

theorem TermPhrase.value_formula : ∀ t : TermPhrase, t.formula.value period = t.value period
  | .mk first more => by
    rw [TermPhrase.formula, more.value_formula, first.value_formula, TermPhrase.value]

theorem ProductsPhrase.value_formula : ∀ (p : ProductsPhrase) (left : Formula),
    (p.formula left).value period = p.value period (left.value period)
  | .done, left => rfl
  | .star right more, left | .slash right more, left => by
    rw [ProductsPhrase.formula, more.value_formula, Formula.value, right.value_formula, ProductsPhrase.value]

theorem UnaryPhrase.value_formula : ∀ u : UnaryPhrase, u.formula.value period = u.value period
  | .minus operand => by
    rw [UnaryPhrase.formula, Formula.value, operand.value_formula, UnaryPhrase.value]
  | .atom a => by
    rw [UnaryPhrase.formula, a.value_formula, UnaryPhrase.value]

theorem AtomPhrase.value_formula : ∀ a : AtomPhrase, a.formula.value period = a.value period
  | .number _ | .name _ => rfl
  | .group inner => by
    rw [AtomPhrase.formula, inner.value_formula, AtomPhrase.value]

end

end

/-! ## Names -/

/-- All names are those of the period. -/
def Known (ts : List FormulaToken) : Prop :=
  ∀ name, .name name ∈ ts → name = "period" ∨ name = "period_in_ns"

theorem known_nil : Known [] := nofun

theorem known_append {ts us : List FormulaToken} : Known (ts ++ us) ↔ Known ts ∧ Known us := by
  simp only [Known, List.mem_append, or_imp, forall_and]

theorem known_cons {t : FormulaToken} {ts : List FormulaToken} : Known (t :: ts) ↔ Known [t] ∧ Known ts := by
  rw [← known_append, List.singleton_append]

theorem known_singleton {t : FormulaToken} (h : ∀ name, t ≠ .name name) : Known [t] :=
  fun name hname => absurd (List.mem_singleton.mp hname).symm (h name)

theorem known_name {name : String} : Known [.name name] ↔ name = "period" ∨ name = "period_in_ns" := by
  simp only [Known, List.mem_singleton, FormulaToken.name.injEq, forall_eq]

/-! ## What is taken is a phrase -/

/-- Of the tokens `ts` the ones before `rest` are those of a phrase, with known names. -/
structure Taken (tokens ts rest : List FormulaToken) : Prop where
  split : ts = tokens ++ rest
  known : Known tokens

namespace Taken

variable {tokens tokens' ts rest rest' : List FormulaToken}

theorem nil : Taken [] ts ts := ⟨rfl, known_nil⟩

theorem append (h : Taken tokens ts rest) (h' : Taken tokens' rest rest') : Taken (tokens ++ tokens') ts rest' :=
  ⟨by rw [h.split, h'.split, List.append_assoc], known_append.mpr ⟨h.known, h'.known⟩⟩

theorem cons {t : FormulaToken} (ht : Known [t]) (h : Taken tokens ts rest) : Taken (t :: tokens) (t :: ts) rest :=
  ⟨by rw [h.split, List.cons_append], known_cons.mpr ⟨ht, h.known⟩⟩

end Taken

/-- What each function takes at a depth of the descent, and what it makes of it. -/
structure Sound (fuel : Nat) : Prop where
  expr : ∀ {ts f rest}, expr fuel ts = .ok (f, rest) → ∃ e : ExprPhrase, Taken e.tokens ts rest ∧ e.formula = f
  sums : ∀ {left ts f rest}, sums fuel left ts = .ok (f, rest) →
    ∃ s : SumsPhrase, Taken s.tokens ts rest ∧ s.formula left = f
  term : ∀ {ts f rest}, term fuel ts = .ok (f, rest) → ∃ t : TermPhrase, Taken t.tokens ts rest ∧ t.formula = f
  products : ∀ {left ts f rest}, products fuel left ts = .ok (f, rest) →
    ∃ p : ProductsPhrase, Taken p.tokens ts rest ∧ p.formula left = f
  unary : ∀ {ts f rest}, unary fuel ts = .ok (f, rest) → ∃ u : UnaryPhrase, Taken u.tokens ts rest ∧ u.formula = f
  atom : ∀ {ts f rest}, atom fuel ts = .ok (f, rest) → ∃ a : AtomPhrase, Taken a.tokens ts rest ∧ a.formula = f

section

variable {fuel : Nat} (h : Sound fuel) {left f : Formula} {ts rest : List FormulaToken}

include h

theorem sound_expr (hok : expr (fuel + 1) ts = .ok (f, rest)) :
    ∃ e : ExprPhrase, Taken e.tokens ts rest ∧ e.formula = f := by
  obtain ⟨⟨left, ts₁⟩, hterm, hsums⟩ := bind_eq_ok.mp hok
  obtain ⟨first, hfirst, rfl⟩ := h.term hterm
  obtain ⟨more, hmore, rfl⟩ := h.sums hsums
  exact ⟨.mk first more, hfirst.append hmore, rfl⟩

theorem sound_sums (hok : sums (fuel + 1) left ts = .ok (f, rest)) :
    ∃ s : SumsPhrase, Taken s.tokens ts rest ∧ s.formula left = f := by
  unfold sums at hok
  split at hok
  · cases ‹fuel + 1 = 0›
  · obtain rfl := Nat.succ.inj ‹fuel + 1 = _ + 1›
    obtain ⟨⟨g, ts₁⟩, hterm, hsums⟩ := bind_eq_ok.mp hok
    obtain ⟨right, hright, rfl⟩ := h.term hterm
    obtain ⟨more, hmore, rfl⟩ := h.sums hsums
    exact ⟨.plus right more, (hright.append hmore).cons (known_singleton nofun), rfl⟩
  · obtain rfl := Nat.succ.inj ‹fuel + 1 = _ + 1›
    obtain ⟨⟨g, ts₁⟩, hterm, hsums⟩ := bind_eq_ok.mp hok
    obtain ⟨right, hright, rfl⟩ := h.term hterm
    obtain ⟨more, hmore, rfl⟩ := h.sums hsums
    exact ⟨.minus right more, (hright.append hmore).cons (known_singleton nofun), rfl⟩
  · obtain ⟨rfl, rfl⟩ := Prod.mk.inj (Except.ok.inj hok)
    exact ⟨.done, .nil, rfl⟩

theorem sound_term (hok : term (fuel + 1) ts = .ok (f, rest)) :
    ∃ t : TermPhrase, Taken t.tokens ts rest ∧ t.formula = f := by
  obtain ⟨⟨left, ts₁⟩, hunary, hproducts⟩ := bind_eq_ok.mp hok
  obtain ⟨first, hfirst, rfl⟩ := h.unary hunary
  obtain ⟨more, hmore, rfl⟩ := h.products hproducts
  exact ⟨.mk first more, hfirst.append hmore, rfl⟩

theorem sound_products (hok : products (fuel + 1) left ts = .ok (f, rest)) :
    ∃ p : ProductsPhrase, Taken p.tokens ts rest ∧ p.formula left = f := by
  unfold products at hok
  split at hok
  · cases ‹fuel + 1 = 0›
  · obtain rfl := Nat.succ.inj ‹fuel + 1 = _ + 1›
    obtain ⟨⟨g, ts₁⟩, hunary, hproducts⟩ := bind_eq_ok.mp hok
    obtain ⟨right, hright, rfl⟩ := h.unary hunary
    obtain ⟨more, hmore, rfl⟩ := h.products hproducts
    exact ⟨.star right more, (hright.append hmore).cons (known_singleton nofun), rfl⟩
  · obtain rfl := Nat.succ.inj ‹fuel + 1 = _ + 1›
    obtain ⟨⟨g, ts₁⟩, hunary, hproducts⟩ := bind_eq_ok.mp hok
    obtain ⟨right, hright, rfl⟩ := h.unary hunary
    obtain ⟨more, hmore, rfl⟩ := h.products hproducts
    exact ⟨.slash right more, (hright.append hmore).cons (known_singleton nofun), rfl⟩
  · obtain ⟨rfl, rfl⟩ := Prod.mk.inj (Except.ok.inj hok)
    exact ⟨.done, .nil, rfl⟩

theorem sound_unary (hok : unary (fuel + 1) ts = .ok (f, rest)) :
    ∃ u : UnaryPhrase, Taken u.tokens ts rest ∧ u.formula = f := by
  unfold unary at hok
  split at hok
  · cases ‹fuel + 1 = 0›
  · obtain rfl := Nat.succ.inj ‹fuel + 1 = _ + 1›
    obtain ⟨⟨g, ts₁⟩, hunary, hpure⟩ := bind_eq_ok.mp hok
    obtain ⟨rfl, rfl⟩ := Prod.mk.inj (Except.ok.inj hpure)
    obtain ⟨operand, hoperand, rfl⟩ := h.unary hunary
    exact ⟨.minus operand, hoperand.cons (known_singleton nofun), rfl⟩
  · obtain rfl := Nat.succ.inj ‹fuel + 1 = _ + 1›
    obtain ⟨a, ha, rfl⟩ := h.atom hok
    exact ⟨.atom a, ha, rfl⟩

theorem sound_atom (hok : atom (fuel + 1) ts = .ok (f, rest)) :
    ∃ a : AtomPhrase, Taken a.tokens ts rest ∧ a.formula = f := by
  unfold atom at hok
  split at hok
  · cases ‹fuel + 1 = 0›
  · obtain ⟨rfl, rfl⟩ := Prod.mk.inj (Except.ok.inj hok)
    exact ⟨.number _, Taken.nil.cons (known_singleton nofun), rfl⟩
  · split at hok
    · rename_i hname
      obtain ⟨rfl, rfl⟩ := Prod.mk.inj (Except.ok.inj hok)
      exact ⟨.name _, Taken.nil.cons (known_name.mpr hname), rfl⟩
    · cases hok
  · obtain rfl := Nat.succ.inj ‹fuel + 1 = _ + 1›
    obtain ⟨⟨g, ts₁⟩, hexpr, hclose⟩ := bind_eq_ok.mp hok
    obtain ⟨inner, hinner, rfl⟩ := h.expr hexpr
    split at hclose
    · rename_i heq
      obtain ⟨rfl, rfl⟩ := Prod.mk.inj heq
      obtain ⟨rfl, rfl⟩ := Prod.mk.inj (Except.ok.inj hclose)
      have hclosing (rest : List FormulaToken) : Taken [.closing] (.closing :: rest) rest :=
        Taken.nil.cons (known_singleton nofun)
      exact ⟨.group inner, (hinner.append (hclosing _)).cons (known_singleton nofun), rfl⟩
    · cases hclose
  · cases hok
  · cases hok

end

theorem sound : ∀ fuel, Sound fuel
  | 0 => ⟨nofun, nofun, nofun, nofun, nofun, nofun⟩
  | fuel + 1 =>
    have h := sound fuel
    ⟨sound_expr h, sound_sums h, sound_term h, sound_products h, sound_unary h, sound_atom h⟩

/-! ## Every phrase is taken -/

theorem sums_of_endsExpr {rest : List FormulaToken} (h : EndsExpr rest) (fuel : Nat) (left : Formula) :
    sums (fuel + 1) left rest = .ok (left, rest) := by
  unfold sums
  split
  · cases ‹fuel + 1 = 0›
  · exact absurd rfl h.ne_plus
  · exact absurd rfl h.ne_minus
  · rfl

theorem products_of_endsTerm {rest : List FormulaToken} (h : EndsTerm rest) (fuel : Nat) (left : Formula) :
    products (fuel + 1) left rest = .ok (left, rest) := by
  unfold products
  split
  · cases ‹fuel + 1 = 0›
  · exact absurd rfl h.ne_star
  · exact absurd rfl h.ne_slash
  · rfl

theorem unary_atom (a : AtomPhrase) (fuel : Nat) (rest : List FormulaToken) :
    unary (fuel + 1) (a.tokens ++ rest) = atom fuel (a.tokens ++ rest) := by
  cases a with
  | number _ | name _ | group _ => rfl

theorem UnaryPhrase.length_pos (u : UnaryPhrase) : 0 < u.tokens.length := by
  cases u with
  | minus operand => exact Nat.succ_pos _
  | atom a =>
    obtain ⟨t, ts, h, -⟩ := a.exists_tokens
    rw [UnaryPhrase.tokens, h]
    exact Nat.succ_pos _

theorem TermPhrase.length_pos (t : TermPhrase) : 0 < t.tokens.length := by
  obtain ⟨first, more⟩ := t
  rw [TermPhrase.tokens, List.length_append]
  exact Nat.add_pos_left first.length_pos _

-- The bounds are such that one token is enough for four nested calls.
mutual

theorem ExprPhrase.expr_append : ∀ (e : ExprPhrase) {fuel : Nat} {rest : List FormulaToken}, Known e.tokens →
    EndsExpr rest → 4 * e.tokens.length ≤ fuel → expr fuel (e.tokens ++ rest) = .ok (e.formula, rest)
  | .mk first more, fuel, rest, hknown, hrest, hfuel => by
    have hpos := first.length_pos
    rw [ExprPhrase.tokens] at hknown hfuel ⊢
    rw [List.length_append] at hfuel
    obtain ⟨hfirst, hmore⟩ := known_append.mp hknown
    obtain ⟨k, rfl⟩ : ∃ k, fuel = k + 1 := ⟨fuel - 1, by omega⟩
    rw [List.append_assoc]
    exact bind_eq_ok.mpr ⟨_, first.term_append hfirst (more.endsTerm hrest) (by omega),
      more.sums_append first.formula hmore hrest (by omega)⟩

theorem SumsPhrase.sums_append : ∀ (s : SumsPhrase) (left : Formula) {fuel : Nat} {rest : List FormulaToken},
    Known s.tokens → EndsExpr rest → 4 * s.tokens.length + 1 ≤ fuel →
      sums fuel left (s.tokens ++ rest) = .ok (s.formula left, rest)
  | .done, left, fuel, rest, _, hrest, hfuel => by
    obtain ⟨k, rfl⟩ : ∃ k, fuel = k + 1 := ⟨fuel - 1, by omega⟩
    exact sums_of_endsExpr hrest k left
  | .plus right more, left, fuel, rest, hknown, hrest, hfuel
  | .minus right more, left, fuel, rest, hknown, hrest, hfuel => by
    rw [SumsPhrase.tokens] at hknown hfuel ⊢
    rw [List.length_cons, List.length_append] at hfuel
    obtain ⟨hright, hmore⟩ := known_append.mp (known_cons.mp hknown).2
    obtain ⟨k, rfl⟩ : ∃ k, fuel = k + 1 := ⟨fuel - 1, by omega⟩
    rw [List.cons_append, List.append_assoc]
    exact bind_eq_ok.mpr ⟨_, right.term_append hright (more.endsTerm hrest) (by omega),
      more.sums_append _ hmore hrest (by omega)⟩

theorem TermPhrase.term_append : ∀ (t : TermPhrase) {fuel : Nat} {rest : List FormulaToken}, Known t.tokens →
    EndsTerm rest → 4 * t.tokens.length ≤ fuel + 1 → term fuel (t.tokens ++ rest) = .ok (t.formula, rest)
  | .mk first more, fuel, rest, hknown, hrest, hfuel => by
    have hpos := first.length_pos
    rw [TermPhrase.tokens] at hknown hfuel ⊢
    rw [List.length_append] at hfuel
    obtain ⟨hfirst, hmore⟩ := known_append.mp hknown
    obtain ⟨k, rfl⟩ : ∃ k, fuel = k + 1 := ⟨fuel - 1, by omega⟩
    rw [List.append_assoc]
    exact bind_eq_ok.mpr ⟨_, first.unary_append hfirst (by omega),
      more.products_append first.formula hmore hrest (by omega)⟩

theorem ProductsPhrase.products_append : ∀ (p : ProductsPhrase) (left : Formula) {fuel : Nat}
    {rest : List FormulaToken}, Known p.tokens → EndsTerm rest → 4 * p.tokens.length + 1 ≤ fuel →
      products fuel left (p.tokens ++ rest) = .ok (p.formula left, rest)
  | .done, left, fuel, rest, _, hrest, hfuel => by
    obtain ⟨k, rfl⟩ : ∃ k, fuel = k + 1 := ⟨fuel - 1, by omega⟩
    exact products_of_endsTerm hrest k left
  | .star right more, left, fuel, rest, hknown, hrest, hfuel
  | .slash right more, left, fuel, rest, hknown, hrest, hfuel => by
    rw [ProductsPhrase.tokens] at hknown hfuel ⊢
    rw [List.length_cons, List.length_append] at hfuel
    obtain ⟨hright, hmore⟩ := known_append.mp (known_cons.mp hknown).2
    obtain ⟨k, rfl⟩ : ∃ k, fuel = k + 1 := ⟨fuel - 1, by omega⟩
    rw [List.cons_append, List.append_assoc]
    exact bind_eq_ok.mpr ⟨_, right.unary_append hright (by omega), more.products_append _ hmore hrest (by omega)⟩

theorem UnaryPhrase.unary_append : ∀ (u : UnaryPhrase) {fuel : Nat} {rest : List FormulaToken}, Known u.tokens →
    4 * u.tokens.length ≤ fuel + 2 → unary fuel (u.tokens ++ rest) = .ok (u.formula, rest)
  | .minus operand, fuel, rest, hknown, hfuel => by
    rw [UnaryPhrase.tokens] at hknown hfuel ⊢
    rw [List.length_cons] at hfuel
    obtain ⟨k, rfl⟩ : ∃ k, fuel = k + 1 := ⟨fuel - 1, by omega⟩
    exact bind_eq_ok.mpr ⟨_, operand.unary_append (known_cons.mp hknown).2 (by omega), rfl⟩
  | .atom a, fuel, rest, hknown, hfuel => by
    have hpos := (UnaryPhrase.atom a).length_pos
    rw [UnaryPhrase.tokens] at hknown hfuel hpos ⊢
    obtain ⟨k, rfl⟩ : ∃ k, fuel = k + 1 := ⟨fuel - 1, by omega⟩
    rw [unary_atom, UnaryPhrase.formula]
    exact a.atom_append hknown (by omega)

theorem AtomPhrase.atom_append : ∀ (a : AtomPhrase) {fuel : Nat} {rest : List FormulaToken}, Known a.tokens →
    4 * a.tokens.length ≤ fuel + 3 → atom fuel (a.tokens ++ rest) = .ok (a.formula, rest)
  | .number x, fuel, rest, _, hfuel => by
    rw [AtomPhrase.tokens, List.length_singleton] at hfuel
    obtain ⟨k, rfl⟩ : ∃ k, fuel = k + 1 := ⟨fuel - 1, by omega⟩
    rfl
  | .name text, fuel, rest, hknown, hfuel => by
    rw [AtomPhrase.tokens] at hknown hfuel
    rw [List.length_singleton] at hfuel
    obtain ⟨k, rfl⟩ : ∃ k, fuel = k + 1 := ⟨fuel - 1, by omega⟩
    exact if_pos (known_name.mp hknown)
  | .group inner, fuel, rest, hknown, hfuel => by
    rw [AtomPhrase.tokens] at hknown hfuel ⊢
    rw [List.length_cons, List.length_append, List.length_singleton] at hfuel
    obtain ⟨hinner, -⟩ := known_append.mp (known_cons.mp hknown).2
    obtain ⟨k, rfl⟩ : ∃ k, fuel = k + 1 := ⟨fuel - 1, by omega⟩
    rw [List.cons_append, List.append_assoc]
    exact bind_eq_ok.mpr ⟨_, inner.expr_append hinner (endsExpr_closing rest) (by omega), rfl⟩

end

/-! ## Whole texts -/

/-- A row of tokens spells the formulas of its derivations with known names. -/
theorem ofTokens_eq_ok_iff {ts : List FormulaToken} {f : Formula} :
    ofTokens ts = .ok f ↔ ∃ e : ExprPhrase, e.tokens = ts ∧ Known ts ∧ e.formula = f := by
  constructor
  · intro h
    obtain ⟨⟨g, rest⟩, hexpr, hend⟩ := bind_eq_ok.mp h
    obtain ⟨e, he, rfl⟩ := (sound _).expr hexpr
    split at hend
    · rename_i heq
      obtain ⟨rfl, rfl⟩ := Prod.mk.inj heq
      obtain rfl := Except.ok.inj hend
      have hts : ts = e.tokens := he.split.trans (List.append_nil _)
      exact ⟨e, hts.symm, hts ▸ he.known, rfl⟩
    · cases hend
  · rintro ⟨e, rfl, hknown, rfl⟩
    have hexpr := e.expr_append hknown endsExpr_nil (by omega : 4 * e.tokens.length ≤ 4 * e.tokens.length + 6)
    rw [List.append_nil] at hexpr
    exact bind_eq_ok.mpr ⟨_, hexpr, rfl⟩

/-- A text that is made of tokens has a value exactly if the grammar derives them, all names are those of the period
and the value of the derivation is finite; and then it has that value. There is one derivation at most. -/
theorem evaluate_eq_ok_iff {text : String} {ts : List FormulaToken} (h : scan text.toList = .ok ts) (period : Duration) :
    (∀ e e' : ExprPhrase, e.tokens = ts → e'.tokens = ts → e = e') ∧
      ∀ v, evaluate text period = .ok v ↔
        ∃ e : ExprPhrase, e.tokens = ts ∧ (∀ name, .name name ∈ ts → name = "period" ∨ name = "period_in_ns") ∧
          e.value period.nanoseconds = v ∧ v.isFinite = true := by
  refine ⟨fun e e' he he' => ExprPhrase.eq_of_tokens (he.trans he'.symm), fun v => ?_⟩
  have hevaluate : evaluate text period = ofTokens ts >>= fun f =>
      if (f.value period.nanoseconds).isFinite then .ok (f.value period.nanoseconds) else .error .notFinite := by
    rw [evaluate, h]
    rfl
  rw [hevaluate, bind_eq_ok]
  constructor
  · rintro ⟨f, hf, hv⟩
    obtain ⟨e, he, hknown, rfl⟩ := ofTokens_eq_ok_iff.mp hf
    split at hv
    · rename_i hfinite
      obtain rfl := Except.ok.inj hv
      rw [e.value_formula] at hfinite
      exact ⟨e, he, hknown, (e.value_formula _).symm, by rwa [e.value_formula]⟩
    · cases hv
  · rintro ⟨e, he, hknown, rfl, hfinite⟩
    refine ⟨e.formula, ofTokens_eq_ok_iff.mpr ⟨e, he, hknown, rfl⟩, ?_⟩
    rw [e.value_formula, if_pos hfinite]

/-- The derivation of `-(period - 10) / 3 * 2`. -/
def shiftedPeriod : ExprPhrase :=
  .mk (.mk (.minus (.atom (.group (.mk (.mk (.atom (.name "period")) .done) (.minus (.mk (.atom (.number 10)) .done)
    .done))))) (.slash (.atom (.number 3)) (.star (.atom (.number 2)) .done))) .done

/-- At a period of 40 ns the minus sign goes before the division, and that before the multiplication. -/
theorem shiftedPeriod_evaluates :
    scan "-(period - 10) / 3 * 2".toList = .ok shiftedPeriod.tokens ∧
      evaluate "-(period - 10) / 3 * 2" ⟨40000⟩ = .ok (-20) ∧
      ∀ e : ExprPhrase, e.tokens = shiftedPeriod.tokens → e = shiftedPeriod := by
  have hscan : scan "-(period - 10) / 3 * 2".toList = .ok shiftedPeriod.tokens := by
    have hsome : (scan "-(period - 10) / 3 * 2".toList).toOption = some shiftedPeriod.tokens := by decide +kernel
    cases hok : scan "-(period - 10) / 3 * 2".toList with
    | error e => rw [hok] at hsome; cases hsome
    | ok ts => rw [hok] at hsome; exact congrArg Except.ok (Option.some.inj hsome)
  obtain ⟨hone, hvalue⟩ := evaluate_eq_ok_iff hscan ⟨40000⟩
  have hknown : Known shiftedPeriod.tokens := fun name hname => .inl (by
    simpa [shiftedPeriod, ExprPhrase.tokens, SumsPhrase.tokens, TermPhrase.tokens, ProductsPhrase.tokens,
      UnaryPhrase.tokens, AtomPhrase.tokens] using hname)
  exact ⟨hscan, (hvalue (-20)).mpr ⟨shiftedPeriod, rfl, hknown, by decide +kernel, by decide +kernel⟩,
    fun e he => hone e shiftedPeriod he rfl⟩

end TestProgram.Formula
