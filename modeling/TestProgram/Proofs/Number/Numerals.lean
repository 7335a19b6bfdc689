import Mathlib.Algebra.Order.Field.Rat
import Mathlib.Tactic.FieldSimp
import TestProgram.Proofs.Script.Pieces

/-!
# The numbers of numeric literals

A numeric literal is digits, perhaps with a fraction, perhaps with a power of ten, and stands for a rational number
(`Literal.Numeral`). What is cut from the front of a text that begins with a digit is such a literal
(`exists_numeral`), and the decimal that it is taken for is its number (`Numeral.decimal`).
-/

namespace TestProgram

/-- The number that a decimal is. -/
def Decimal.value (d : Decimal) : ℚ := d.coefficient * (10 : ℚ) ^ d.exponent

namespace Literal

/-! ## Grammar -/

/-- Decimal digits, at least one. -/
structure Digits (cs : List Char) : Prop where
  ne_nil : cs ≠ []
  isDigit : ∀ c ∈ cs, c.isDigit = true

/-- A power of ten with its exponent, or nothing. -/
inductive Power : List Char → Int → Prop
  | none : Power [] 0
  | plain {mark ds} : mark = 'e' ∨ mark = 'E' → Digits ds → Power (mark :: ds) (Nat.ofDigitChars 10 ds 0)
  | plus {mark ds} : mark = 'e' ∨ mark = 'E' → Digits ds → Power (mark :: '+' :: ds) (Nat.ofDigitChars 10 ds 0)
  | minus {mark ds} : mark = 'e' ∨ mark = 'E' → Digits ds → Power (mark :: '-' :: ds) (-Nat.ofDigitChars 10 ds 0)

/-- A numeric literal and the number that it stands for. -/
inductive Numeral : List Char → ℚ → Prop
  | whole {ds es e} : Digits ds → Power es e → Numeral (ds ++ es) (Nat.ofDigitChars 10 ds 0 * 10 ^ e)
  | fraction {ds fs es e} : Digits ds → Digits fs → Power es e → Numeral (ds ++ '.' :: fs ++ es)
      ((Nat.ofDigitChars 10 ds 0 + Nat.ofDigitChars 10 fs 0 / 10 ^ fs.length) * 10 ^ e)

variable {cs ds fs es rest : List Char} {e : Int}

/-! ## Digits at the front of a text -/

theorem digits_append (h : ∀ c ∈ ds, c.isDigit = true) (hrest : ∀ c ∈ rest.head?, c.isDigit = false) :
    digits (ds ++ rest) = (ds, rest) := by
  have htake : rest.takeWhile Char.isDigit = [] := by
    cases rest with
    | nil => rfl
    | cons c rest => exact List.takeWhile_cons_of_neg (ne_true_of_eq_false (hrest c rfl))
  have hdrop : rest.dropWhile Char.isDigit = rest := by
    cases rest with
    | nil => rfl
    | cons c rest => exact List.dropWhile_cons_of_neg (ne_true_of_eq_false (hrest c rfl))
  rw [digits, List.takeWhile_append_of_pos h, List.dropWhile_append_of_pos h, htake, hdrop, List.append_nil]

theorem digits_self (h : ∀ c ∈ ds, c.isDigit = true) : digits ds = (ds, []) := by
  have hdigits : digits (ds ++ []) = (ds, []) := digits_append h fun _ hc => nomatch hc
  rwa [List.append_nil] at hdigits

theorem isDigit_digits (cs : List Char) : ∀ c ∈ (digits cs).1, c.isDigit = true :=
  List.all_eq_true.mp List.all_takeWhile

/-! ## Powers of ten -/

namespace Power

/-- A power begins with a mark. -/
theorem head (h : Power es e) : ∀ c ∈ es.head?, c.isDigit = false ∧ c ≠ '.' := by
  cases h with
  | none => exact fun c hc => nomatch hc
  | plain hmark | plus hmark | minus hmark =>
    rintro c ⟨⟩
    rcases hmark with rfl | rfl <;> decide

theorem exponentLength (h : Power es e) : exponentLength es = es.length := by
  cases h with
  | none => rfl
  | @plain mark ds hmark hds =>
    obtain ⟨c, cs, rfl⟩ := List.exists_cons_of_ne_nil hds.ne_nil
    have hdigits : digits (c :: cs) = (c :: cs, []) := digits_self hds.isDigit
    have hsign : c ≠ '+' ∧ c ≠ '-' := by
      constructor <;> rintro rfl <;> exact absurd (hds.isDigit _ (List.mem_cons_self ..)) (by decide)
    rw [Literal.exponentLength, if_pos hmark]
    · simp only [List.drop_zero, hdigits, List.length_cons, Nat.add_zero]
    · rintro _ ⟨⟩
      exact hsign.1 rfl
    · rintro _ ⟨⟩
      exact hsign.2 rfl
  | @plus mark ds hmark hds | @minus mark ds hmark hds =>
    obtain ⟨c, cs, rfl⟩ := List.exists_cons_of_ne_nil hds.ne_nil
    rw [Literal.exponentLength, if_pos hmark]
    dsimp only
    rw [List.drop_succ_cons, List.drop_zero, digits_self hds.isDigit]
    rfl

theorem exponentValue (h : Power es e) : exponentValue es = e := by
  cases h with
  | none => rfl
  | @plain mark ds hmark hds =>
    obtain ⟨c, cs, rfl⟩ := List.exists_cons_of_ne_nil hds.ne_nil
    unfold Literal.exponentValue
    split
    · rename_i heq
      obtain ⟨-, rfl, -⟩ := List.cons_eq_cons.mp heq |>.imp_right List.cons_eq_cons.mp
      exact absurd (hds.isDigit _ (List.mem_cons_self ..)) (by decide)
    · rename_i heq
      obtain ⟨-, rfl, -⟩ := List.cons_eq_cons.mp heq |>.imp_right List.cons_eq_cons.mp
      exact absurd (hds.isDigit _ (List.mem_cons_self ..)) (by decide)
    · rename_i heq
      obtain ⟨-, rfl⟩ := List.cons_eq_cons.mp heq
      rfl
    · rename_i heq
      cases heq
  | plus | minus => rfl

end Power

/-- The digits at the front of a text. -/
theorem digits_take (h : (digits cs).1 ≠ []) : Digits (cs.take (digits cs).1.length) := by
  rw [digits, Scan.take_takeWhile]
  exact ⟨h, isDigit_digits cs⟩

/-- The power of ten at the front of a text, if there is one. -/
theorem exists_power (cs : List Char) : ∃ e, Power (cs.take (exponentLength cs)) e := by
  fun_cases exponentLength cs with
  | case1 => exact ⟨0, .none⟩
  | case2 c cs hmark sign hdigits =>
    dsimp only [sign] at hdigits ⊢
    revert hdigits
    split <;> intro hdigits
    · exact ⟨_, .plus hmark (digits_take hdigits)⟩
    · exact ⟨_, .minus hmark (digits_take hdigits)⟩
    · exact ⟨_, .plain hmark (digits_take hdigits)⟩
  | case3 => exact ⟨0, .none⟩
  | case4 => exact ⟨0, .none⟩

/-! ## Literals -/

theorem Numeral.ne_nil {q : ℚ} (h : Numeral cs q) : cs ≠ [] := by
  cases h with
  | whole hds => exact List.append_ne_nil_of_left_ne_nil hds.ne_nil _
  | fraction => exact List.append_ne_nil_of_left_ne_nil (List.append_ne_nil_of_right_ne_nil _ (List.cons_ne_nil _ _)) _

theorem Numeral.decimal {q : ℚ} (h : Numeral cs q) : (decimal cs).value = q := by
  cases h with
  | @whole ds es e hds hes =>
    have hdigits : digits (ds ++ es) = (ds, es) := digits_append hds.isDigit fun c hc => (hes.head c hc).1
    have hdecimal : Literal.decimal (ds ++ es) = ⟨value ds, exponentValue es⟩ := by
      unfold Literal.decimal
      rw [hdigits]
      dsimp only
      split
      · exact absurd rfl (hes.head '.' rfl).2
      · rw [List.append_nil, List.length_nil, Nat.cast_zero, sub_zero]
    rw [hdecimal, Decimal.value, hes.exponentValue]
    rfl
  | @fraction ds fs es e hds hfs hes =>
    have hdigits : digits (ds ++ '.' :: fs ++ es) = (ds, '.' :: (fs ++ es)) := by
      rw [List.append_assoc]
      refine digits_append hds.isDigit ?_
      rintro c ⟨⟩
      rfl
    have hfraction : digits (fs ++ es) = (fs, es) := digits_append hfs.isDigit fun c hc => (hes.head c hc).1
    have hvalue : value (ds ++ fs) = 10 ^ fs.length * Nat.ofDigitChars 10 ds 0 + Nat.ofDigitChars 10 fs 0 := by
      rw [← Nat.ofDigitChars_eq_ofDigitChars_zero, ← Nat.ofDigitChars_append]
      rfl
    have hdecimal : Literal.decimal (ds ++ '.' :: fs ++ es) = ⟨value (ds ++ fs), exponentValue es - fs.length⟩ := by
      unfold Literal.decimal
      rw [hdigits]
      simp only [hfraction]
    rw [hdecimal, Decimal.value, hes.exponentValue, hvalue, zpow_sub₀ (by norm_num), zpow_natCast]
    push_cast
    field_simp

theorem take_fraction (cs : List Char) :
    cs.take (fractionLength cs) = [] ∨ ∃ fs, Digits fs ∧ cs.take (fractionLength cs) = '.' :: fs := by
  fun_cases fractionLength cs with
  | case1 | case3 => exact .inl rfl
  | case2 cs hdigits => exact .inr ⟨_, digits_take hdigits, List.take_succ_cons⟩

/-- A text that begins with a digit begins with a literal. -/
theorem exists_numeral {c : Char} (hc : c.isDigit = true) (cs : List Char) :
    ∃ q, Numeral ((c :: cs).take (mantissaLength (c :: cs) +
      exponentLength ((c :: cs).drop (mantissaLength (c :: cs))))) q := by
  obtain ⟨e, hpower⟩ := exists_power ((c :: cs).drop (mantissaLength (c :: cs)))
  have hne : (digits (c :: cs)).1 ≠ [] := by
    rw [digits, List.takeWhile_cons_of_pos hc]
    exact List.cons_ne_nil _ _
  have hdigits : Digits (digits (c :: cs)).1 := ⟨hne, isDigit_digits _⟩
  have hmantissa : (c :: cs).take (mantissaLength (c :: cs)) =
      (digits (c :: cs)).1 ++ (digits (c :: cs)).2.take (fractionLength (digits (c :: cs)).2) := by
    rw [mantissaLength, if_neg (mt List.length_eq_zero_iff.mp hne), List.take_add, digits, Scan.take_takeWhile,
      Scan.drop_takeWhile]
  rw [List.take_add, hmantissa]
  rcases take_fraction (digits (c :: cs)).2 with hfraction | ⟨fs, hfs, hfraction⟩
  · rw [hfraction, List.append_nil]
    exact ⟨_, .whole hdigits hpower⟩
  · rw [hfraction]
    exact ⟨_, .fraction hdigits hfs hpower⟩

end Literal

namespace Scan

/-- The token is the number of a literal. -/
theorem number_quantity {x : Float} {c : Char} {cs : List Char} (hc : c.isDigit = true) {length : Nat}
    (h : quantity (c :: cs) = (.number x, length)) :
    ∃ q, Literal.Numeral ((c :: cs).take length) q ∧ x = (Literal.decimal ((c :: cs).take length)).toFloat := by
  obtain ⟨q, hq⟩ := Literal.exists_numeral hc cs
  unfold quantity at h
  dsimp only at h
  split at h <;> cases h
  exact ⟨q, hq, rfl⟩

/-- Nothing but a literal is a number. -/
theorem numeral_front {x : Float} {c : Char} {cs : List Char} :
    (front c cs).1 = .token (.number x) → ∃ q, Literal.Numeral (c :: cs.take (front c cs).2) q ∧
      x = (Literal.decimal (c :: cs.take (front c cs).2)).toFloat := by
  fun_cases front c cs with
  | case5 _ _ _ _ hdigit token length hquantity =>
    rintro ⟨⟩
    obtain ⟨q, hnumeral, hx⟩ := number_quantity hdigit hquantity
    cases length with
    | zero => exact absurd rfl hnumeral.ne_nil
    | succ n => exact ⟨q, hnumeral, hx⟩
  | case4 =>
    unfold string
    dsimp only
    split
    · split <;> rintro ⟨⟩
    · rintro ⟨⟩
  | case6 =>
    intro h
    have hword := congrArg Token.word? (PieceKind.token.inj h)
    rw [Token.word?_ofWord] at hword
    cases hword
  | case7 _ _ _ _ _ _ token hsign =>
    rintro ⟨⟩
    unfold sign? at hsign
    split at hsign <;> cases hsign
  | case1 | case2 | case3 | case8 => rintro ⟨⟩

end Scan

end TestProgram
