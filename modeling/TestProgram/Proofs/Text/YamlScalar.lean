import Mathlib.Algebra.Group.Nat.Defs
import TestProgram.Text.YamlScalar

/-!
# Reading scalars of YAML

A scalar that starts with a quote is read by resolving the escapes between its quotes, and any other one stands for
itself (`YamlScalar.read`). What is written for a text has no line breaks and no control characters
(`shown_write`), and it is read as that text (`scalars_read_back`).
-/

namespace TestProgram.Text.YamlScalar

open Document (hexDigits)

/-! ## Numbers of characters -/

/-- The value of a hexadecimal digit. -/
def hexValue? (c : Char) : Option Nat :=
  if c.isDigit then some (c.toNat - '0'.toNat)
  else if 'a' ≤ c ∧ c ≤ 'f' then some (c.toNat - 'a'.toNat + 10)
  else if 'A' ≤ c ∧ c ≤ 'F' then some (c.toNat - 'A'.toNat + 10)
  else none

/-- The number whose first digits are `n`, and then those given. -/
def hexNumberFrom? (n : Nat) : List Char → Option Nat
  | [] => some n
  | c :: cs => do
    let d ← hexValue? c
    hexNumberFrom? (16 * n + d) cs

/-- The character with a number in hexadecimal digits. -/
def numbered? (ds : List Char) : Option Char := do
  let n ← hexNumberFrom? 0 ds
  if n.isValidChar then some (Char.ofNat n) else none

theorem hexValue?_digitChar {d : Nat} (h : d < 16) : hexValue? d.digitChar = some d := by
  revert d
  decide

theorem hexNumberFrom?_append (ds es : List Char) (n : Nat) :
    hexNumberFrom? n (ds ++ es) = (hexNumberFrom? n ds).bind fun m => hexNumberFrom? m es := by
  induction ds generalizing n with
  | nil => rfl
  | cons c ds ih =>
    rw [List.cons_append, hexNumberFrom?, hexNumberFrom?]
    cases hexValue? c with
    | none => rfl
    | some d => exact ih _

theorem hexNumberFrom?_toDigits (n : Nat) : hexNumberFrom? 0 (Nat.toDigits 16 n) = some n := by
  induction n using Nat.strongRecOn with
  | ind n ih =>
    have hdigit (m : Nat) : hexNumberFrom? m [(n % 16).digitChar] = some (16 * m + n % 16) := by
      rw [hexNumberFrom?, hexValue?_digitChar (Nat.mod_lt n (by decide))]
      rfl
    rw [Nat.toDigits_eq_if (by decide)]
    split
    · rename_i hsmall
      have hlast := hdigit 0
      rwa [Nat.mod_eq_of_lt hsmall, Nat.mul_zero, Nat.zero_add] at hlast
    · rename_i hlarge
      rw [hexNumberFrom?_append, ih (n / 16) (Nat.div_lt_self (by omega) (by decide)), Option.bind_some, hdigit,
        Nat.div_add_mod]

/-- Zeros before a number are no part of it. -/
theorem hexNumberFrom?_hexDigits (width n : Nat) : hexNumberFrom? 0 (hexDigits width n) = some n := by
  have hzeros (k : Nat) : hexNumberFrom? 0 (List.replicate k '0') = some 0 := by
    induction k with
    | zero => rfl
    | succ k ih => exact ih
  rw [hexDigits, hexNumberFrom?_append, hzeros, Option.bind_some, hexNumberFrom?_toDigits]

theorem length_hexDigits {width n : Nat} (hwidth : 0 < width) (h : n < 16 ^ width) :
    (hexDigits width n).length = width := by
  have hle := (Nat.length_toDigits_le_iff (by decide) hwidth).mpr h
  rw [hexDigits, List.length_append, List.length_replicate]
  omega

theorem numbered?_hexDigits (width : Nat) (c : Char) : numbered? (hexDigits width c.toNat) = some c := by
  have hvalid : c.toNat.isValidChar := c.valid
  rw [numbered?, hexNumberFrom?_hexDigits, Option.bind_eq_bind, Option.bind_some, if_pos hvalid, Char.ofNat_toNat]

/-! ## Reading -/

/-- The text that stands between quotes in this way. No other escapes have a meaning, nor has a bare quote. -/
def unescape : List Char → Option (List Char)
  | [] => some []
  | '\\' :: '"' :: cs => (unescape cs).map ('"' :: ·)
  | '\\' :: '\\' :: cs => (unescape cs).map ('\\' :: ·)
  | '\\' :: 'n' :: cs => (unescape cs).map ('\n' :: ·)
  | '\\' :: 't' :: cs => (unescape cs).map ('\t' :: ·)
  | '\\' :: 'r' :: cs => (unescape cs).map ('\r' :: ·)
  | '\\' :: 'u' :: a :: b :: c :: d :: cs => do
    let e ← numbered? [a, b, c, d]
    (unescape cs).map (e :: ·)
  | c :: cs => if c = '"' ∨ c = '\\' then none else (unescape cs).map (c :: ·)

/-- The text that a scalar stands for. -/
def read : List Char → Option (List Char)
  | '"' :: cs => if cs.getLast? = some '"' then unescape cs.dropLast else none
  | cs => some cs

theorem unescape_numbered : ∀ {ds : List Char} {c : Char}, ds.length = 4 → numbered? ds = some c →
    ∀ cs : List Char, unescape ('\\' :: 'u' :: ds ++ cs) = (unescape cs).map (c :: ·)
  | [d₁, d₂, d₃, d₄], c, _, hc, cs => by
    show unescape ('\\' :: 'u' :: d₁ :: d₂ :: d₃ :: d₄ :: cs) = _
    rw [unescape, hc]
    rfl

theorem unescape_cons {c : Char} (hquote : c ≠ '"') (hbackslash : c ≠ '\\') (cs : List Char) :
    unescape (c :: cs) = (unescape cs).map (c :: ·) := by
  rw [unescape, if_neg (not_or.mpr ⟨hquote, hbackslash⟩)]
  all_goals
    intros
    contradiction

/-- The characters that are written by number have numbers of four digits. -/
theorem toNat_lt_of_isControl {c : Char} (h : (isControl c || isLineBreak c) = true) : c.toNat < 16 ^ 4 := by
  simp only [isControl, isLineBreak, Bool.or_eq_true, Bool.and_eq_true, decide_eq_true_eq, beq_iff_eq] at h
  omega

/-- A character is read from how it is written. -/
theorem unescape_quotedChar (c : Char) (cs : List Char) :
    unescape (quotedChar c ++ cs) = (unescape cs).map (c :: ·) := by
  unfold quotedChar
  repeat' split
  case isTrue h | isTrue h | isTrue h | isTrue h | isTrue h =>
    rw [h]
    rfl
  case isTrue h =>
    have hlength := length_hexDigits (by decide) (toNat_lt_of_isControl h)
    exact unescape_numbered hlength (numbered?_hexDigits 4 c) cs
  case isFalse hquote hbackslash _ _ _ _ => exact unescape_cons hquote hbackslash cs

theorem unescape_quoted (cs : List Char) : unescape (cs.flatMap quotedChar) = some cs := by
  induction cs with
  | nil => rfl
  | cons c cs ih =>
    rw [List.flatMap_cons, unescape_quotedChar, ih]
    rfl

theorem read_of_head {cs : List Char} (h : cs.head? ≠ some '"') : read cs = some cs := by
  unfold read
  split
  · exact absurd rfl h
  · rfl

/-! ## Characters of scalars -/

/-- The character is neither a control character nor one of the separators of lines. -/
structure Shown (c : Char) : Prop where
  control : isControl c = false
  lineBreak : isLineBreak c = false

theorem mem_toDigits {c : Char} (n : Nat) (h : c ∈ Nat.toDigits 16 n) : ∃ d < 16, c = d.digitChar := by
  induction n using Nat.strongRecOn with
  | ind n ih =>
    rw [Nat.toDigits_eq_if (by decide)] at h
    split at h
    · rename_i hsmall
      exact ⟨n, hsmall, List.mem_singleton.mp h⟩
    · rename_i hlarge
      rcases List.mem_append.mp h with h | h
      · exact ih (n / 16) (Nat.div_lt_self (by omega) (by decide)) h
      · exact ⟨n % 16, Nat.mod_lt n (by decide), List.mem_singleton.mp h⟩

theorem shown_hexDigits {width n : Nat} {c : Char} (h : c ∈ hexDigits width n) : Shown c := by
  have hdigit : ∀ d < 16, isControl d.digitChar = false ∧ isLineBreak d.digitChar = false := by decide
  rcases List.mem_append.mp h with h | h
  · obtain rfl := List.eq_of_mem_replicate h
    exact ⟨rfl, rfl⟩
  · obtain ⟨d, hd, rfl⟩ := mem_toDigits n h
    exact ⟨(hdigit d hd).1, (hdigit d hd).2⟩

theorem shown_quotedChar (c : Char) : ∀ d ∈ quotedChar c, Shown d := by
  unfold quotedChar
  repeat' split
  case isTrue | isTrue | isTrue | isTrue | isTrue =>
    simp only [List.forall_mem_cons]
    exact ⟨⟨rfl, rfl⟩, ⟨rfl, rfl⟩, List.forall_mem_nil _⟩
  case isTrue =>
    simp only [List.forall_mem_cons]
    exact ⟨⟨rfl, rfl⟩, ⟨rfl, rfl⟩, fun d hd => shown_hexDigits hd⟩
  case isFalse h =>
    rw [Bool.not_eq_true, Bool.or_eq_false_iff] at h
    rintro d hd
    obtain rfl := List.mem_singleton.mp hd
    exact ⟨h.1, h.2⟩

/-! ## Scalars of texts -/

theorem write_of_isPlain {s : String} (h : isPlain s = true) : write s = s := if_pos h

theorem toList_write {s : String} (h : isPlain s = false) :
    (write s).toList = '"' :: (s.toList.flatMap quotedChar ++ ['"']) := by
  rw [write, if_neg (ne_true_of_eq_false h), String.toList_ofList]
  rfl

/-- A plain text has only characters that are written as they are. -/
theorem not_isHidden_of_isPlain {s : String} (h : isPlain s = true) : ∀ c ∈ s.toList, isHidden c = false := by
  simp only [isPlain, Bool.and_eq_true, Bool.not_eq_true', List.any_eq_false, Bool.not_eq_true] at h
  exact h.1.1.2

theorem shown_of_isHidden {c : Char} (h : isHidden c = false) : Shown c ∧ c ≠ '"' := by
  simp only [isHidden, Bool.or_eq_false_iff, beq_eq_false_iff_ne] at h
  exact ⟨⟨h.2, h.1.2⟩, h.1.1.1⟩

theorem shown_write (s : String) : ∀ c ∈ (write s).toList, Shown c := by
  cases hplain : isPlain s with
  | true =>
    rw [write_of_isPlain hplain]
    exact fun c hc => (shown_of_isHidden (not_isHidden_of_isPlain hplain c hc)).1
  | false =>
    rw [toList_write hplain, List.forall_mem_cons, List.forall_mem_append, List.forall_mem_singleton]
    refine ⟨⟨rfl, rfl⟩, fun d hd => ?_, ⟨rfl, rfl⟩⟩
    obtain ⟨c, -, hd⟩ := List.mem_flatMap.mp hd
    exact shown_quotedChar c d hd

theorem read_write (s : String) : read (write s).toList = some s.toList := by
  cases hplain : isPlain s with
  | true =>
    rw [write_of_isPlain hplain]
    refine read_of_head fun hhead => ?_
    exact (shown_of_isHidden (not_isHidden_of_isPlain hplain '"' (List.mem_of_head? hhead))).2 rfl
  | false =>
    rw [toList_write hplain, read, if_pos List.getLast?_concat, List.dropLast_concat, unescape_quoted]

/-- What is written for a text is one line without control characters and is read as the text, so no two texts are
written in the same way. -/
theorem scalars_read_back : (∀ s : String, read (write s).toList = some s.toList ∧ ∀ c ∈ (write s).toList, Shown c) ∧
    Function.Injective write := by
  refine ⟨fun s => ⟨read_write s, shown_write s⟩, fun s t h => ?_⟩
  have hread := read_write s
  rw [h, read_write t] at hread
  exact String.toList_inj.mp (Option.some.inj hread).symm

end TestProgram.Text.YamlScalar
