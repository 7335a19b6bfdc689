import TestProgram.Proofs.Number.Doubles
import TestProgram.Proofs.Script.Origins
import TestProgram.Run.PatternStatement

/-!
# Counts in scripts

A numeric literal is taken for the nearest double (`Scan.holds_numeral`), and only then it is asked whether that is a
whole number, and not too large (`Statement.countOf_eq_ok`). So a count is the number that is written, up to rounding
(`literals_counted`), and `2 ^ 53 + 1` passes for `2 ^ 53` (`not_forall_counted_exactly`).
-/

namespace TestProgram

open Rounding

/-! ## Whole numbers -/

namespace Binary

theorem ratio_div (b : Binary) : (b.ratio.1 / b.ratio.2 : ℚ) = b.mantissa * 2 ^ b.exponent := by
  have htwo (n : ℕ) : (twoTo n : ℚ) = 2 ^ n := Nat.cast_pow 2 n
  rw [ratio]
  dsimp only
  rw [Nat.cast_mul, htwo, htwo, ← zpow_natCast, ← zpow_natCast, mul_div_assoc, ← zpow_sub₀ (by norm_num)]
  congr 2
  omega

/-- The magnitude is a whole number. -/
theorem ratio_eq_mul {b : Binary} {k : ℕ} : (b.mantissa * 2 ^ b.exponent : ℚ) = k ↔ b.ratio.1 = k * b.ratio.2 := by
  have hpos : 0 < b.ratio.2 := twoTo_pos _
  have hne : (b.ratio.2 : ℚ) ≠ 0 := by exact_mod_cast hpos.ne'
  rw [← ratio_div, div_eq_iff hne]
  norm_cast

theorem isWhole_iff (b : Binary) : b.isWhole = true ↔ ∃ k : ℕ, (b.mantissa * 2 ^ b.exponent : ℚ) = k := by
  rw [isWhole, beq_iff_eq, ← Nat.dvd_iff_mod_eq_zero]
  refine exists_congr fun k => ?_
  rw [ratio_eq_mul, mul_comm]

theorem floor_eq {b : Binary} {k : ℕ} (h : (b.mantissa * 2 ^ b.exponent : ℚ) = k) : b.floor = k := by
  rw [floor, ratio_eq_mul.mp h]
  exact Nat.mul_div_cancel k (twoTo_pos _)

end Binary

/-! ## Counts -/

namespace Statement

variable {s : Statement} {x : Float} {span : Span} {y : ℚ}

/-- A float is taken for a count if it is a whole number and not too large. -/
theorem countOf_eq_ok (h : Holds x y) {k : ℕ} : s.countOf (.number x span) = .ok k ↔ k ≤ 2 ^ 53 ∧ y = k := by
  rw [countOf]
  cases h with
  | infinity hx hlarge =>
    rw [hx]
    refine ⟨nofun, ?_⟩
    rintro ⟨hk, rfl⟩
    have hk : (k : ℚ) ≤ 2 ^ 53 := by exact_mod_cast hk
    exact absurd (hlarge.trans hk) (not_le.mpr (pow_lt_pow_right₀ (by norm_num) (by norm_num)))
  | @number m e hx hvalue =>
    rw [hx, hvalue]
    dsimp only
    rw [Bool.false_and, Bool.or_false]
    cases hwhole : Binary.isWhole ⟨false, m, e⟩ with
    | false =>
      refine ⟨nofun, fun ⟨_, heq⟩ => ?_⟩
      have htrue := (Binary.isWhole_iff ⟨false, m, e⟩).mpr ⟨k, heq⟩
      rw [hwhole] at htrue
      cases htrue
    | true =>
      obtain ⟨n, hn⟩ := (Binary.isWhole_iff _).mp hwhole
      have hfloor := Binary.floor_eq hn
      dsimp only at hn
      rw [hfloor, hn, Nat.cast_inj, Bool.not_true, if_neg Bool.false_ne_true]
      show (if 2 ^ 53 < n then _ else _) = _ ↔ _
      split
      · rename_i hlarge
        exact ⟨nofun, fun ⟨hk, heq⟩ => absurd hk (by omega)⟩
      · rename_i hsmall
        constructor
        · rintro ⟨⟩
          exact ⟨not_lt.mp hsmall, rfl⟩
        · rintro ⟨-, rfl⟩
          rfl

theorem error_of_countOf {d : Diagnostic} (h : s.countOf (.number x span) = .error d) :
    d.code = .E0002 ∧ d.span = some span := by
  unfold countOf at h
  dsimp only at h
  split at h
  · split at h
    · cases h
      exact ⟨rfl, rfl⟩
    · split at h <;> cases h
      exact ⟨rfl, rfl⟩
  · cases h
    exact ⟨rfl, rfl⟩

/-! ### Places of counts -/

/-- The places where statements take a number as a count, and what they make of the count. -/
inductive Takes (s : Statement) (x : Float) (span : Span) : (ℕ → Except Diagnostic Action) → Prop
  | cycle {vs} : s.name = "cycle" → s.block = none → s.values = .number x span :: vs → Takes s x span fun n => do
      let (count, timeset) ← s.cycleOptions vs (some n) none
      pure (.steps [.hold count (((s.pair? "timeset").map Value.cell).or timeset)])
  | cycleIn {w name vs} : s.name = "cycle" → s.block = none → w.text = "timeset" →
      s.values = .word w :: .word name :: .number x span :: vs → Takes s x span fun n => do
      let (count, timeset) ← s.cycleOptions vs (some n) (some name.text)
      pure (.steps [.hold count (((s.pair? "timeset").map Value.cell).or timeset)])
  | delay : s.name = "delay" → s.block = none → s.values[0]? = some (.number x span) →
      Takes s x span fun n => .ok (.steps [.delay n])
  | loop {label} : s.name = "loop" → s.word 0 .loopLabel = .ok label → s.values[1]? = some (.number x span) →
      Takes s x span fun n => do
      let _ ← s.needBlock
      pure (.scope (.loop label n))
  | store : s.name = "store" → s.block = none → s.pair? "offset" = some (.number x span) →
      Takes s x span fun n => .ok (.steps [.store n])
  | storePlain {w vs} : s.name = "store" → s.block = none → s.pair? "offset" = none → w.text = "offset" →
      s.values = .word w :: .number x span :: vs → Takes s x span fun n => .ok (.steps [.store n])
  | groupSize : s.name = "group_size" → s.block = none → s.values[0]? = some (.number x span) →
      Takes s x span fun n =>
        if n ≤ Word.largestShort then .ok (.steps [.setGroup n])
        else .error ⟨.fault (.invalidGroupSize Word.largestShort), some s.span⟩
  | drive {pin} : s.name = "drive" → s.block = none → s.word 0 .pinName = .ok pin →
      s.values[1]? = some (.number x span) → Takes s x span fun
        | 0 => .ok (.steps [.setPin pin (.drive false)])
        | 1 => .ok (.steps [.setPin pin (.drive true)])
        | n => misuse span (.notBit s.name n)
  | compare {pin} : s.name = "compare" → s.block = none → s.word 0 .pinName = .ok pin →
      s.values[1]? = some (.number x span) → Takes s x span fun
        | 0 => .ok (.steps [.setPin pin (.compare false)])
        | 1 => .ok (.steps [.setPin pin (.compare true)])
        | n => misuse span (.notBit s.name n)

theorem action_of_takes {use : ℕ → Except Diagnostic Action} (h : s.Takes x span use) :
    s.action = s.countOf (.number x span) >>= use := by
  cases h with
  | cycle hname hblock hvalues =>
    have haction : s.action = step s.cycle := by
      simp only [action, pinChanges?, refuseBlock, hname, hblock]
      rfl
    rw [haction, step, Statement.cycle, hvalues, cycleOptions]
    simp only [bind_assoc, pure_bind]
  | cycleIn hname hblock hw hvalues =>
    have haction : s.action = step s.cycle := by
      simp only [action, pinChanges?, refuseBlock, hname, hblock]
      rfl
    rw [haction, step, Statement.cycle, hvalues, cycleOptions, if_pos hw]
    simp only [cycleOptions, bind_assoc, pure_bind]
  | delay hname hblock hvalue =>
    simp only [action, pinChanges?, refuseBlock, hname, hblock, count, hvalue]
    cases s.countOf (.number x span) <;> rfl
  | loop hname hlabel hvalue =>
    simp only [action, pinChanges?, hname, Statement.loop, hlabel, count, hvalue]
    cases s.countOf (.number x span) <;> rfl
  | store hname hblock hpair =>
    simp only [action, pinChanges?, refuseBlock, hname, hblock, storeOffset, hpair]
    cases s.countOf (.number x span) <;> rfl
  | storePlain hname hblock hpair hw hvalues =>
    have hoffset : s.storeOffset = s.countOf (.number x span) := by
      simp only [storeOffset, hpair, hvalues, if_pos hw, count]
      rfl
    simp only [action, pinChanges?, refuseBlock, hname, hblock, hoffset]
    cases s.countOf (.number x span) <;> rfl
  | groupSize hname hblock hvalue =>
    have haction : s.action = step (s.groupSize.map .setGroup) := by
      simp only [action, pinChanges?, refuseBlock, hname, hblock]
      rfl
    have hcount : s.count 0 = s.countOf (.number x span) := by rw [count, hvalue]
    rw [haction, Statement.groupSize, hcount]
    cases s.countOf (.number x span) with
    | error d => rfl
    | ok n =>
      show step (Except.map _ (if _ then _ else _)) = if _ then _ else _
      split <;> rfl
  | drive hname hblock hpin hvalue | compare hname hblock hpin hvalue =>
    simp only [action, pinChanges?, refuseBlock, hname, hblock, bit, count, hpin, hvalue]
    cases s.countOf (.number x span) with
    | error d => rfl
    | ok n => rcases n with _ | _ | n <;> rfl

end Statement

/-! ## Literals -/

/-- The number of a literal is not negative. -/
theorem Literal.Numeral.nonneg {cs : List Char} {q : ℚ} (h : Numeral cs q) : 0 ≤ q := by
  rw [← h.decimal, Decimal.value]
  positivity

/-- What becomes of the literal for a number where it is given as a count: it is rounded first. -/
structure Statement.Counts (s : Statement) (x : Float) (span : Span) (q : ℚ) : Prop where
  accepted : ∀ k, s.countOf (.number x span) = .ok k ↔ k ≤ 2 ^ 53 ∧ nearest q = k
  refused : ∀ d, s.countOf (.number x span) = .error d → d.code = .E0002 ∧ d.span = some span
  /-- A whole number that is not too large is the count. -/
  exact : ∀ n : ℕ, q = n → n ≤ 2 ^ 53 → s.countOf (.number x span) = .ok n
  /-- The first whole number that is too large is taken for the last one that is not. -/
  rounded : q = 2 ^ 53 + 1 → s.countOf (.number x span) = .ok (2 ^ 53)
  tooLarge : 2 ^ 53 + 1 < q → ∀ k, s.countOf (.number x span) ≠ .ok k
  /-- A count is the number that is written but for what is lost by rounding. -/
  near : ∀ k, s.countOf (.number x span) = .ok k → |q - k| ≤ max ((k : ℚ) / 2 ^ 53) (2 ^ (-1075 : ℤ))

theorem Statement.counts_of_holds (s : Statement) {x : Float} (span : Span) {q : ℚ} (hq₀ : 0 ≤ q)
    (h : Holds x (nearest q)) : s.Counts x span q := by
  have haccepted (k : ℕ) : s.countOf (.number x span) = .ok k ↔ k ≤ 2 ^ 53 ∧ nearest q = k := countOf_eq_ok h
  have hdouble : Double (2 ^ 53 + 2) := ⟨2 ^ 52 + 1, 1, by norm_num, by norm_num, by norm_num⟩
  refine ⟨haccepted, fun d => error_of_countOf, ?_, ?_, ?_, ?_⟩
  · rintro n rfl hn
    exact (haccepted n).mpr ⟨hn, nearest_of_double (double_nat hn)⟩
  · rintro rfl
    have hhalf : (2 ^ 53 + 1 : ℚ) = ((2 ^ 52 : ℕ) + 1 / 2) * 2 ^ (1 : ℤ) := by norm_num
    have hunit : unit (((2 ^ 52 : ℕ) + 1 / 2) * 2 ^ (1 : ℤ)) = 1 :=
      unit_of_bounds (k := 53) (by norm_num) (by norm_num)
    refine (haccepted _).mpr ⟨le_rfl, ?_⟩
    rw [hhalf, nearest_of_half (by norm_num) hunit]
    norm_num
  · intro hq k hk
    obtain ⟨hk, hnearest⟩ := (haccepted k).mp hk
    have hk : (k : ℚ) ≤ 2 ^ 53 := by exact_mod_cast hk
    have hnear := abs_sub_nearest_le hq₀ hdouble
    rw [hnearest, abs_of_nonneg (by linarith)] at hnear
    rcases abs_cases (q - (2 ^ 53 + 2)) with ⟨habs, -⟩ | ⟨habs, -⟩ <;> linarith
  · intro k hk
    obtain ⟨-, hnearest⟩ := (haccepted k).mp hk
    have hnear := abs_sub_nearest_le_max hq₀
    rwa [hnearest] at hnear

namespace Scan

/-- A number of a script is the double nearest to the number of the literal that stands there. -/
theorem holds_numeral {source : String} {x : Float} {span : Span} (h : ⟨.number x, span⟩ ∈ Lexeme.ofSource source) :
    ∃ text after q, span.Holds 0 source.toList text after ∧ Literal.Numeral text q ∧ Holds x (nearest q) := by
  obtain ⟨p, hp, hlexeme⟩ := List.mem_filterMap.mp h
  obtain ⟨-, after, hholds, hnumeral⟩ := forall_piecesFrom
    (P := fun kind text _ => ∀ x, kind = .token (.number x) →
      ∃ q, Literal.Numeral text q ∧ x = (Literal.decimal text).toFloat)
    (fun c cs x => numeral_front) 0 source.toList p hp
  obtain ⟨kind, text, span⟩ := p
  cases kind with
  | token t =>
    cases hlexeme
    obtain ⟨q, hq, hx⟩ := hnumeral x rfl
    refine ⟨text, after, q, hholds, hq, ?_⟩
    rw [hx, ← hq.decimal]
    exact holds_toFloat _
  | skipped | unrecognized => cases hlexeme

end Scan

/-- Every number in a script is a literal of its text. Where it is given as a count, it is used as the nearest double
if that is a whole number and not too large, and refused otherwise. -/
theorem literals_counted {source : String} {script : Script} (h : Script.ofSource source = .ok script) {x : Float}
    {span : Span} (hx : (Node.script script).Contains (.value (.number x span))) :
    ∃ text after q, span.Holds 0 source.toList text after ∧ Literal.Numeral text q ∧
      ∀ s : Statement, s.Counts x span q ∧
        ∀ use, s.Takes x span use → s.action = s.countOf (.number x span) >>= use := by
  obtain ⟨l, hl, hmeans⟩ := Script.value_of_token h hx
  have hl : ⟨.number x, span⟩ ∈ Lexeme.ofSource source := by
    obtain ⟨t, place⟩ := l
    generalize hv : Value.number x span = v at hmeans
    cases hmeans with
    | literal hf => cases t <;> cases hf <;> cases hv; exact hl
    | word => cases hv
  obtain ⟨text, after, q, hholds, hnumeral, hnear⟩ := Scan.holds_numeral hl
  exact ⟨text, after, q, hholds, hnumeral,
    fun s => ⟨s.counts_of_holds span hnumeral.nonneg hnear, fun _ => Statement.action_of_takes⟩⟩

namespace Node

/-- The part that a path of positions leads to. -/
def part? : List ℕ → Node → Option Node
  | [], n => some n
  | i :: path, n => n.children[i]?.bind (part? path)

theorem contains_of_part? : ∀ {path : List ℕ} {n m : Node}, n.part? path = some m → n.Contains m
  | [], _, _, h => by
    obtain rfl := Option.some.inj h
    exact .refl
  | _ :: _, _, _, h => by
    obtain ⟨k, hk, h⟩ := Option.bind_eq_some_iff.mp h
    exact .head (List.mem_of_getElem? hk) (contains_of_part? h)

def value? : Node → Option Value
  | value v => some v
  | script _ | declaration _ | statement _ | argument _ | word _ => none

theorem eq_of_value? {n : Node} {v : Value} (h : n.value? = some v) : n = .value v := by
  cases n <;> cases h
  rfl

end Node

/-- A pattern with a loop that is to run once more than a count can say. -/
def overlong : String :=
  "pins a\npattern p \x7b\n  timeset t 10ns\n  loop lp 9007199254740993 \x7b\n    cycle\n  \x7d\n\x7d\n"

theorem overlong_read : ∃ script, Script.ofSource overlong = .ok script ∧
    (Node.script script).Contains (.value (.number 9007199254740992 ⟨46, 62⟩)) := by
  -- The second argument of the second statement in the second declaration.
  have hread : ((Script.ofSource overlong).toOption.bind fun s => ((Node.script s).part? [1, 2, 2, 0]).bind
      Node.value?) = some (.number 9007199254740992 ⟨46, 62⟩) := by decide +kernel
  cases h : Script.ofSource overlong with
  | error ds =>
    rw [h] at hread
    cases hread
  | ok script =>
    rw [h, Except.toOption, Option.bind_some] at hread
    obtain ⟨n, hpart, hvalue⟩ := Option.bind_eq_some_iff.mp hread
    obtain rfl := Node.eq_of_value? hvalue
    exact ⟨script, rfl, Node.contains_of_part? hpart⟩

theorem holds_limit : Holds 9007199254740992 (2 ^ 53) := by
  have hfloat : Binary.ofFloat? 9007199254740992 = some ⟨false, 2 ^ 52, 1⟩ := by decide +kernel
  exact .number hfloat (by norm_num)

theorem overlong_counted : ∃ script x, Script.ofSource overlong = .ok script ∧
    (Node.script script).Contains (.value (.number x ⟨46, 62⟩)) ∧
    ∃ text after q, (⟨46, 62⟩ : Span).Holds 0 overlong.toList text after ∧ Literal.Numeral text q ∧
      ∀ s : Statement, s.Counts x ⟨46, 62⟩ q ∧
        ∀ use, s.Takes x ⟨46, 62⟩ use → s.action = s.countOf (.number x ⟨46, 62⟩) >>= use := by
  obtain ⟨script, hread, hx⟩ := overlong_read
  exact ⟨script, _, hread, hx, literals_counted hread hx⟩

/-- The number that is written is not always the count. -/
theorem not_forall_counted_exactly : ¬ ∀ (source : String) (script : Script) (x : Float) (span : Span)
    (text after : List Char) (q : ℚ) (s : Statement) (k : ℕ), Script.ofSource source = .ok script →
    (Node.script script).Contains (.value (.number x span)) → span.Holds 0 source.toList text after →
    Literal.Numeral text q → s.countOf (.number x span) = .ok k → q = k := by
  intro hall
  obtain ⟨script, hread, hx⟩ := overlong_read
  have hplace : (⟨46, 62⟩ : Span).Holds 0 overlong.toList "9007199254740993".toList
      " \x7b\n    cycle\n  \x7d\n\x7d\n".toList := ⟨overlong.toList.take 46, rfl, rfl, rfl⟩
  have hdigits : Literal.Digits "9007199254740993".toList := ⟨by decide, List.all_eq_true.mp (by decide)⟩
  have hcount : Statement.countOf (.mk ⟨"loop", ⟨38, 42⟩⟩ [] none ⟨38, 62⟩)
      (.number 9007199254740992 ⟨46, 62⟩) = .ok (2 ^ 53) :=
    (Statement.countOf_eq_ok holds_limit).mpr ⟨le_rfl, by norm_num⟩
  have hequal := hall overlong script _ _ _ _ _ _ _ hread hx hplace (.whole hdigits .none) hcount
  have hnumber : Nat.ofDigitChars 10 "9007199254740993".toList 0 = 9007199254740993 := by decide
  rw [hnumber] at hequal
  norm_num at hequal

end TestProgram
