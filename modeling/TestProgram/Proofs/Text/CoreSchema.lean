import TestProgram.Proofs.Number.Numerals
import TestProgram.Proofs.Text.Splitting
import TestProgram.Proofs.Text.YamlScalar

/-!
# Plain scalars of YAML

The core schema takes plain scalars of some forms for something else than a text (`Core`). What is written without
quotes is a plain scalar on one line, but may end in a colon, and it is none of those forms but those of octal and
hexadecimal numbers and the words for infinity and NaN (`plain_scalars`).
-/

namespace TestProgram.Text.YamlScalar

open Literal (Digits Power)

/-! ## Plain scalars -/

/-- The indicators of YAML 1.2. -/
def yamlIndicators : List Char :=
  ['-', '?', ':', ',', '[', ']', '\x7b', '\x7d', '#', '&', '*', '!', '|', '>', '\'', '"', '%', '@', '\x60']

/-- What a plain scalar on one line of a block is, but for its end. -/
structure OneLine (cs : List Char) : Prop where
  ne_nil : cs ≠ []
  head : ∀ c ∈ cs.head?, isBlank c = false ∧ c ∉ yamlIndicators
  last : ∀ c ∈ cs.getLast?, isBlank c = false
  shown : ∀ c ∈ cs, Shown c
  mapping : ¬ [':', ' '] <:+: cs
  comment : ¬ [' ', '#'] <:+: cs

/-- What the core schema takes a plain scalar for, if not for a text. -/
inductive Kind where
  | null | truth | decimal | octal | hexadecimal | real | infinity | notANumber

/-- A sign, or nothing. -/
def signs : List (List Char) := [[], ['+'], ['-']]

/-- Digits with at most one point among them. -/
inductive Pointed : List Char → Prop
  | whole {ds} : Digits ds → Pointed ds
  | mixed {ds fs} : Digits ds → (∀ c ∈ fs, c.isDigit = true) → Pointed (ds ++ '.' :: fs)
  | fraction {fs} : Digits fs → Pointed ('.' :: fs)

/-- The plain scalars of each kind. -/
inductive Core : Kind → List Char → Prop
  | null {cs} : cs ∈ ["null", "Null", "NULL", "~"].map String.toList → Core .null cs
  | truth {cs} : cs ∈ ["true", "True", "TRUE", "false", "False", "FALSE"].map String.toList → Core .truth cs
  | decimal {sign ds} : sign ∈ signs → Digits ds → Core .decimal (sign ++ ds)
  | octal {ds} : ds ≠ [] → (∀ d ∈ ds, d ∈ "01234567".toList) → Core .octal ('0' :: 'o' :: ds)
  | hexadecimal {ds} : ds ≠ [] → (∀ d ∈ ds, d ∈ "0123456789abcdefABCDEF".toList) → Core .hexadecimal ('0' :: 'x' :: ds)
  | real {sign ms es e} : sign ∈ signs → Pointed ms → Power es e → Core .real (sign ++ (ms ++ es))
  | infinity {sign cs} : sign ∈ signs → cs ∈ [".inf", ".Inf", ".INF"].map String.toList → Core .infinity (sign ++ cs)
  | notANumber {cs} : cs ∈ [".nan", ".NaN", ".NAN"].map String.toList → Core .notANumber cs

/-- The kinds that are not looked for. -/
def overlooked : List Kind := [.octal, .hexadecimal, .infinity, .notANumber]

/-- A plain scalar that is taken for a text. -/
def KeepsMeaning (cs : List Char) : Prop := OneLine cs ∧ cs.getLast? ≠ some ':' ∧ ∀ kind, ¬ Core kind cs

variable {cs : List Char} {s : String}

/-! ## What is written without quotes -/

theorem hasPair_iff (a b : Char) (cs : List Char) : hasPair a b cs = true ↔ [a, b] <:+: cs := by
  fun_induction hasPair a b cs with
  | case1 c d cs ih =>
    have hfront : [a, b] <+: c :: d :: cs ↔ c = a ∧ d = b := by
      rw [List.cons_prefix_cons, List.cons_prefix_cons, eq_comm, @eq_comm _ b d]
      simp only [List.nil_prefix, and_true]
    have hoccurs : [a, b] <:+: c :: d :: cs ↔ [a, b] <+: c :: d :: cs ∨ [a, b] <:+: d :: cs := List.infix_cons_iff
    rw [hoccurs, Bool.or_eq_true, ih, Bool.and_eq_true, beq_iff_eq, beq_iff_eq, hfront]
  | case2 cs h =>
    refine ⟨nofun, fun hoccurs => ?_⟩
    have hlength := hoccurs.length_le
    match cs, h with
    | [], _ => cases hlength
    | [c], _ => cases Nat.le_of_succ_le_succ hlength
    | c :: d :: cs, h => exact absurd rfl (h c d cs)

theorem length_le_flatMap_quotedChar (cs : List Char) : cs.length ≤ (cs.flatMap quotedChar).length := by
  induction cs with
  | nil => exact Nat.le_refl _
  | cons c cs ih =>
    have hne : quotedChar c ≠ [] := by
      unfold quotedChar
      repeat' split
      all_goals exact List.cons_ne_nil _ _
    have hpos := List.length_pos_iff.mpr hne
    rw [List.flatMap_cons, List.length_append, List.length_cons]
    omega

/-- What is written as it is, is plain. -/
theorem write_eq_self_iff : write s = s ↔ isPlain s = true := by
  refine ⟨fun h => ?_, write_of_isPlain⟩
  by_contra hplain
  have hwrite := toList_write (Bool.not_eq_true _ ▸ hplain)
  have hlonger := length_le_flatMap_quotedChar s.toList
  have hlength := congrArg List.length hwrite
  rw [h, List.length_cons, List.length_append] at hlength
  omega

/-- White space at an end would be trimmed away. -/
theorem isBlank_ends (h : trim cs = cs) :
    (∀ c ∈ cs.head?, isBlank c = false) ∧ ∀ c ∈ cs.getLast?, isBlank c = false := by
  obtain ⟨-, -, -, -, -, hhead, hlast⟩ := trim_spec cs
  rw [h] at hhead hlast
  exact ⟨hhead, hlast⟩

theorem oneLine_of_isPlain (h : isPlain s = true) : OneLine s.toList := by
  have hshown := not_isHidden_of_isPlain h
  simp only [isPlain, Bool.and_eq_true, Bool.not_eq_true', beq_iff_eq, List.isEmpty_eq_false_iff] at h
  obtain ⟨⟨⟨⟨⟨⟨⟨hne, htrim⟩, hhead⟩, hmapping⟩, hcomment⟩, -⟩, -⟩, -⟩ := h
  obtain ⟨hfirst, hlast⟩ := isBlank_ends htrim
  refine ⟨hne, fun c hc => ⟨hfirst c hc, fun hindicator => ?_⟩, hlast, fun c hc => (shown_of_isHidden (hshown c hc)).1,
    fun hoccurs => ?_, fun hoccurs => ?_⟩
  · have hall : yamlIndicators.all indicators.contains = true := by decide
    rw [hc, Option.any_some, List.all_eq_true.mp hall c hindicator] at hhead
    cases hhead
  · rw [(hasPair_iff ..).mpr hoccurs] at hmapping
    cases hmapping
  · rw [(hasPair_iff ..).mpr hoccurs] at hcomment
    cases hcomment

/-! ## Numbers and words that are looked for -/

theorem isUnsigned_append {ms es : List Char} {e : Int} (hms : Pointed ms) (hes : Power es e) :
    Real.isUnsigned (ms ++ es) = true := by
  have hrest : ∀ c ∈ es.head?, c.isDigit = false := fun c hc => (hes.head c hc).1
  have hpoint {fs : List Char} : ∀ c ∈ ('.' :: fs ++ es).head?, c.isDigit = false := by
    rintro c ⟨⟩
    rfl
  unfold Real.isUnsigned
  cases hms with
  | @whole ds hds =>
    rw [Literal.digits_append hds.isDigit hrest]
    dsimp only
    split
    · exact absurd rfl (hes.head '.' rfl).2
    · simp only [hes.exponentLength, List.isEmpty_eq_false_iff.mpr hds.ne_nil, beq_self_eq_true, Bool.not_false,
        Bool.true_or, Bool.and_true]
  | @mixed ds fs hds hfs =>
    rw [List.append_assoc, Literal.digits_append hds.isDigit hpoint]
    simp only [List.cons_append, Literal.digits_append hfs hrest, hes.exponentLength,
      List.isEmpty_eq_false_iff.mpr hds.ne_nil, beq_self_eq_true, Bool.not_false, Bool.true_or, Bool.and_true]
  | @fraction fs hfs =>
    rw [← List.nil_append ('.' :: fs ++ es), Literal.digits_append (List.forall_mem_nil _) hpoint]
    simp only [List.cons_append, Literal.digits_append hfs.isDigit hrest, hes.exponentLength,
      List.isEmpty_eq_false_iff.mpr hfs.ne_nil, beq_self_eq_true, Bool.not_false, Bool.or_true, Bool.and_true]

/-- A number without a sign does not begin with one. -/
theorem Pointed.head {ms : List Char} (h : Pointed ms) : ∃ c cs, ms = c :: cs ∧ c ≠ '+' ∧ c ≠ '-' := by
  have hdigits {ds : List Char} (hds : Digits ds) : ∃ c cs, ds = c :: cs ∧ c ≠ '+' ∧ c ≠ '-' := by
    obtain ⟨c, cs, rfl⟩ := List.exists_cons_of_ne_nil hds.ne_nil
    refine ⟨c, cs, rfl, ?_, ?_⟩ <;> rintro rfl <;> exact absurd (hds.isDigit _ List.mem_cons_self) (by decide)
  cases h with
  | whole hds => exact hdigits hds
  | mixed hds =>
    obtain ⟨c, cs, rfl, hc⟩ := hdigits hds
    exact ⟨c, _, List.cons_append, hc⟩
  | fraction => exact ⟨'.', _, rfl, by decide, by decide⟩

theorem isSome_read?_of_real {sign ms es : List Char} {e : Int} (hsign : sign ∈ signs) (hms : Pointed ms)
    (hes : Power es e) (hs : s.toList = sign ++ (ms ++ es)) : (Real.read? s).isSome = true := by
  have hunsigned : (Real.readUnsigned? (ms ++ es)).isSome = true := by
    rw [Real.readUnsigned?, if_pos (isUnsigned_append hms hes)]
    rfl
  unfold Real.read?
  rw [hs]
  simp only [signs, List.mem_cons, List.not_mem_nil, or_false] at hsign
  rcases hsign with rfl | rfl | rfl
  · obtain ⟨c, cs, rfl, hplus, hminus⟩ := hms.head
    split
    · rename_i heq
      exact absurd (List.cons_eq_cons.mp heq).1 hplus
    · rename_i heq
      exact absurd (List.cons_eq_cons.mp heq).1 hminus
    · exact hunsigned
  · exact hunsigned
  · show ((Real.readUnsigned? (ms ++ es)).map _).isSome = true
    rwa [Option.isSome_map]

theorem core_of_isPlain (h : isPlain s = true) {kind : Kind} (hcore : Core kind s.toList) : kind ∈ overlooked := by
  simp only [isPlain, Bool.and_eq_true, Bool.not_eq_true', Option.isNone_iff_eq_none] at h
  obtain ⟨⟨-, hreserved⟩, hread⟩ := h
  have hwords {words : List String} (hwords : ∀ w ∈ words, reserved.contains (lower w) = true) :
      s.toList ∉ words.map String.toList := by
    intro hmem
    obtain ⟨w, hw, hs⟩ := List.mem_map.mp hmem
    obtain rfl := String.toList_inj.mp hs
    rw [hwords w hw] at hreserved
    cases hreserved
  have hnumber {sign ms es : List Char} {e : Int} (hsign : sign ∈ signs) (hms : Pointed ms) (hes : Power es e) :
      s.toList ≠ sign ++ (ms ++ es) := by
    intro hs
    have hsome := isSome_read?_of_real hsign hms hes hs
    rw [hread] at hsome
    cases hsome
  generalize hs : s.toList = cs at hcore
  cases hcore with
  | null hmem | truth hmem => exact absurd (hs ▸ hmem) (hwords (by decide))
  | decimal hsign hds => exact absurd (hs.trans (by rw [List.append_nil])) (hnumber hsign (.whole hds) .none)
  | real hsign hms hes => exact absurd hs (hnumber hsign hms hes)
  | octal | hexadecimal | infinity | notANumber => simp [overlooked]

/-- What is written without quotes is a plain scalar on one line but for its end, and no null, truth value, decimal
number or real number. So it keeps its meaning if it does not end in a colon and is none of the forms that are not
looked for. -/
theorem plain_scalars (h : write s = s) :
    OneLine s.toList ∧ (∀ kind, Core kind s.toList → kind ∈ overlooked) ∧
    (KeepsMeaning s.toList ↔ s.toList.getLast? ≠ some ':' ∧ ∀ kind ∈ overlooked, ¬ Core kind s.toList) := by
  have hplain := write_eq_self_iff.mp h
  have hline := oneLine_of_isPlain hplain
  have hcore (kind : Kind) (hkind : Core kind s.toList) : kind ∈ overlooked := core_of_isPlain hplain hkind
  refine ⟨hline, hcore, fun ⟨_, hlast, hnone⟩ => ⟨hlast, fun kind _ => hnone kind⟩, fun ⟨hlast, hnone⟩ => ?_⟩
  exact ⟨hline, hlast, fun kind hkind => hnone kind (hcore kind hkind) hkind⟩

theorem plain_flagTrue : write "flag-true" = "flag-true" ∧
    OneLine "flag-true".toList ∧ (∀ kind, Core kind "flag-true".toList → kind ∈ overlooked) ∧
    (KeepsMeaning "flag-true".toList ↔
      "flag-true".toList.getLast? ≠ some ':' ∧ ∀ kind ∈ overlooked, ¬ Core kind "flag-true".toList) := by
  have hwrite : write "flag-true" = "flag-true" := by decide +kernel
  exact ⟨hwrite, plain_scalars hwrite⟩

/-- A text that ends in a colon is the key of a mapping where it is written without quotes. -/
theorem not_forall_keepsMeaning : ¬ ∀ s : String, write s = s → KeepsMeaning s.toList := by
  intro hall
  obtain ⟨-, hlast, -⟩ := hall "a:" (by decide +kernel)
  exact hlast rfl

end TestProgram.Text.YamlScalar
