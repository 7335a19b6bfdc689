import TestProgram.Proofs.Script.Reading

/-!
# Words

A word of a script consists of letters, digits and underscores (`Script.isWord_of_ofSource`). So the names that
a script gives to patterns and flows can be used in names of files.
-/

namespace TestProgram

open Phrase (lexemes)

namespace Scan

/-- Nothing but letters, digits and underscores. -/
def IsWord (s : String) : Prop := ∀ c ∈ s.toList, continuesWord c = true

theorem IsWord.slash {s : String} (h : IsWord s) : '/' ∉ s.toList := fun hmem => by
  have hslash : continuesWord '/' = false := rfl
  rw [h _ hmem] at hslash
  cases hslash

theorem word?_of_string {cs : List Char} {t : Token} (h : (string cs).1 = .token t) : t.word? = none := by
  unfold string at h
  dsimp only at h
  split at h
  · split at h <;> cases h
    rfl
  · cases h

theorem word?_quantity (cs : List Char) : (quantity cs).1.word? = none := by
  unfold quantity
  dsimp only
  split <;> rfl

theorem word?_of_sign? {c : Char} {t : Token} (h : sign? c = some t) : t.word? = none := by
  unfold sign? at h
  split at h <;> cases h <;> rfl

/-- Of what a text can begin with, only words have the text of a word. -/
theorem isWord_of_front {t : Token} {w : String} (hw : t.word? = some w) (c : Char) (cs : List Char) :
    (front c cs).1 = .token t → IsWord w := by
  fun_cases front c cs with
  | case1 | case2 => exact nofun
  | case3 =>
    rintro ⟨⟩
    cases hw
  | case4 =>
    intro h
    rw [word?_of_string h] at hw
    cases hw
  | case5 _ _ _ _ _ token _ hquantity =>
    rintro ⟨⟩
    have hnone := word?_quantity (c :: cs)
    rw [hquantity, hw] at hnone
    cases hnone
  | case6 _ _ _ _ _ hstart more =>
    rintro ⟨⟩
    rw [Token.word?_ofWord] at hw
    obtain rfl := Option.some.inj hw
    intro d hd
    rw [String.toList_ofList] at hd
    rcases List.mem_cons.mp hd with rfl | hd
    · rw [continuesWord, hstart, Bool.true_or]
    · exact List.all_eq_true.mp List.all_takeWhile d hd
  | case7 _ _ _ _ _ _ token hsign =>
    rintro ⟨⟩
    rw [word?_of_sign? hsign] at hw
    cases hw
  | case8 => exact nofun

theorem isWord_of_piecesFrom (start : Nat) (cs : List Char) : ∀ p ∈ piecesFrom start cs, ∀ l ∈ p.lexeme?,
    ∀ w ∈ l.token.word?, IsWord w := by
  fun_induction piecesFrom start cs with
  | case1 => exact List.forall_mem_nil _
  | case2 start c cs kind more hfront text stop ih =>
    refine List.forall_mem_cons.mpr ⟨fun l hl w hw => ?_, ih⟩
    unfold Piece.lexeme? at hl
    split at hl
    · rename_i t hkind
      obtain rfl := Option.some.inj hl
      exact isWord_of_front hw c cs ((congrArg Prod.fst hfront).trans hkind)
    · cases hl

end Scan

open Scan (IsWord)

theorem Lexeme.isWord_of_ofSource {source : String} {l : Lexeme} (h : l ∈ ofSource source) :
    ∀ w ∈ l.token.word?, IsWord w := by
  obtain ⟨p, hp, hl⟩ := List.mem_filterMap.mp h
  exact Scan.isWord_of_piecesFrom 0 source.toList p hp l hl

/-- The name of the pattern or the flow that is declared. -/
def Declared.product? : Declared → Option Word
  | .pattern name _ | .flow name _ => some name
  | _ => none

/-- The name is a word of the declaration. -/
theorem DeclarationPhrase.exists_of_product? {d : DeclarationPhrase} {name : Word}
    (h : d.declaration.content.product? = some name) :
    ∃ l ∈ lexemes d, l.token.word? = some name.text := by
  have hword (w : WordPhrase) : ∃ l ∈ lexemes w, l.token.word? = some (WordPhrase.word w).text :=
    ⟨w.lexeme, List.mem_singleton_self _, w.fits_token⟩
  have hcontent : ∀ (k : Keyword) (p : DeclaredPhrase k), (p.declared k).product? = some name →
      ∃ l ∈ lexemes p, l.token.word? = some name.text := by
    intro k p hp
    cases k with
    | pattern | flow =>
      obtain rfl := Option.some.inj hp
      obtain ⟨l, hl, hword⟩ := hword p.1
      exact ⟨l, List.mem_append_left _ hl, hword⟩
    | pins | instances | patset => cases hp
  obtain ⟨l, hl, hword⟩ := hcontent _ d.content h
  exact ⟨l, List.mem_append_right _ hl, hword⟩

namespace Script

/-- The patterns and flows that a text declares are named by words. -/
theorem isWord_of_ofSource {source : String} {s : Script} (h : ofSource source = .ok s) :
    ∀ d ∈ s.declarations, ∀ name ∈ d.content.product?, IsWord name.text := by
  obtain ⟨p, hp, rfl⟩ := exists_of_ofLexemes (ofTokens_of_ofSource h)
  intro d hd name hname
  obtain ⟨phrase, hphrase, rfl⟩ := List.mem_map.mp hd
  obtain ⟨l, hl, hword⟩ := DeclarationPhrase.exists_of_product? hname
  have hmem : l ∈ lexemes p := (Separated.sublist_of_mem hphrase).mem hl
  rw [hp] at hmem
  exact Lexeme.isWord_of_ofSource hmem _ hword

end Script

end TestProgram
