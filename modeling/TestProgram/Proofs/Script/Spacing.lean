import TestProgram.Proofs.Script.Places
import TestProgram.Proofs.Script.Reading

/-!
# Spacing in scripts

How many separators stand in a row, and where, does not matter to what is read: scripts whose tokens have
the same essence (`Lexeme.essence`) are both misspelled, or they are the same up to the places of their
parts (`Script.exists_of_essence`). A phrase is carried from one row of tokens to another one that is alike
(`Phrase.Relaid`), part by part as the grammar has it.
-/

namespace TestProgram

open Phrase (lexemes Worded lexemes_pair lexemes_some lexemes_cons lexemes_leaf)

namespace Token

/-- Puts a newline before tokens, if there are any and if they do not begin with one. -/
def gapped : List Token → List Token
  | [] => []
  | newline :: ts => newline :: ts
  | ts => newline :: ts

/-- Every run of separators as one newline, but none at the end. -/
def condensed : List Token → List Token
  | [] => []
  | t :: ts => if t.isSeparator then gapped (condensed ts) else t :: condensed ts

theorem gapped_cases (ts : List Token) : gapped ts = [] ∨ ∃ us, gapped ts = newline :: us := by
  unfold gapped
  split
  · exact .inl rfl
  · exact .inr ⟨_, rfl⟩
  · exact .inr ⟨_, rfl⟩

theorem dropWhile_gapped (ts : List Token) : (gapped ts).dropWhile isSeparator = ts.dropWhile isSeparator := by
  unfold gapped
  split
  · rfl
  · rfl
  · exact List.dropWhile_cons_of_pos rfl

theorem condensed_dropWhile (ts : List Token) :
    condensed (ts.dropWhile isSeparator) = (condensed ts).dropWhile isSeparator := by
  induction ts with
  | nil => rfl
  | cons t ts ih =>
    by_cases ht : t.isSeparator
    · rw [List.dropWhile_cons_of_pos ht, condensed, if_pos ht, dropWhile_gapped, ih]
    · rw [List.dropWhile_cons_of_neg ht, condensed, if_neg ht, List.dropWhile_cons_of_neg ht]

theorem eq_cons_of_condensed {t : Token} {ts us : List Token} (ht : ¬ t.isSeparator)
    (h : condensed ts = t :: us) : ∃ ts', ts = t :: ts' ∧ condensed ts' = us := by
  cases ts with
  | nil => cases h
  | cons t' ts' =>
    rw [condensed] at h
    split at h
    · obtain hnil | ⟨us', hcons⟩ := gapped_cases (condensed ts')
      · cases hnil.symm.trans h
      · obtain ⟨rfl, -⟩ := List.cons.inj (hcons.symm.trans h)
        exact absurd rfl ht
    · obtain ⟨rfl, rfl⟩ := List.cons.inj h
      exact ⟨ts', rfl, rfl⟩

end Token

/-- The tokens of a script, with one newline for every run of separators but none at the start and at the
end. -/
def Lexeme.essence (ls : List Lexeme) : List Token :=
  (Token.condensed (ls.map Lexeme.token)).dropWhile Token.isSeparator

/-- Two rows of tokens differ in nothing but their places and their separators, of which there are some in
the same positions. -/
def Alike (ls ls' : List Lexeme) : Prop :=
  Token.condensed (ls.map Lexeme.token) = Token.condensed (ls'.map Lexeme.token)

theorem Alike.symm {ls ls' : List Lexeme} (h : Alike ls ls') : Alike ls' ls := Eq.symm h

theorem map_token_afterGap (ls : List Lexeme) :
    (afterGap ls).map Lexeme.token = (ls.map Lexeme.token).dropWhile Token.isSeparator := by
  rw [List.dropWhile_map]
  rfl

theorem Lexeme.essence_eq (ls : List Lexeme) : essence ls = Token.condensed ((afterGap ls).map token) := by
  rw [map_token_afterGap, Token.condensed_dropWhile]
  rfl

theorem alike_afterGap {ls ls' : List Lexeme} :
    Alike (afterGap ls) (afterGap ls') ↔ Lexeme.essence ls = Lexeme.essence ls' := by
  rw [Lexeme.essence_eq, Lexeme.essence_eq]
  rfl

theorem Alike.afterGap {ls ls' : List Lexeme} (h : Alike ls ls') : Alike (afterGap ls) (TestProgram.afterGap ls') :=
  alike_afterGap.mpr (congrArg (List.dropWhile Token.isSeparator) h)

/-- What is no separator stands in the same position in rows that are alike. -/
theorem Alike.of_cons {l : Lexeme} {ls ls' : List Lexeme} (hl : l.token.endsGap = true) (h : Alike (l :: ls) ls') :
    ∃ l' rest', ls' = l' :: rest' ∧ l'.token = l.token ∧ Alike ls rest' := by
  have hsep : ¬ l.token.isSeparator := by
    rw [Token.endsGap, Bool.not_eq_true'] at hl
    exact ne_true_of_eq_false hl
  have hcondensed : Token.condensed (ls'.map Lexeme.token) = l.token :: Token.condensed (ls.map Lexeme.token) := by
    rw [← show _ = _ from h, List.map_cons, Token.condensed, if_neg hsep]
  obtain ⟨ts', hts', hrest⟩ := Token.eq_cons_of_condensed hsep hcondensed
  obtain ⟨l', rest', rfl, hl', rfl⟩ := List.map_eq_cons_iff.mp hts'
  exact ⟨l', rest', rfl, hl', hrest.symm⟩

/-- After the last item there are separators at most. -/
theorem afterGap_of_alike_nil {ls : List Lexeme} (h : Alike [] ls) : afterGap ls = [] := by
  cases hls : afterGap ls with
  | nil => rfl
  | cons l rest =>
    have hnext : Next Token.endsGap (l :: rest) := hls ▸ Reader.next_afterGap ls
    have halike : Alike (l :: rest) [] := hls ▸ h.afterGap.symm
    obtain ⟨l', rest', hnil, -⟩ := halike.of_cons (Next.cons.mp hnext)
    cases hnil

theorem exists_afterGap (ls : List Lexeme) : ∃ seps : List Separator, ls = lexemes seps ++ afterGap ls := by
  obtain ⟨seps, hseps⟩ := Reader.exists_separators (ls.takeWhile fun l => l.token.isSeparator)
    (List.all_eq_true.mp List.all_takeWhile)
  exact ⟨seps, by rw [hseps]; exact List.takeWhile_append_dropWhile.symm⟩

namespace Phrase

variable {σ τ γ δ : Type} [Phrase σ] [Phrase τ] {F G : List Lexeme → Prop}

/-- Where the tokens of a phrase are laid out in another way there is a phrase of the same meaning, if what
follows them is as it should. -/
def Relaid (F : List Lexeme → Prop) (meaning : τ → γ) (t : τ) : Prop :=
  ∀ rest ls', F rest → Alike (lexemes t ++ rest) ls' →
    ∃ t' rest', ls' = lexemes t' ++ rest' ∧ Alike rest rest' ∧ meaning t' = meaning t

theorem Relaid.mono {g : τ → γ} {g' : τ → δ} {t : τ} (h : Relaid F g t) (hF : ∀ rest, G rest → F rest)
    (hg : ∀ t', g t' = g t → g' t' = g' t) : Relaid G g' t := by
  intro rest ls' hrest halike
  obtain ⟨t', rest', hls', hrest', ht'⟩ := h rest ls' (hF rest hrest) halike
  exact ⟨t', rest', hls', hrest', hg t' ht'⟩

theorem relaid_leaf {α : Type} {fits : Token → Option α} {leaf : Leaf fits} (h : leaf.lexeme.token.endsGap = true) :
    Relaid F Leaf.meaning leaf := by
  intro rest ls' _ halike
  obtain ⟨l', rest', rfl, hl', hrest'⟩ := halike.of_cons h
  exact ⟨⟨l', leaf.meaning, by rw [hl', leaf.fits_token]⟩, rest', rfl, hrest', rfl⟩

theorem relaid_pair {g : σ → γ} {g' : τ → δ} {s : σ} {t : τ} (hs : Relaid F g s) (ht : Relaid G g' t)
    (hnext : ∀ rest, G rest → F (lexemes t ++ rest)) : Relaid G (Prod.map g g') (s, t) := by
  intro rest ls' hrest halike
  rw [lexemes_pair, List.append_assoc] at halike
  obtain ⟨s', rest₁, rfl, halike, hs'⟩ := hs _ _ (hnext rest hrest) halike
  obtain ⟨t', rest', rfl, hrest', ht'⟩ := ht rest _ hrest halike
  exact ⟨(s', t'), rest', (List.append_assoc ..).symm, hrest', Prod.ext hs' ht'⟩

theorem relaid_sum {g : σ → γ} {g' : τ → δ} : ∀ {x : σ ⊕ τ}, (∀ s, x = .inl s → Relaid F g s) →
    (∀ t, x = .inr t → Relaid F g' t) → Relaid F (Sum.map g g') x
  | .inl s, hs, _ => fun rest ls' hrest halike => by
    obtain ⟨s', rest', hls', hrest', hs'⟩ := hs s rfl rest ls' hrest halike
    exact ⟨.inl s', rest', hls', hrest', congrArg Sum.inl hs'⟩
  | .inr t, _, ht => fun rest ls' hrest halike => by
    obtain ⟨t', rest', hls', hrest', ht'⟩ := ht t rfl rest ls' hrest halike
    exact ⟨.inr t', rest', hls', hrest', congrArg Sum.inr ht'⟩

theorem relaid_option {g : τ → γ} : ∀ {o : Option τ}, (∀ t ∈ o, Relaid F g t) → Relaid F (Option.map g) o
  | none, _ => fun _ ls' _ halike => ⟨none, ls', rfl, halike, rfl⟩
  | some t, h => fun rest ls' hrest halike => by
    obtain ⟨t', rest', hls', hrest', ht'⟩ := h t rfl rest ls' hrest halike
    exact ⟨some t', rest', hls', hrest', congrArg some ht'⟩

theorem relaid_list {g : τ → γ} : ∀ {ts : List τ}, (∀ t ∈ ts, Relaid (fun _ => True) g t) →
    Relaid (fun _ => True) (List.map g) ts
  | [], _ => fun _ ls' _ halike => ⟨[], ls', rfl, halike, rfl⟩
  | t :: ts, h => fun rest ls' hrest halike => by
    rw [lexemes_cons, List.append_assoc] at halike
    obtain ⟨t', rest₁, rfl, halike, ht'⟩ := h t List.mem_cons_self _ _ trivial halike
    obtain ⟨ts', rest', rfl, hrest', hts'⟩ :=
      relaid_list (fun t ht => h t (List.mem_cons_of_mem _ ht)) rest _ hrest halike
    refine ⟨t' :: ts', rest', (List.append_assoc ..).symm, hrest', ?_⟩
    rw [List.map_cons, List.map_cons, ht', hts']

theorem relaid_separators (seps : List Separator) : Relaid (Next Token.endsGap) (fun _ => ()) seps := by
  intro rest ls' hrest halike
  have hrest' := halike.afterGap
  rw [afterGap_append, afterGap_of_endsGap hrest] at hrest'
  obtain ⟨seps', hls'⟩ := exists_afterGap ls'
  exact ⟨seps', _, hls', hrest', rfl⟩

/-- A gap stays a gap if something comes after it. -/
theorem relaid_gap (gap : Gap) : Relaid (fun rest => rest ≠ [] ∧ Next Token.endsGap rest) (fun _ => ()) gap := by
  intro rest ls' hrest halike
  obtain ⟨l, rest, rfl⟩ := List.exists_cons_of_ne_nil hrest.1
  have hl : l.token.endsGap = true := Next.cons.mp hrest.2
  obtain ⟨seps', rest', hls', hrest', -⟩ := relaid_separators (gap.1 :: gap.2) (l :: rest) ls' hrest.2 halike
  cases seps' with
  | cons sep seps' => exact ⟨(sep, seps'), rest', hls', hrest', rfl⟩
  | nil =>
    -- Without a separator the row would begin with the token that comes after the gap.
    obtain rfl : ls' = rest' := hls'
    obtain ⟨l', rest', rfl, hl', -⟩ := hrest'.of_cons hl
    obtain ⟨l'', rest'', hcons, hl'', -⟩ := halike.symm.of_cons (hl' ▸ hl)
    obtain rfl : gap.1.lexeme = l'' := (List.cons.inj hcons).1
    have hsep := gap.1.isSeparator
    rw [hl'', hl', ← Bool.not_eq_false', ← Token.endsGap, hl] at hsep
    cases hsep

end Phrase

open Phrase

/-! ## Words, values and arguments -/

theorem Token.endsGap_of_literalOf {t : Token} (h : (Reader.literalOf t).isSome = true) : t.endsGap = true := by
  cases t <;> first | rfl | cases h

section

variable (o : Span) {F : List Lexeme → Prop}

theorem relaid_sign {t : Token} (ht : t.endsGap = true) (s : Sign t) : Relaid F (fun _ => ()) s :=
  (relaid_leaf (by rw [s.token, ht])).mono (fun _ h => h) fun _ _ => rfl

theorem relaid_word (w : WordPhrase) : Relaid F (fun w => (WordPhrase.word w).relocate fun _ => o) w := by
  refine (relaid_leaf (Token.endsGap_of_word? w.fits_isSome)).mono (fun _ h => h) fun w' hw' => ?_
  show Word.mk w'.meaning o = Word.mk w.meaning o
  rw [hw']

theorem relaid_literal (l : LiteralPhrase) : Relaid F (fun l => (LiteralPhrase.value l).relocate fun _ => o) l := by
  refine (relaid_leaf (Token.endsGap_of_literalOf l.fits_isSome)).mono (fun _ h => h) fun l' hl' => ?_
  have hforget : ∀ (l : LiteralPhrase) (s : Span), (l.meaning s).relocate (fun _ => o) = l.meaning o := by
    rintro ⟨⟨t, span⟩, v, hv⟩ s
    cases t <;> cases hv <;> rfl
  show (l'.meaning l'.lexeme.span).relocate _ = (l.meaning l.lexeme.span).relocate _
  rw [hforget, hforget, hl']

theorem relaid_value (v : ValuePhrase) : Relaid F (fun v => (ValuePhrase.value v).relocate fun _ => o) v := by
  refine (relaid_sum (fun l _ => relaid_literal o l) fun w _ => relaid_word o w).mono (fun _ h => h) ?_
  have hvalue : ∀ v : ValuePhrase, (ValuePhrase.value v).relocate (fun _ => o) =
      (Sum.map (fun l => (LiteralPhrase.value l).relocate fun _ => o)
        (fun w => (WordPhrase.word w).relocate fun _ => o) v).elim id .word := by
    rintro (l | w) <;> rfl
  intro v' hv'
  rw [hvalue, hvalue, hv']

theorem relaid_argument (a : ArgumentPhrase) :
    Relaid F (fun a => (ArgumentPhrase.argument a).relocate fun _ => o) a := by
  have hnamed (p : WordPhrase × Option (Sign .equals × ValuePhrase)) :
      Relaid F (Prod.map (fun w => (WordPhrase.word w).relocate fun _ => o)
        (Option.map (Prod.map (fun _ => ()) fun v => (ValuePhrase.value v).relocate fun _ => o))) p :=
    relaid_pair (F := fun _ => True) (relaid_word o p.1) (relaid_option fun v _ =>
      relaid_pair (F := fun _ => True) (relaid_sign rfl v.1) (relaid_value o v.2) fun _ _ => trivial) fun _ _ => trivial
  refine (relaid_sum (fun p _ => hnamed p) fun l _ => relaid_literal o l).mono (fun _ h => h) ?_
  have hargument : ∀ a : ArgumentPhrase, (ArgumentPhrase.argument a).relocate (fun _ => o) =
      (Sum.map (Prod.map (fun w => (WordPhrase.word w).relocate fun _ => o) (Option.map
        (Prod.map (fun _ => ()) fun v => (ValuePhrase.value v).relocate fun _ => o)))
        (fun l => (LiteralPhrase.value l).relocate fun _ => o) a).elim
        (fun p => p.2.elim (.plain (.word p.1)) fun v => .named p.1 v.2) .plain := by
    rintro (⟨key, _ | ⟨equals, v⟩⟩ | l) <;> rfl
  intro a' ha'
  rw [hargument, hargument, ha']

theorem relaid_listed {τ γ : Type} [Phrase τ] {g : τ → γ} (h : ∀ t, Relaid (fun _ => True) g t) (e : Listed τ) :
    Relaid F (fun e => g e.1) e :=
  (relaid_pair (h e.1) (relaid_option fun comma _ => relaid_sign rfl comma) fun _ _ => trivial).mono
    (fun _ h => h) fun _ he' => (Prod.mk.inj he').1

theorem relaid_words (p : WordsPhrase) :
    Relaid (fun _ => True) (fun p => (WordsPhrase.words p).map (Word.relocate fun _ => o)) p := by
  have hentry (e : Listed WordPhrase) := relaid_listed (F := fun _ => True) (relaid_word o) e
  refine (relaid_pair (hentry p.1) (relaid_list fun e _ => hentry e) fun _ _ => trivial).mono (fun _ h => h) ?_
  intro p' hp'
  rw [WordsPhrase.words, List.map_map, WordsPhrase.words, List.map_map]
  exact congrArg (fun m => m.1 :: m.2) hp'

theorem relaid_arguments (p : ArgumentsPhrase) :
    Relaid (fun _ => True) (fun p => (ArgumentsPhrase.arguments p).map (Argument.relocate fun _ => o)) p := by
  refine (relaid_list fun e _ => relaid_listed (relaid_argument o) e).mono (fun _ h => h) fun p' hp' => ?_
  rw [ArgumentsPhrase.arguments, List.map_map, ArgumentsPhrase.arguments, List.map_map]
  exact hp'

end

/-! ## Rows and blocks -/

section

variable {τ γ : Type} [Phrase τ] {g : τ → γ} {F : List Lexeme → Prop}

theorem relaid_row (hworded : Worded τ) {r : Row τ} (h : ∀ t ∈ r.items, Relaid (fun _ => True) g t) :
    Relaid (Next Token.endsGap) (fun r => r.items.map g) r := by
  have hmore : Relaid (fun _ => True) (List.map (Prod.map (fun _ => ()) g)) r.more := by
    refine relaid_list fun (gap, t) ht => relaid_pair (relaid_gap gap)
      (h t (List.mem_cons_of_mem _ (List.mem_map_of_mem ht))) fun rest _ => ⟨?_, ?_⟩
    · obtain ⟨l, ls, hls, -⟩ := hworded t
      rw [hls]
      exact List.cons_ne_nil l _
    · exact hworded.next t rest fun _ => Token.endsGap_of_word?
  have hrow := relaid_pair (h r.first List.mem_cons_self)
    (relaid_pair hmore (relaid_separators r.after) fun _ _ => trivial) fun _ _ => trivial
  intro rest ls' hrest halike
  obtain ⟨⟨first', more', after'⟩, rest', hls', hrest', hmeaning⟩ := hrow rest ls' hrest halike
  refine ⟨⟨first', more', after'⟩, rest', hls', hrest', ?_⟩
  have hitems : ∀ r : Row τ, r.items.map g = g r.first :: (r.more.map (Prod.map (fun _ => ()) g)).map Prod.snd := by
    intro r
    rw [Row.items, List.map_cons, List.map_map, List.map_map]
    rfl
  show (Row.items _).map g = r.items.map g
  rw [hitems, hitems]
  exact congrArg (fun m => m.1 :: m.2.1.map Prod.snd) hmeaning

theorem next_row (hworded : Worded τ) (row : Option (Row τ)) {rest : List Lexeme} (hrest : Next Token.endsGap rest) :
    Next Token.endsGap (lexemes row ++ rest) := by
  cases row with
  | none => exact hrest
  | some r => exact hworded.pair.next (r.first, r.more, r.after) rest fun _ => Token.endsGap_of_word?

theorem relaid_separated (hworded : Worded τ) {s : Separated τ} (h : ∀ t ∈ s.items, Relaid (fun _ => True) g t) :
    Relaid (Next Token.endsGap) (fun s => s.items.map g) s := by
  have hpair := relaid_pair (relaid_separators s.before)
    (relaid_option fun r hr => relaid_row hworded fun t ht => h t (by rwa [Separated.items, hr]))
    fun rest hrest => next_row hworded s.row hrest
  intro rest ls' hrest halike
  obtain ⟨⟨before', row'⟩, rest', hls', hrest', hmeaning⟩ := hpair rest ls' hrest halike
  refine ⟨⟨before', row'⟩, rest', hls', hrest', ?_⟩
  obtain ⟨before, row⟩ := s
  have hrow : row'.map (fun r => r.items.map g) = row.map fun r => r.items.map g := (Prod.mk.inj hmeaning).2
  have hitems : ∀ row : Option (Row τ), (row.elim [] Row.items).map g = (row.map fun r => r.items.map g).getD [] := by
    rintro (_ | r) <;> rfl
  show (row'.elim [] Row.items).map g = (row.elim [] Row.items).map g
  rw [hitems, hitems, hrow]

theorem relaid_block (hworded : Worded τ) {b : Block τ} (h : ∀ t ∈ b.contents.items, Relaid (fun _ => True) g t) :
    Relaid F (fun b => b.contents.items.map g) b := by
  have htuple : Relaid F (Prod.map (fun _ => ()) (Prod.map (fun s : Separated τ => s.items.map g) fun _ => ()))
      (b.opening, b.contents, b.closing) := by
    refine relaid_pair (F := fun _ => True) (relaid_sign rfl b.opening)
      (relaid_pair (relaid_separated hworded h) (relaid_sign rfl b.closing) fun rest _ => ?_) fun _ _ => trivial
    rw [lexemes_leaf, List.singleton_append, Next.cons, b.closing.token]
    rfl
  intro rest ls' hrest halike
  obtain ⟨⟨opening', contents', closing'⟩, rest', hls', hrest', hmeaning⟩ := htuple rest ls' hrest halike
  exact ⟨⟨opening', contents', closing'⟩, rest', hls', hrest', (Prod.mk.inj (Prod.mk.inj hmeaning).2).1⟩

end

/-! ## Statements and scripts -/

section

variable (o : Span)

theorem relaid_statement (s : StatementPhrase) :
    Relaid (fun _ => True) (fun s => s.statement.relocate fun _ => o) s := by
  induction s using StatementPhrase.induct with
  | h head args body ih =>
    have htuple := relaid_pair (F := fun _ => True) (relaid_word o head) (relaid_pair (relaid_arguments o args)
      (relaid_option fun b hb => relaid_block (F := fun _ => True) worded_statement (ih b hb)) fun _ _ => trivial)
      fun _ _ => trivial
    intro rest ls' hrest halike
    rw [StatementPhrase.lexemes_mk] at halike
    obtain ⟨⟨head', args', body'⟩, rest', hls', hrest', hmeaning⟩ := htuple rest ls' hrest halike
    refine ⟨.mk head' args' body', rest', by rw [StatementPhrase.lexemes_mk]; exact hls', hrest', ?_⟩
    have hblock : ∀ body : Option (Block StatementPhrase),
        (body.map fun b => b.contents.items.map StatementPhrase.statement).map
            (List.map (Statement.relocate fun _ => o)) =
          body.map fun b => b.contents.items.map fun s => s.statement.relocate fun _ => o := by
      rintro (_ | b)
      · rfl
      · exact congrArg some List.map_map
    show (StatementPhrase.mk head' args' body').statement.relocate _ =
      (StatementPhrase.mk head args body).statement.relocate _
    rw [StatementPhrase.statement_mk, StatementPhrase.statement_mk, Statement.relocate_mk, Statement.relocate_mk,
      hblock, hblock]
    exact congrArg (fun m => Statement.mk m.1 m.2.1 m.2.2 o) hmeaning

theorem relaid_body (b : Block StatementPhrase) :
    Relaid (fun _ => True) (fun b => b.statements.map (Statement.relocate fun _ => o)) b := by
  refine (relaid_block worded_statement fun s _ => relaid_statement o s).mono (fun _ h => h) fun b' hb' => ?_
  rw [Block.statements, List.map_map, Block.statements, List.map_map]
  exact hb'

/-- A declaration of a name and something else. -/
theorem relaid_named {τ γ : Type} [Phrase τ] {g : τ → γ} {p : WordPhrase × τ} (h : Relaid (fun _ => True) g p.2) :
    Relaid (fun _ => True) (fun p => ((WordPhrase.word p.1).relocate fun _ => o, g p.2)) p :=
  relaid_pair (F := fun _ => True) (relaid_word o p.1) h fun _ _ => trivial

theorem relaid_declared : ∀ (k : Keyword) (p : DeclaredPhrase k),
    Relaid (fun _ => True) (fun p => (DeclaredPhrase.declared k p).relocate fun _ => o) p
  | .pins, p => (relaid_words o p).mono (fun _ h => h) fun _ h => congrArg Declared.pins h
  | .pattern, p => (relaid_named o (relaid_body o p.2)).mono (fun _ h => h)
      fun _ h => congrArg (fun m : Word × List Statement => Declared.pattern m.1 m.2) h
  | .flow, p => (relaid_named o (relaid_body o p.2)).mono (fun _ h => h)
      fun _ h => congrArg (fun m : Word × List Statement => Declared.flow m.1 m.2) h
  | .instances, p => (relaid_named o (relaid_arguments o p.2)).mono (fun _ h => h)
      fun _ h => congrArg (fun m : Word × List Argument => Declared.testInstance m.1 m.2) h
  | .patset, p => (relaid_named o (relaid_words o p.2)).mono (fun _ h => h)
      fun _ h => congrArg (fun m : Word × List Word => Declared.patternSet m.1 m.2) h

theorem endsGap_keyword (keyword : Leaf Reader.keyword?) : keyword.lexeme.token.endsGap = true := by
  obtain ⟨⟨t, span⟩, k, hk⟩ := keyword
  cases t <;> first | rfl | cases hk

theorem relaid_declaration (d : DeclarationPhrase) :
    Relaid (fun _ => True) (fun d => d.declaration.relocate fun _ => o) d := by
  obtain ⟨keyword, content⟩ := d
  intro rest ls' _ halike
  have halike : Alike (lexemes keyword ++ (lexemes content ++ rest)) ls' := halike
  obtain ⟨keyword', rest₁, rfl, hrest₁, hkeyword⟩ :=
    relaid_leaf (F := fun _ => True) (endsGap_keyword keyword) _ ls' trivial halike
  -- The keyword decides which phrases may follow it, so it is the same before they are compared.
  obtain ⟨l, k, hk⟩ := keyword
  obtain ⟨l', k', hk'⟩ := keyword'
  obtain rfl : k' = k := hkeyword
  obtain ⟨content', rest', rfl, hrest', hcontent⟩ := relaid_declared o k' content rest rest₁ trivial hrest₁
  exact ⟨⟨⟨l', k', hk'⟩, content'⟩, rest', rfl, hrest', congrArg (Declaration.mk · o) hcontent⟩

/-- Separators can be put before and after a row of items. -/
theorem Separated.exists_padded {τ : Type} [Phrase τ] (before after : List Separator) (s : Separated τ) :
    ∃ s' : Separated τ, lexemes s' = lexemes before ++ (lexemes s ++ lexemes after) ∧ s'.items = s.items := by
  obtain ⟨before₀, _ | r⟩ := s
  · refine ⟨⟨before ++ before₀ ++ after, none⟩, ?_, rfl⟩
    show List.flatMap lexemes (before ++ before₀ ++ after) ++ [] =
      List.flatMap lexemes before ++ (List.flatMap lexemes before₀ ++ [] ++ List.flatMap lexemes after)
    simp only [List.flatMap_append, List.append_nil, List.append_assoc]
  · refine ⟨⟨before ++ before₀, some { r with after := r.after ++ after }⟩, ?_, rfl⟩
    show List.flatMap lexemes (before ++ before₀) ++
        (lexemes r.first ++ (lexemes r.more ++ List.flatMap lexemes (r.after ++ after))) =
      List.flatMap lexemes before ++ (List.flatMap lexemes before₀ ++
        (lexemes r.first ++ (lexemes r.more ++ List.flatMap lexemes r.after)) ++ List.flatMap lexemes after)
    simp only [List.flatMap_append, List.append_assoc]

/-- Tokens of the same essence as those of a script are those of a script with the same declarations. -/
theorem ScriptPhrase.exists_of_essence {p : ScriptPhrase} {ls : List Lexeme}
    (h : Lexeme.essence (lexemes p) = Lexeme.essence ls) :
    ∃ p' : ScriptPhrase, lexemes p' = ls ∧ (p'.items.map fun d => d.declaration.relocate fun _ => o) =
      p.items.map fun d => d.declaration.relocate fun _ => o := by
  have hrow : afterGap (lexemes p) = lexemes (Separated.mk [] p.row) := by
    have hnext := next_row worded_declaration p.row Next.nil
    rw [List.append_nil] at hnext
    exact (afterGap_append p.before (lexemes p.row)).trans (afterGap_of_endsGap hnext)
  have halike := alike_afterGap.mpr h
  rw [hrow, ← List.append_nil (lexemes (Separated.mk [] p.row))] at halike
  obtain ⟨q, rest, hq, hrest, hitems⟩ :=
    relaid_separated worded_declaration (fun d _ => relaid_declaration o d) [] _ Next.nil halike
  obtain ⟨before, hbefore⟩ := exists_afterGap ls
  obtain ⟨after, hafter⟩ := exists_afterGap rest
  rw [afterGap_of_alike_nil hrest, List.append_nil] at hafter
  obtain ⟨p', hp', hpadded⟩ := q.exists_padded before after
  refine ⟨p', ?_, by rw [hpadded]; exact hitems⟩
  rw [hp', ← hafter, ← hq, ← hbefore]

/-- Tokens of the same essence as those of a script spell the same script up to its places. -/
theorem Script.exists_of_essence {size : Nat} (size' : Nat) {ls ls' : List Lexeme} {s : Script}
    (h : Lexeme.essence ls = Lexeme.essence ls') (hs : ofLexemes size ls = .ok s) :
    ∃ s', ofLexemes size' ls' = .ok s' ∧ (s'.relocate fun _ => o) = s.relocate fun _ => o := by
  obtain ⟨p, rfl, rfl⟩ := exists_of_ofLexemes hs
  obtain ⟨p', rfl, hp'⟩ := ScriptPhrase.exists_of_essence o h
  refine ⟨_, ofLexemes_lexemes size' p', ?_⟩
  rw [relocate, relocate, ScriptPhrase.script, ScriptPhrase.script, List.map_map, List.map_map]
  exact congrArg (Script.mk · o) hp'

end

end TestProgram
