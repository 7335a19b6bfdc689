import TestProgram.Proofs.Script.Readers

/-!
# Reading scripts

Readers of rows and blocks, of statements by induction on the depth of their blocks, and of declarations
take what the grammar says, and nothing else. So a script is read exactly if the grammar derives it
(`Script.ofLexemes_derivation`). The bounds on the length of rows and on the depth of blocks are never
reached, since every item and every level takes a token.
-/

namespace TestProgram

open Phrase (lexemes Worded lexemes_pair lexemes_some lexemes_cons lexemes_leaf)

/-- A row of at least two items is an item, a gap and a row. -/
theorem lexemes_row_cons {τ : Type} [Phrase τ] (first : τ) (gap : Gap) (t : τ) (more : List (Gap × τ))
    (after : List Separator) :
    lexemes (Row.mk first ((gap, t) :: more) after) =
      lexemes first ++ (lexemes (gap.1 :: gap.2) ++ lexemes (Row.mk t more after)) := by
  show lexemes first ++ ((lexemes (gap, t) ++ lexemes more) ++ lexemes after) = _
  rw [List.append_assoc, lexemes_gap_item]
  rfl

namespace Reader

variable {α β σ τ : Type} [Phrase σ] [Phrase τ]

/-! ## Rows -/

theorem exists_separators : ∀ ls : List Lexeme, (∀ l ∈ ls, l.token.isSeparator = true) →
    ∃ seps : List Separator, lexemes seps = ls
  | [], _ => ⟨[], rfl⟩
  | l :: ls, h => by
    obtain ⟨seps, rfl⟩ := exists_separators ls fun l hl => h l (List.mem_cons_of_mem _ hl)
    exact ⟨⟨l, (), if_pos (h l List.mem_cons_self)⟩ :: seps, rfl⟩

theorem stopAfter_cons (stop : Nat) (l : Lexeme) (ls : List Lexeme) :
    stopAfter stop (l :: ls) = (ls.getLastD l).span.stop := by
  induction ls generalizing stop l with
  | nil => rfl
  | cons l' ls ih =>
    rw [List.getLastD_cons]
    exact ih l.span.stop l'

theorem next_afterGap (rest : List Lexeme) : Next Token.endsGap (afterGap rest) := by
  intro l hl
  have hnot := List.head?_dropWhile_not (fun l : Lexeme => l.token.isSeparator) rest
  rw [← afterGap, Option.mem_def.mp hl] at hnot
  rw [Token.endsGap, Bool.not_eq_true']
  exact hnot

/-- Separators are taken as long as there are any. -/
theorem separators_eq (c : Cursor) : ∃ (seps : List Separator) (c' : Cursor),
    separators c = .ok (!seps.isEmpty, c') ∧ c.Passes (lexemes seps) c' ∧ Next Token.endsGap c'.rest := by
  have hsplit : c.rest = (c.rest.takeWhile fun l => l.token.isSeparator) ++ afterGap c.rest :=
    List.takeWhile_append_dropWhile.symm
  have hseparators : ∀ l ∈ c.rest.takeWhile fun l => l.token.isSeparator, l.token.isSeparator = true :=
    List.all_eq_true.mp List.all_takeWhile
  obtain ⟨seps, hseps⟩ := exists_separators _ hseparators
  rw [← hseps] at hsplit
  unfold separators
  rw [← hseps]
  cases seps with
  | nil =>
    refine ⟨[], _, rfl, c.passes_note _, ?_⟩
    rw [show (c.note Expectation.separators).rest = afterGap c.rest from hsplit]
    exact next_afterGap c.rest
  | cons s seps => exact ⟨s :: seps, _, rfl, ⟨hsplit, (stopAfter_cons ..).symm⟩, next_afterGap c.rest⟩

theorem sound_separators : Sound separators fun seps : List Separator => !seps.isEmpty := by
  intro c b c' h
  obtain ⟨seps, c₁, h₁, hpass, -⟩ := separators_eq c
  cases h₁.symm.trans h
  exact ⟨seps, hpass, rfl⟩

theorem takes_separators (seps : List Separator) :
    Takes separators (lexemes seps) (!seps.isEmpty) (Next Token.endsGap) := by
  intro c rest hc hrest
  obtain ⟨seps', c', h, hpass, hnext⟩ := separators_eq c
  obtain rfl := determined_separators seps seps' rest c'.rest (hc.symm.trans hpass.1) hrest hnext
  exact ⟨c', h, hpass⟩

section

variable {item : Reader (Option α)} {f : τ → α}

theorem sound_separatedUpTo (h : Sound item (Option.map f : Option τ → Option α)) :
    ∀ n, Sound (separatedUpTo item n) fun row : Option (Row τ) => (row.elim [] Row.items).map f
  | 0 => fun c as c' h' => by
    obtain ⟨rfl, rfl⟩ := pure_eq_ok.mp h'
    exact ⟨none, .refl _, rfl⟩
  | n + 1 => fun c as c' h' => by
    obtain ⟨found, c₁, h₁, h'⟩ := bind_eq_ok.mp h'
    obtain ⟨t, hpass, rfl⟩ := h _ _ _ h₁
    cases t with
    | none =>
      obtain ⟨rfl, rfl⟩ := pure_eq_ok.mp h'
      exact ⟨none, hpass, rfl⟩
    | some t =>
      obtain ⟨b, c₂, h₂, h'⟩ := bind_eq_ok.mp h'
      obtain ⟨seps, hpass', rfl⟩ := sound_separators _ _ _ h₂
      cases seps with
      | nil =>
        obtain ⟨rfl, rfl⟩ := pure_eq_ok.mp h'
        exact ⟨some ⟨t, [], []⟩, hpass.trans hpass', rfl⟩
      | cons s seps =>
        obtain ⟨as, c₃, h₃, h'⟩ := bind_eq_ok.mp h'
        obtain ⟨rfl, rfl⟩ := pure_eq_ok.mp h'
        obtain ⟨row, hpass'', rfl⟩ := sound_separatedUpTo h n _ _ _ h₃
        have hall := hpass.trans (hpass'.trans hpass'')
        cases row with
        | none =>
          refine ⟨some ⟨t, [], s :: seps⟩, ?_, rfl⟩
          rwa [show lexemes (none : Option (Row τ)) = [] from rfl, List.append_nil] at hall
        | some r =>
          refine ⟨some ⟨t, ((s, seps), r.first) :: r.more, r.after⟩, ?_, rfl⟩
          rw [lexemes_some, lexemes_row_cons]
          exact hall

theorem sound_separated (h : Sound item (Option.map f : Option τ → Option α)) :
    Sound (separated item) fun s : Separated τ => s.items.map f := by
  intro c as c' h'
  obtain ⟨b, c₁, h₁, h'⟩ := bind_eq_ok.mp h'
  obtain ⟨before, hpass, -⟩ := sound_separators _ _ _ h₁
  obtain ⟨row, hpass', rfl⟩ := sound_separatedUpTo h (c₁.rest.length + 1) _ _ _ h'
  exact ⟨⟨before, row⟩, hpass.trans hpass', rfl⟩

/-- A row is taken if all of its items are, wherever they end. -/
theorem takes_separatedUpTo (hworded : Worded τ) (hnone : Takes item [] none (Next Token.isClosing)) :
    ∀ (more : List (Gap × τ)) (first : τ) (after : List Separator) (n : Nat), more.length + 1 < n →
      (∀ t ∈ (Row.mk first more after).items, Takes item (lexemes t) (some (f t)) (Next Token.endsItem)) →
      Takes (separatedUpTo item n) (lexemes (Row.mk first more after)) ((Row.mk first more after).items.map f)
        (Next Token.isClosing)
  | [], first, after, n + 2, hn, h => by
    have hafter : Takes separators (lexemes after) (!after.isEmpty) (Next Token.isClosing) :=
      (takes_separators after).mono fun _ hrest => hrest.mono fun _ => Token.endsGap_of_isClosing
    refine (h first List.mem_cons_self).bind (hafter.bind_nil ?_) fun rest hrest => (atEnd_append after hrest).endsItem
    cases after with
    | nil => exact takes_pure _
    | cons s seps =>
      have hend : Takes (separatedUpTo item (n + 1)) [] [] (Next Token.isClosing) := hnone.bind_nil (takes_pure [])
      exact hend.map fun as => f first :: as
  | ((s, seps), t) :: more, first, after, n + 1, hn, h => by
    have hrow := takes_separatedUpTo hworded hnone more t after n (Nat.lt_of_succ_lt_succ hn)
      fun u hu => h u (List.mem_cons_of_mem _ hu)
    have hnext (rest : List Lexeme) : Next Token.endsGap (lexemes (Row.mk t more after) ++ rest) :=
      hworded.pair.next (t, more, after) rest fun _ => Token.endsGap_of_word?
    rw [lexemes_row_cons]
    refine (h first List.mem_cons_self).bind ((takes_separators (s :: seps)).bind
      (hrow.map fun as => f first :: as) fun rest _ => hnext rest) fun rest _ => ?_
    exact Next.cons.mpr (Token.endsItem_of_isSeparator s.isSeparator)

theorem takes_separated (hworded : Worded τ) (hnone : Takes item [] none (Next Token.isClosing)) {s : Separated τ}
    (h : ∀ t ∈ s.items, Takes item (lexemes t) (some (f t)) (Next Token.endsItem)) :
    Takes (separated item) (lexemes s) (s.items.map f) (Next Token.isClosing) := by
  intro c rest hc hrest
  obtain ⟨before, row⟩ := s
  have hc : c.rest = lexemes before ++ (lexemes row ++ rest) := hc.trans (List.append_assoc ..)
  have hnext : Next Token.endsGap (lexemes row ++ rest) := by
    cases row with
    | none => exact hrest.mono fun _ => Token.endsGap_of_isClosing
    | some r => exact hworded.pair.next (r.first, r.more, r.after) rest fun _ => Token.endsGap_of_word?
  obtain ⟨c₁, h₁, hpass⟩ := takes_separators before c _ hc hnext
  have hrow : Takes (separatedUpTo item (c₁.rest.length + 1)) (lexemes row) ((row.elim [] Row.items).map f)
      (Next Token.isClosing) := by
    cases row with
    | none => exact hnone.bind_nil (takes_pure [])
    | some r =>
      refine takes_separatedUpTo hworded hnone r.more r.first r.after _ (Nat.succ_lt_succ ?_) h
      have hfirst : (lexemes r.first).length ≠ 0 := by
        obtain ⟨l, ls, ht, -⟩ := hworded r.first
        rw [ht]
        exact Nat.succ_ne_zero _
      have hmore := length_le_lexemes (fun p : Gap × τ => List.cons_ne_nil _ _) r.more
      have hlength : (lexemes (some r)).length =
          (lexemes r.first).length + ((lexemes r.more).length + (lexemes r.after).length) := by
        show (lexemes r.first ++ (lexemes r.more ++ lexemes r.after)).length = _
        rw [List.length_append, List.length_append]
      rw [hpass.rest_eq hc, List.length_append, hlength]
      omega
  obtain ⟨c₂, h₂, hpass'⟩ := hrow c₁ rest (hpass.rest_eq hc) hrest
  exact ⟨c₂, bind_eq_ok.mpr ⟨_, c₁, h₁, h₂⟩, hpass.trans hpass'⟩

end

/-! ## Statements -/

theorem sound_inside {statement? : Reader (Option Statement)} {f : τ → Statement}
    (h : Sound statement? (Option.map f : Option τ → Option Statement)) :
    Sound (inside statement?) fun p : Separated τ × Sign .closing => p.1.items.map f := by
  intro c body c' h'
  obtain ⟨body, c₁, h₁, h'⟩ := bind_eq_ok.mp h'
  obtain ⟨⟨⟩, c₂, h₂, h'⟩ := bind_eq_ok.mp h'
  obtain ⟨rfl, rfl⟩ := pure_eq_ok.mp h'
  obtain ⟨s, hpass, rfl⟩ := sound_separated h _ _ _ h₁
  obtain ⟨closing, hpass', -⟩ := sound_require _ _ _ h₂
  exact ⟨(s, closing), hpass.trans hpass', rfl⟩

theorem takes_inside {statement? : Reader (Option Statement)} {f : τ → Statement} (hworded : Worded τ)
    (hnone : Takes statement? [] none (Next Token.isClosing)) {s : Separated τ} (closing : Sign .closing)
    (h : ∀ t ∈ s.items, Takes statement? (lexemes t) (some (f t)) (Next Token.endsItem)) {F : List Lexeme → Prop} :
    Takes (inside statement?) (lexemes (s, closing)) (s.items.map f) F := by
  refine (takes_separated hworded hnone h).bind ((takes_require closing).bind_nil (takes_pure _)) fun rest _ => ?_
  rw [lexemes_leaf, List.singleton_append, Next.cons, closing.token]
  rfl

theorem sound_block? {statement? : Reader (Option Statement)} {f : τ → Statement}
    (h : Sound statement? (Option.map f : Option τ → Option Statement)) :
    Sound (block? statement?) fun body : Option (Block τ) => body.map fun b => b.contents.items.map f := by
  intro c o c' h'
  obtain ⟨b, c₁, h₁, h'⟩ := bind_eq_ok.mp h'
  obtain ⟨opening, hpass, rfl⟩ := sound_sign _ _ _ h₁
  cases opening with
  | none =>
    obtain ⟨rfl, rfl⟩ := pure_eq_ok.mp h'
    exact ⟨none, hpass, rfl⟩
  | some opening =>
    obtain ⟨body, c₂, h₂, h'⟩ := bind_eq_ok.mp h'
    obtain ⟨rfl, rfl⟩ := pure_eq_ok.mp h'
    obtain ⟨⟨s, closing⟩, hpass', rfl⟩ := sound_inside h _ _ _ h₂
    exact ⟨some ⟨opening, s, closing⟩, hpass.trans hpass', rfl⟩

theorem takes_block? {statement? : Reader (Option Statement)} {f : τ → Statement} (hworded : Worded τ)
    (hnone : Takes statement? [] none (Next Token.isClosing)) {body : Option (Block τ)}
    (h : ∀ b ∈ body, ∀ t ∈ b.contents.items, Takes statement? (lexemes t) (some (f t)) (Next Token.endsItem)) :
    Takes (block? statement?) (lexemes body) (body.map fun b => b.contents.items.map f) (Next Token.endsItem) := by
  cases body with
  | none =>
    refine Takes.bind_nil (takes_sign_none fun u hu => ?_) (takes_pure none)
    rintro rfl
    cases hu
  | some b =>
    have hinside := takes_inside hworded hnone b.closing (h b rfl) (F := Next Token.endsItem)
    exact (takes_sign b.opening (F := fun _ => True)).bind (hinside.map some) fun _ _ => trivial

/-- Statements are sound, whatever the bound on their depth. -/
theorem sound_statement? : ∀ depth, Sound (statement? depth) (Option.map StatementPhrase.statement)
  | 0 => fun c o c' h => by
    obtain ⟨rfl, rfl⟩ := pure_eq_ok.mp h
    exact ⟨none, .refl _, rfl⟩
  | depth + 1 => fun c o c' h => by
    obtain ⟨found, c₁, h₁, h⟩ := bind_eq_ok.mp h
    obtain ⟨head, hpass, rfl⟩ := sound_word? _ _ _ h₁
    cases head with
    | none =>
      obtain ⟨rfl, rfl⟩ := pure_eq_ok.mp h
      exact ⟨none, hpass, rfl⟩
    | some head =>
      obtain ⟨as, c₂, h₂, h⟩ := bind_eq_ok.mp h
      obtain ⟨args, hpass', rfl⟩ := sound_args _ _ _ h₂
      obtain ⟨block, c₃, h₃, h⟩ := bind_eq_ok.mp h
      obtain ⟨body, hpass'', rfl⟩ := sound_block? (sound_statement? depth) _ _ _ h₃
      obtain ⟨c₄, c₅, h₄, h⟩ := bind_eq_ok.mp h
      obtain ⟨rfl, rfl⟩ := pure_eq_ok.mp h
      cases h₄
      have hall := hpass.trans (hpass'.trans hpass'')
      refine ⟨some (.mk head args body), ?_, ?_⟩
      · rw [lexemes_some, StatementPhrase.lexemes_mk]
        exact hall
      · rw [Option.map_some, StatementPhrase.statement_mk, hall.2]
        rfl

theorem takes_statement?_none : ∀ depth, Takes (statement? depth) [] none (Next Token.isClosing)
  | 0 => takes_pure none
  | _ + 1 => by
    refine Takes.bind_nil (takes_word?_none fun t ht => ?_) (takes_pure none)
    exact word?_of_endsEntries (Token.endsEntries_of_endsItem (Token.endsItem_of_isClosing ht))

/-- A statement is taken if it has no more tokens than there may be levels of blocks. -/
theorem takes_statement? (s : StatementPhrase) : ∀ depth, (lexemes s).length ≤ depth →
    Takes (statement? depth) (lexemes s) (some s.statement) (Next Token.endsItem) := by
  induction s using StatementPhrase.induct with
  | h head args body ih =>
    rintro (_ | depth) hdepth
    · exact absurd hdepth (Nat.not_succ_le_zero _)
    have hbody := takes_block? worded_statement (takes_statement?_none depth) (f := StatementPhrase.statement)
      fun b hb t ht => ih b hb t ht depth (by
        obtain rfl : body = some b := hb
        have hlt : (lexemes t).length < (lexemes (StatementPhrase.mk head args (some b))).length :=
          StatementPhrase.length_lt ht
        omega)
    intro c rest hc hrest
    rw [StatementPhrase.lexemes_mk, lexemes_pair, lexemes_pair, List.append_assoc, List.append_assoc] at hc
    obtain ⟨c₁, h₁, hpass⟩ := takes_word? head (F := fun _ => True) c _ hc trivial
    have hargs : Next Token.endsEntries (lexemes body ++ rest) := by
      cases body with
      | none => exact hrest.mono fun _ => Token.endsEntries_of_endsItem
      | some b =>
        refine Next.cons.mpr ?_
        rw [b.opening.token]
        rfl
    obtain ⟨c₂, h₂, hpass'⟩ := takes_args args c₁ _ (hpass.rest_eq hc) hargs
    obtain ⟨c₃, h₃, hpass''⟩ := hbody c₂ rest (hpass'.rest_eq (hpass.rest_eq hc)) hrest
    have hall := hpass.trans (hpass'.trans hpass'')
    refine ⟨c₃, ?_, by rw [StatementPhrase.lexemes_mk]; exact hall⟩
    rw [StatementPhrase.statement_mk]
    refine bind_eq_ok.mpr ⟨_, c₁, h₁, bind_eq_ok.mpr ⟨_, c₂, h₂, bind_eq_ok.mpr ⟨_, c₃, h₃, ?_⟩⟩⟩
    refine bind_eq_ok.mpr ⟨c₃, c₃, rfl, pure_eq_ok.mpr ⟨?_, rfl⟩⟩
    rw [hall.2]
    rfl

theorem sound_body : Sound body Block.statements := by
  intro c b c' h
  obtain ⟨⟨⟩, c₁, h₁, h⟩ := bind_eq_ok.mp h
  obtain ⟨opening, hpass, -⟩ := sound_require _ _ _ h₁
  obtain ⟨c₂, c₃, h₂, h⟩ := bind_eq_ok.mp h
  cases h₂
  obtain ⟨⟨s, closing⟩, hpass', rfl⟩ := sound_inside (sound_statement? (c₁.rest.length + 1)) _ _ _ h
  exact ⟨⟨opening, s, closing⟩, hpass.trans hpass', rfl⟩

theorem takes_body (b : Block StatementPhrase) {F : List Lexeme → Prop} :
    Takes body (lexemes b) b.statements F := by
  intro c rest hc hrest
  have hc : c.rest = lexemes b.opening ++ (lexemes (b.contents, b.closing) ++ rest) := hc
  obtain ⟨c₁, h₁, hpass⟩ := takes_require b.opening (F := fun _ => True) c _ hc trivial
  have hinside := takes_inside worded_statement (takes_statement?_none (c₁.rest.length + 1)) b.closing
    (f := StatementPhrase.statement) (F := F) fun t ht => takes_statement? t _ (by
      have hle : (lexemes t).length ≤ (lexemes b.contents).length := (Separated.sublist_of_mem ht).length_le
      rw [hpass.rest_eq hc, lexemes_pair, List.length_append, List.length_append]
      omega)
  obtain ⟨c₂, h₂, hpass'⟩ := hinside c₁ rest (hpass.rest_eq hc) hrest
  exact ⟨c₂, bind_eq_ok.mpr ⟨(), c₁, h₁, bind_eq_ok.mpr ⟨c₁, c₁, rfl, h₂⟩⟩, hpass.trans hpass'⟩

/-! ## Declarations -/

theorem sound_named {r : Reader α} {f : τ → α} {g : Word → α → β} (h : Sound r f) :
    Sound (do let name ← word; let a ← r; pure (g name a) : Reader β)
      fun p : WordPhrase × τ => g (WordPhrase.word p.1) (f p.2) := by
  intro c b c' h'
  obtain ⟨name, c₁, h₁, h'⟩ := bind_eq_ok.mp h'
  obtain ⟨a, c₂, h₂, h'⟩ := bind_eq_ok.mp h'
  obtain ⟨rfl, rfl⟩ := pure_eq_ok.mp h'
  obtain ⟨w, hpass, rfl⟩ := sound_word _ _ _ h₁
  obtain ⟨t, hpass', rfl⟩ := h _ _ _ h₂
  exact ⟨(w, t), hpass.trans hpass', rfl⟩

theorem takes_named {r : Reader α} {f : τ → α} {g : Word → α → β} {F : List Lexeme → Prop} {p : WordPhrase × τ}
    (h : Takes r (lexemes p.2) (f p.2) F) :
    Takes (do let name ← word; let a ← r; pure (g name a) : Reader β) (lexemes p)
      (g (WordPhrase.word p.1) (f p.2)) F :=
  (takes_word p.1 (F := fun _ => True)).bind (h.map fun a => g (WordPhrase.word p.1) a) fun _ _ => trivial

theorem sound_declared : ∀ k, Sound (declared k) (DeclaredPhrase.declared k)
  | .pins => fun c d c' h => by
    obtain ⟨names, c₁, h₁, h⟩ := bind_eq_ok.mp h
    obtain ⟨rfl, rfl⟩ := pure_eq_ok.mp h
    obtain ⟨p, hpass, rfl⟩ := sound_words _ _ _ h₁
    exact ⟨p, hpass, rfl⟩
  | .pattern => sound_named sound_body
  | .flow => sound_named sound_body
  | .instances => sound_named sound_args
  | .patset => sound_named sound_words

theorem takes_declared : ∀ (k : Keyword) (p : DeclaredPhrase k),
    Takes (declared k) (lexemes p) (p.declared k) (Next Token.endsItem)
  | .pins, p => ((takes_words p).map Declared.pins).mono fun _ h => h.mono fun _ => Token.endsEntries_of_endsItem
  | .pattern, p => takes_named (takes_body p.2)
  | .flow, p => takes_named (takes_body p.2)
  | .instances, p => (takes_named (takes_args p.2)).mono fun _ h => h.mono fun _ => Token.endsEntries_of_endsItem
  | .patset, p => (takes_named (takes_words p.2)).mono fun _ h => h.mono fun _ => Token.endsEntries_of_endsItem

theorem sound_declaration? : Sound declaration? (Option.map DeclarationPhrase.declaration) := by
  intro c o c' h
  obtain ⟨found, c₁, h₁, h⟩ := bind_eq_ok.mp h
  obtain ⟨keyword, hpass, rfl⟩ := sound_take? _ _ _ h₁
  cases keyword with
  | none =>
    obtain ⟨rfl, rfl⟩ := pure_eq_ok.mp h
    exact ⟨none, hpass, rfl⟩
  | some keyword =>
    obtain ⟨content, c₂, h₂, h⟩ := bind_eq_ok.mp h
    obtain ⟨c₃, c₄, h₃, h⟩ := bind_eq_ok.mp h
    obtain ⟨rfl, rfl⟩ := pure_eq_ok.mp h
    cases h₃
    obtain ⟨content, hpass', rfl⟩ := sound_declared _ _ _ _ h₂
    have hall := hpass.trans hpass'
    refine ⟨some ⟨keyword, content⟩, hall, ?_⟩
    rw [hall.2]
    rfl

theorem takes_declaration?_none : Takes declaration? [] none (Next Token.isClosing) := by
  refine Takes.bind_nil (takes_take?_none fun t ht => ?_) (takes_pure none)
  cases t <;> first | rfl | cases ht

theorem takes_declaration? (d : DeclarationPhrase) :
    Takes declaration? (lexemes d) (some d.declaration) (Next Token.endsItem) := by
  intro c rest hc hrest
  obtain ⟨keyword, content⟩ := d
  have hc : c.rest = lexemes keyword ++ (lexemes content ++ rest) := hc
  have htake : Takes (take? (Keyword.all.map fun k => .token (.keyword k)) keyword?) (lexemes keyword)
      (some (keyword.meaning, keyword.lexeme.span)) fun _ => True := takes_take? keyword
  obtain ⟨c₁, h₁, hpass⟩ := htake c _ hc trivial
  obtain ⟨c₂, h₂, hpass'⟩ := takes_declared _ content c₁ rest (hpass.rest_eq hc) hrest
  have hall := hpass.trans hpass'
  refine ⟨c₂, bind_eq_ok.mpr ⟨_, c₁, h₁, bind_eq_ok.mpr ⟨_, c₂, h₂, ?_⟩⟩, hall⟩
  refine bind_eq_ok.mpr ⟨c₂, c₂, rfl, pure_eq_ok.mpr ⟨?_, rfl⟩⟩
  rw [hall.2]
  rfl

theorem finish_eq_ok {c c' : Cursor} : finish c = .ok ((), c') ↔ c.rest = [] ∧ c = c' := by
  unfold finish
  cases hc : c.rest with
  | nil => exact ⟨fun h => ⟨rfl, (Prod.mk.inj (Except.ok.inj h)).2⟩, fun h => by rw [h.2]⟩
  | cons l ls => exact ⟨nofun, nofun⟩

end Reader

namespace Script

theorem exists_of_ofLexemes {size : Nat} {ls : List Lexeme} {s : Script} (h : ofLexemes size ls = .ok s) :
    ∃ p : ScriptPhrase, lexemes p = ls ∧ ScriptPhrase.script size p = s := by
  unfold ofLexemes at h
  obtain ⟨⟨ds, c⟩, hread, h⟩ := TestProgram.bind_eq_ok.mp h
  obtain ⟨ds, c₁, hrow, hread⟩ := Reader.bind_eq_ok.mp hread
  obtain ⟨⟨⟩, c₂, hfinish, hread⟩ := Reader.bind_eq_ok.mp hread
  obtain ⟨rfl, rfl⟩ := Reader.pure_eq_ok.mp hread
  obtain ⟨hend, rfl⟩ := Reader.finish_eq_ok.mp hfinish
  obtain ⟨p, hpass, rfl⟩ := Reader.sound_separated Reader.sound_declaration? _ _ _ hrow
  have htokens : ls = lexemes p ++ c₁.rest := hpass.1
  rw [hend, List.append_nil] at htokens
  refine ⟨p, htokens.symm, ?_⟩
  obtain rfl := Except.ok.inj h
  rw [hpass.2, ScriptPhrase.script, htokens]
  cases lexemes p <;> rfl

theorem ofLexemes_lexemes (size : Nat) (p : ScriptPhrase) :
    ofLexemes size (lexemes p) = .ok (ScriptPhrase.script size p) := by
  have htakes : Reader.Takes (Reader.separated Reader.declaration?) (lexemes p)
      (p.items.map DeclarationPhrase.declaration) (Next Token.isClosing) :=
    Reader.takes_separated worded_declaration Reader.takes_declaration?_none fun d _ => Reader.takes_declaration? d
  obtain ⟨c, hrow, hpass⟩ := htakes ⟨lexemes p, size, []⟩ [] (List.append_nil _).symm Next.nil
  have hend : c.rest = [] := hpass.rest_eq (List.append_nil _).symm
  have hread : Reader.declarations ⟨lexemes p, size, []⟩ = .ok (p.items.map DeclarationPhrase.declaration, c) :=
    Reader.bind_eq_ok.mpr ⟨_, c, hrow, Reader.bind_eq_ok.mpr ⟨(), c, Reader.finish_eq_ok.mpr ⟨hend, rfl⟩, rfl⟩⟩
  unfold ofLexemes
  refine TestProgram.bind_eq_ok.mpr ⟨_, hread, congrArg Except.ok ?_⟩
  rw [hpass.2, ScriptPhrase.script]
  cases lexemes p <;> rfl

theorem ofTokens_of_ofSource {source : String} {s : Script} (h : ofSource source = .ok s) :
    ofTokens source = .ok s := by
  unfold ofSource at h
  split at h
  · rename_i htokens
    obtain rfl := Except.ok.inj h
    exact htokens
  · cases h

/-- A row of tokens is read as a script exactly if the grammar derives it, and the script is what the
derivation stands for. There is one derivation at most. -/
theorem ofLexemes_derivation (size : Nat) (ls : List Lexeme) :
    (∀ s, ofLexemes size ls = .ok s ↔ ∃ p : ScriptPhrase, lexemes p = ls ∧ ScriptPhrase.script size p = s) ∧
    ∀ p p' : ScriptPhrase, lexemes p = ls → lexemes p' = ls → p = p' := by
  refine ⟨fun s => ⟨exists_of_ofLexemes, ?_⟩, fun p p' hp hp' => ScriptPhrase.eq_of_lexemes (hp.trans hp'.symm)⟩
  rintro ⟨p, rfl, rfl⟩
  exact ofLexemes_lexemes size p

end Script

end TestProgram
