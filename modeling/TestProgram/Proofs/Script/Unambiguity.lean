import TestProgram.Proofs.Script.Grammar

/-!
# Phrases and their tokens

Tokens have one derivation at most: phrases of scripts with the same tokens are equal
(`ScriptPhrase.eq_of_lexemes`). A phrase inside of another one ends where its tokens and the token after
them say (`Phrase.Determined`), first for the parts of lists and rows, whatever their items are, then for
words and arguments, and for statements by induction on their nesting.
-/

namespace TestProgram

open Phrase (lexemes)

/-- The next token, if there is one, belongs to a class. -/
def Next (p : Token → Bool) (rest : List Lexeme) : Prop := ∀ l ∈ rest.head?, p l.token = true

namespace Next

variable {p q : Token → Bool} {l : Lexeme} {rest : List Lexeme}

@[simp]
theorem nil : Next p [] := nofun

@[simp]
theorem cons : Next p (l :: rest) ↔ p l.token = true := by
  simp [Next]

theorem mono (h : Next p rest) (hpq : ∀ t, p t = true → q t = true) : Next q rest :=
  fun l hl => hpq l.token (h l hl)

end Next

namespace Token

/-- Does not make a pair of the word before it. -/
def endsArgument : Token → Bool
  | equals => false
  | _ => true

/-- Does not belong to the entry of a list before it. -/
def endsEntry : Token → Bool
  | comma | equals => false
  | _ => true

/-- Ends a list of words or arguments. -/
def endsEntries : Token → Bool
  | opening | closing | semicolon | newline => true
  | _ => false

/-- Ends a statement or a declaration. -/
def endsItem : Token → Bool
  | closing | semicolon | newline => true
  | _ => false

def isClosing : Token → Bool
  | closing => true
  | _ => false

/-- Ends a row of separators. -/
def endsGap (t : Token) : Bool := !t.isSeparator

variable {t : Token}

theorem endsArgument_of_endsEntry (h : t.endsEntry = true) : t.endsArgument = true := by
  cases t <;> first | rfl | cases h

theorem endsEntry_of_endsEntries (h : t.endsEntries = true) : t.endsEntry = true := by
  cases t <;> first | rfl | cases h

theorem endsEntries_of_endsItem (h : t.endsItem = true) : t.endsEntries = true := by
  cases t <;> first | rfl | cases h

theorem endsItem_of_isClosing (h : t.isClosing = true) : t.endsItem = true := by
  cases t <;> first | rfl | cases h

theorem endsItem_of_isSeparator (h : t.isSeparator = true) : t.endsItem = true := by
  cases t <;> first | rfl | cases h

theorem endsGap_of_isClosing (h : t.isClosing = true) : t.endsGap = true := by
  cases t <;> first | rfl | cases h

theorem endsGap_of_word? (h : t.word?.isSome = true) : t.endsGap = true := by
  cases t <;> first | rfl | cases h

theorem isClosing_of_word? (h : t.word?.isSome = true) : t.isClosing = false := by
  cases t <;> first | rfl | cases h

theorem endsEntry_of_word? (h : t.word?.isSome = true) : t.endsEntry = true := by
  cases t <;> first | rfl | cases h

theorem endsEntries_of_word? (h : t.word?.isSome = true) : t.endsEntries = false := by
  cases t <;> first | rfl | cases h

theorem word?_of_literalOf (h : (Reader.literalOf t).isSome = true) : t.word?.isSome = false := by
  cases t <;> first | rfl | cases h

theorem endsEntry_of_literalOf (h : (Reader.literalOf t).isSome = true) : t.endsEntry = true := by
  cases t <;> first | rfl | cases h

theorem endsEntries_of_literalOf (h : (Reader.literalOf t).isSome = true) : t.endsEntries = false := by
  cases t <;> first | rfl | cases h

end Token

/-! ## Leaves -/

namespace Leaf

variable {α : Type} {fits : Token → Option α}

theorem fits_isSome (leaf : Leaf fits) : (fits leaf.lexeme.token).isSome = true :=
  Option.isSome_of_eq_some leaf.fits_token

theorem eq_of_lexeme {leaf leaf' : Leaf fits} (h : leaf.lexeme = leaf'.lexeme) : leaf = leaf' := by
  obtain ⟨l, a, hl⟩ := leaf
  obtain ⟨l', a', hl'⟩ := leaf'
  obtain rfl : l = l' := h
  obtain rfl : a = a' := Option.some.inj (hl.symm.trans hl')
  rfl

end Leaf

theorem Sign.token {t : Token} (s : Sign t) : s.lexeme.token = t := by
  have h : (if s.lexeme.token = t then some () else none) = some s.meaning := s.fits_token
  split at h
  · assumption
  · cases h

theorem Separator.isSeparator (s : Separator) : s.lexeme.token.isSeparator = true := by
  have h : (if s.lexeme.token.isSeparator then some () else none) = some s.meaning := s.fits_token
  split at h
  · assumption
  · cases h

/-! ## Where phrases end -/

namespace Phrase

variable {σ τ : Type} [Phrase σ] [Phrase τ] {F G : List Lexeme → Prop}

/-- No other phrase has the tokens with which this one begins a row, if what follows is as it should. -/
def Determined (F : List Lexeme → Prop) (t : τ) : Prop :=
  ∀ t' : τ, ∀ rest rest', lexemes t ++ rest = lexemes t' ++ rest' → F rest → F rest' → t = t'

/-- All phrases begin with a word. -/
def Worded (τ : Type) [Phrase τ] : Prop :=
  ∀ t : τ, ∃ l ls, lexemes t = l :: ls ∧ l.token.word?.isSome = true

theorem lexemes_pair (s : σ) (t : τ) : lexemes (s, t) = lexemes s ++ lexemes t := rfl

theorem lexemes_some (t : τ) : lexemes (some t) = lexemes t := rfl

theorem lexemes_cons (t : τ) (ts : List τ) : lexemes (t :: ts) = lexemes t ++ lexemes ts := rfl

theorem lexemes_leaf {α : Type} {fits : Token → Option α} (leaf : Leaf fits) : lexemes leaf = [leaf.lexeme] := rfl

theorem Determined.mono {t : τ} (h : Determined F t) (hG : ∀ rest, G rest → F rest) : Determined G t :=
  fun t' rest rest' heq hrest hrest' => h t' rest rest' heq (hG rest hrest) (hG rest' hrest')

theorem determined_leaf {α : Type} {fits : Token → Option α} (leaf : Leaf fits) : Determined F leaf :=
  fun _ _ _ h _ _ => Leaf.eq_of_lexeme (List.cons.inj h).1

theorem determined_pair {s : σ} {t : τ} (hs : Determined F s) (ht : Determined G t)
    (hnext : ∀ (t : τ) rest, G rest → F (lexemes t ++ rest)) : Determined G (s, t) := by
  intro ⟨s', t'⟩ rest rest' h hrest hrest'
  rw [lexemes_pair, lexemes_pair, List.append_assoc, List.append_assoc] at h
  obtain rfl := hs s' _ _ h (hnext t rest hrest) (hnext t' rest' hrest')
  obtain rfl := ht t' rest rest' (List.append_cancel_left h) hrest hrest'
  rfl

theorem determined_option {o : Option τ} (h : ∀ t ∈ o, Determined F t)
    (hapart : ∀ (t : τ) rest, ¬ F (lexemes t ++ rest)) : Determined F o := by
  intro o' rest rest' heq hrest hrest'
  cases o with
  | none =>
    cases o' with
    | none => rfl
    | some t' => exact absurd ((show rest = _ from heq) ▸ hrest) (hapart t' rest')
  | some t =>
    cases o' with
    | none => exact absurd ((show rest' = _ from heq.symm) ▸ hrest') (hapart t rest)
    | some t' => exact congrArg some (h t rfl t' rest rest' heq hrest hrest')

/-- A list ends where no further item begins. Each item ends where another one or the end comes. -/
theorem determined_list {ts : List τ} (h : ∀ t ∈ ts, Determined F t)
    (hapart : ∀ (t : τ) rest, ¬ G (lexemes t ++ rest)) (hend : ∀ rest, G rest → F rest)
    (hitem : ∀ (t : τ) rest, F (lexemes t ++ rest)) : Determined G ts := by
  have hnext : ∀ (ts : List τ) rest, G rest → F (lexemes ts ++ rest) := by
    intro ts rest hrest
    cases ts with
    | nil => exact hend rest hrest
    | cons t ts =>
      rw [lexemes_cons, List.append_assoc]
      exact hitem t _
  induction ts with
  | nil =>
    intro ts' rest rest' heq hrest hrest'
    cases ts' with
    | nil => rfl
    | cons t' ts' =>
      rw [lexemes_cons, List.append_assoc] at heq
      exact absurd ((show rest = _ from heq) ▸ hrest) (hapart t' _)
  | cons t ts ih =>
    intro ts' rest rest' heq hrest hrest'
    cases ts' with
    | nil =>
      rw [lexemes_cons, List.append_assoc] at heq
      exact absurd ((show rest' = _ from heq.symm) ▸ hrest') (hapart t _)
    | cons t' ts' =>
      rw [lexemes_cons, lexemes_cons, List.append_assoc, List.append_assoc] at heq
      obtain rfl := h t List.mem_cons_self t' _ _ heq (hnext ts rest hrest) (hnext ts' rest' hrest')
      obtain rfl := ih (fun t ht => h t (List.mem_cons_of_mem _ ht)) ts' rest rest' (List.append_cancel_left heq)
        hrest hrest'
      rfl

theorem determined_sum {x : σ ⊕ τ} (hs : ∀ s, x = .inl s → Determined F s) (ht : ∀ t, x = .inr t → Determined F t)
    (hapart : ∀ (s : σ) (t : τ) rest rest', lexemes s ++ rest ≠ lexemes t ++ rest') : Determined F x := by
  intro x' rest rest' heq hrest hrest'
  cases x with
  | inl s =>
    cases x' with
    | inl s' => exact congrArg Sum.inl (hs s rfl s' rest rest' heq hrest hrest')
    | inr t' => exact absurd heq (hapart s t' rest rest')
  | inr t =>
    cases x' with
    | inl s' => exact absurd heq.symm (hapart s' t rest' rest)
    | inr t' => exact congrArg Sum.inr (ht t rfl t' rest rest' heq hrest hrest')

end Phrase

open Phrase

/-! ## Words, values and arguments -/

theorem worded_word : Worded WordPhrase := fun w => ⟨w.lexeme, [], rfl, w.fits_isSome⟩

/-- A list of words begins with a word, and so do arguments of the form `key=value`. -/
theorem Phrase.Worded.pair {σ τ : Type} [Phrase σ] [Phrase τ] (h : Worded σ) : Worded (σ × τ) := by
  intro ⟨s, t⟩
  obtain ⟨l, ls, hs, hl⟩ := h s
  exact ⟨l, ls ++ lexemes t, by rw [lexemes_pair, hs, List.cons_append], hl⟩

theorem Phrase.Worded.next {τ : Type} [Phrase τ] (h : Worded τ) {p : Token → Bool} (t : τ) (rest : List Lexeme)
    (hp : ∀ u : Token, u.word?.isSome = true → p u = true) : Next p (lexemes t ++ rest) := by
  obtain ⟨l, ls, ht, hl⟩ := h t
  rw [ht, List.cons_append, Next.cons]
  exact hp l.token hl

theorem Phrase.Worded.not_next {τ : Type} [Phrase τ] (h : Worded τ) {p : Token → Bool} (t : τ) (rest : List Lexeme)
    (hp : ∀ u : Token, u.word?.isSome = true → p u = false) : ¬ Next p (lexemes t ++ rest) := by
  obtain ⟨l, ls, ht, hl⟩ := h t
  rw [ht, List.cons_append, Next.cons, hp l.token hl]
  exact Bool.false_ne_true

/-- A literal is no word. -/
theorem literal_append_ne {τ : Type} [Phrase τ] (h : Worded τ) (l : LiteralPhrase) (t : τ) (rest rest' : List Lexeme) :
    lexemes t ++ rest ≠ lexemes l ++ rest' := by
  obtain ⟨l', ls, ht, hl'⟩ := h t
  intro heq
  rw [ht, List.cons_append, lexemes_leaf, List.cons_append] at heq
  obtain rfl := (List.cons.inj heq).1
  rw [Token.word?_of_literalOf l.fits_isSome] at hl'
  cases hl'

theorem determined_value {F : List Lexeme → Prop} (v : ValuePhrase) : Determined F v :=
  determined_sum (fun l _ => determined_leaf l) (fun w _ => determined_leaf w)
    fun l w rest rest' => (literal_append_ne worded_word l w rest' rest).symm

theorem determined_argument (a : ArgumentPhrase) : Determined (Next Token.endsArgument) a := by
  refine determined_sum (fun (key, value) _ => ?_) (fun l _ => determined_leaf l) fun s l rest rest' =>
    literal_append_ne worded_word.pair l s rest rest'
  refine determined_pair (F := fun _ => True) (determined_leaf key) ?_ fun _ _ _ => trivial
  refine determined_option (fun v _ => ?_) fun (equals, v) rest => ?_
  · exact determined_pair (F := fun _ => True) (determined_leaf v.1) (determined_value v.2) fun _ _ _ => trivial
  · rw [lexemes_pair, lexemes_leaf, List.append_assoc, List.singleton_append, Next.cons, equals.token]
    exact Bool.false_ne_true

/-- An entry of a list ends at a token that belongs to no entry. -/
theorem determined_listed {τ : Type} [Phrase τ] (h : ∀ t : τ, Determined (Next Token.endsArgument) t) (e : Listed τ) :
    Determined (Next Token.endsEntry) e := by
  refine determined_pair (h e.1) (determined_option (fun comma _ => determined_leaf comma) ?_) ?_
  · intro comma rest
    rw [lexemes_leaf, List.singleton_append, Next.cons, comma.token]
    exact Bool.false_ne_true
  · rintro (_ | comma) rest hrest
    · exact hrest.mono fun _ => Token.endsArgument_of_endsEntry
    · rw [lexemes_some, lexemes_leaf, List.singleton_append, Next.cons, comma.token]
      rfl

/-- Entries end at a token that begins none. -/
theorem determined_entries {τ : Type} [Phrase τ] (h : ∀ t : τ, Determined (Next Token.endsArgument) t)
    (hstart : ∀ t : τ, ∃ l ls, lexemes t = l :: ls ∧ l.token.endsEntry = true ∧ l.token.endsEntries = false)
    (es : List (Listed τ)) : Determined (Next Token.endsEntries) es := by
  refine determined_list (fun e _ => determined_listed h e) (fun (t, comma) rest => ?_)
    (fun rest hrest => hrest.mono fun _ => Token.endsEntry_of_endsEntries) (fun (t, comma) rest => ?_)
  · obtain ⟨l, ls, ht, -, hl⟩ := hstart t
    rw [lexemes_pair, ht, List.append_assoc, List.cons_append, Next.cons, hl]
    exact Bool.false_ne_true
  · obtain ⟨l, ls, ht, hl, -⟩ := hstart t
    rw [lexemes_pair, ht, List.append_assoc, List.cons_append, Next.cons]
    exact hl

theorem word_start (w : WordPhrase) :
    ∃ l ls, lexemes w = l :: ls ∧ l.token.endsEntry = true ∧ l.token.endsEntries = false :=
  ⟨w.lexeme, [], rfl, Token.endsEntry_of_word? w.fits_isSome, Token.endsEntries_of_word? w.fits_isSome⟩

theorem argument_start : ∀ a : ArgumentPhrase,
    ∃ l ls, lexemes a = l :: ls ∧ l.token.endsEntry = true ∧ l.token.endsEntries = false
  | .inl (key, value) => ⟨key.lexeme, lexemes value, rfl, Token.endsEntry_of_word? key.fits_isSome,
      Token.endsEntries_of_word? key.fits_isSome⟩
  | .inr l => ⟨l.lexeme, [], rfl, Token.endsEntry_of_literalOf l.fits_isSome,
      Token.endsEntries_of_literalOf l.fits_isSome⟩

theorem determined_words (p : WordsPhrase) : Determined (Next Token.endsEntries) p := by
  have hword (w : WordPhrase) : Determined (Next Token.endsArgument) w := determined_leaf w
  refine determined_pair (determined_listed hword p.1) (determined_entries hword word_start p.2) ?_
  rintro (_ | ⟨⟨w, comma⟩, ws⟩) rest hrest
  · exact hrest.mono fun _ => Token.endsEntry_of_endsEntries
  · exact Next.cons.mpr (Token.endsEntry_of_word? w.fits_isSome)

theorem determined_arguments (p : ArgumentsPhrase) : Determined (Next Token.endsEntries) p :=
  determined_entries determined_argument argument_start p

/-! ## Rows and blocks -/

theorem determined_separators (seps : List Separator) : Determined (Next Token.endsGap) seps := by
  refine determined_list (F := fun _ => True) (fun s _ => determined_leaf s) (fun s rest => ?_) (fun _ _ => trivial)
    fun _ _ => trivial
  rw [lexemes_leaf, List.singleton_append, Next.cons, Token.endsGap, s.isSeparator]
  exact Bool.false_ne_true

theorem determined_gap (gap : Gap) : Determined (Next Token.endsGap) gap :=
  determined_pair (F := fun _ => True) (determined_leaf gap.1) (determined_separators gap.2) fun _ _ _ => trivial

/-- What is left behind separators. -/
def afterGap (rest : List Lexeme) : List Lexeme := rest.dropWhile fun l => l.token.isSeparator

theorem afterGap_of_endsGap {rest : List Lexeme} (h : Next Token.endsGap rest) : afterGap rest = rest := by
  cases rest with
  | nil => rfl
  | cons l rest =>
    rw [Next.cons, Token.endsGap, Bool.not_eq_true'] at h
    exact List.dropWhile_cons_of_neg (ne_true_of_eq_false h)

theorem afterGap_append (seps : List Separator) (rest : List Lexeme) :
    afterGap (lexemes seps ++ rest) = afterGap rest := by
  induction seps with
  | nil => rfl
  | cons s seps ih =>
    rw [lexemes_cons, lexemes_leaf, List.append_assoc, List.singleton_append, ← ih]
    exact List.dropWhile_cons_of_pos s.isSeparator

/-- After separators, nothing but the end comes. -/
def AtEnd (rest : List Lexeme) : Prop := Next Token.isClosing (afterGap rest)

theorem atEnd_append (seps : List Separator) {rest : List Lexeme} (h : Next Token.isClosing rest) :
    AtEnd (lexemes seps ++ rest) := by
  rwa [AtEnd, afterGap_append, afterGap_of_endsGap (h.mono fun _ => Token.endsGap_of_isClosing)]

theorem AtEnd.endsItem {rest : List Lexeme} (h : AtEnd rest) : Next Token.endsItem rest := by
  cases rest with
  | nil => exact Next.nil
  | cons l rest =>
    cases hl : l.token.isSeparator with
    | true => exact Next.cons.mpr (Token.endsItem_of_isSeparator hl)
    | false =>
      have hgap : Next Token.endsGap (l :: rest) := Next.cons.mpr (by rw [Token.endsGap, hl]; rfl)
      rw [AtEnd, afterGap_of_endsGap hgap] at h
      exact h.mono fun _ => Token.endsItem_of_isClosing

section

variable {τ : Type} [Phrase τ]

theorem lexemes_gap_item (gap : Gap) (t : τ) (rest : List Lexeme) :
    lexemes (gap, t) ++ rest = lexemes (gap.1 :: gap.2) ++ (lexemes t ++ rest) := List.append_assoc ..

theorem endsItem_gap (gap : Gap) (t : τ) (rest : List Lexeme) : Next Token.endsItem (lexemes (gap, t) ++ rest) :=
  Next.cons.mpr (Token.endsItem_of_isSeparator gap.1.isSeparator)

/-- Behind a gap in a row there is an item. -/
theorem not_atEnd_gap (hworded : Worded τ) (gap : Gap) (t : τ) (rest : List Lexeme) :
    ¬ AtEnd (lexemes (gap, t) ++ rest) := by
  have hgap : Next Token.endsGap (lexemes t ++ rest) := hworded.next t rest fun _ => Token.endsGap_of_word?
  rw [AtEnd, lexemes_gap_item, afterGap_append, afterGap_of_endsGap hgap]
  exact hworded.not_next t rest fun _ => Token.isClosing_of_word?

theorem determined_row (hworded : Worded τ) {r : Row τ} (h : ∀ t ∈ r.items, Determined (Next Token.endsItem) t) :
    Determined (Next Token.isClosing) r := by
  have hmore : Determined AtEnd r.more := by
    refine determined_list (F := Next Token.endsItem) (fun (gap, t) ht => ?_)
      (fun (gap, t) => not_atEnd_gap hworded gap t) (fun _ => AtEnd.endsItem) fun (gap, t) => endsItem_gap gap t
    have hitem := h t (List.mem_cons_of_mem _ (List.mem_map_of_mem ht))
    exact determined_pair (determined_gap gap) hitem fun t rest _ => hworded.next t rest fun _ => Token.endsGap_of_word?
  have hafter : Determined (Next Token.isClosing) r.after :=
    (determined_separators r.after).mono fun rest hrest => hrest.mono fun _ => Token.endsGap_of_isClosing
  have hrow : Determined (Next Token.isClosing) (r.first, r.more, r.after) := by
    refine determined_pair (h r.first List.mem_cons_self)
      (determined_pair hmore hafter fun seps rest hrest => atEnd_append seps hrest) ?_
    rintro ⟨_ | ⟨⟨gap, t⟩, more⟩, seps⟩ rest hrest
    · exact (atEnd_append seps hrest).endsItem
    · exact Next.cons.mpr (Token.endsItem_of_isSeparator gap.1.isSeparator)
  intro r' rest rest' heq hrest hrest'
  have heq := hrow (r'.first, r'.more, r'.after) rest rest' heq hrest hrest'
  obtain ⟨first, more, after⟩ := r
  obtain ⟨first', more', after'⟩ := r'
  obtain ⟨rfl, rfl, rfl⟩ := heq
  rfl

/-- Separated items end at a closing brace or at the end of the script. -/
theorem determined_separated (hworded : Worded τ) {s : Separated τ}
    (h : ∀ t ∈ s.items, Determined (Next Token.endsItem) t) : Determined (Next Token.isClosing) s := by
  have hpair : Determined (Next Token.isClosing) (s.before, s.row) := by
    refine determined_pair (determined_separators s.before) (determined_option (fun r hr => ?_) ?_) ?_
    · exact determined_row hworded fun t ht => h t (by rwa [Separated.items, hr])
    · exact fun r rest => hworded.pair.not_next (r.first, r.more, r.after) rest fun _ => Token.isClosing_of_word?
    · rintro (_ | r) rest hrest
      · exact hrest.mono fun _ => Token.endsGap_of_isClosing
      · exact hworded.pair.next (r.first, r.more, r.after) rest fun _ => Token.endsGap_of_word?
  intro s' rest rest' heq hrest hrest'
  have heq := hpair (s'.before, s'.row) rest rest' heq hrest hrest'
  obtain ⟨before, row⟩ := s
  obtain ⟨before', row'⟩ := s'
  obtain ⟨rfl, rfl⟩ := heq
  rfl

theorem determined_block (hworded : Worded τ) {b : Block τ} {F : List Lexeme → Prop}
    (h : ∀ t ∈ b.contents.items, Determined (Next Token.endsItem) t) : Determined F b := by
  have htuple : Determined F (b.opening, b.contents, b.closing) := by
    refine determined_pair (F := fun _ => True) (determined_leaf b.opening) ?_ fun _ _ _ => trivial
    refine determined_pair (determined_separated hworded h) (determined_leaf b.closing) fun closing rest _ => ?_
    rw [lexemes_leaf, List.singleton_append, Next.cons, closing.token]
    rfl
  intro b' rest rest' heq hrest hrest'
  have heq := htuple (b'.opening, b'.contents, b'.closing) rest rest' heq hrest hrest'
  obtain ⟨opening, contents, closing⟩ := b
  obtain ⟨opening', contents', closing'⟩ := b'
  obtain ⟨rfl, rfl, rfl⟩ := heq
  rfl

end

/-! ## Statements -/

theorem Phrase.sublist_of_mem {τ : Type} [Phrase τ] {t : τ} {ts : List τ} (h : t ∈ ts) :
    (lexemes t).Sublist (lexemes ts) := by
  obtain ⟨before, after, rfl⟩ := List.append_of_mem h
  have hsplit : lexemes (before ++ t :: after) = lexemes before ++ (lexemes t ++ lexemes after) :=
    List.flatMap_append
  rw [hsplit]
  exact (List.sublist_append_left ..).trans (List.sublist_append_right ..)

theorem Row.sublist_of_mem {τ : Type} [Phrase τ] {r : Row τ} {t : τ} (h : t ∈ r.items) :
    (lexemes t).Sublist (lexemes r) := by
  have hrow : lexemes r = lexemes r.first ++ (lexemes r.more ++ lexemes r.after) := rfl
  rw [hrow]
  rcases List.mem_cons.mp h with rfl | h
  · exact List.sublist_append_left ..
  · obtain ⟨⟨gap, t⟩, hmem, rfl⟩ := List.mem_map.mp h
    have hitem : (lexemes t).Sublist (lexemes (gap, t)) := List.sublist_append_right ..
    exact ((hitem.trans (Phrase.sublist_of_mem hmem)).trans (List.sublist_append_left ..)).trans
      (List.sublist_append_right ..)

theorem Separated.sublist_of_mem {τ : Type} [Phrase τ] {s : Separated τ} {t : τ} (h : t ∈ s.items) :
    (lexemes t).Sublist (lexemes s) := by
  obtain ⟨before, _ | r⟩ := s
  · cases h
  · exact (Row.sublist_of_mem h).trans (List.sublist_append_right ..)

theorem Block.length_lexemes {τ : Type} [Phrase τ] (b : Block τ) :
    (lexemes b).length = (lexemes b.contents).length + 2 := by
  show ([b.opening.lexeme] ++ (lexemes b.contents ++ [b.closing.lexeme])).length = _
  rw [List.singleton_append, List.length_cons, List.length_append, List.length_singleton]

/-- The statements in the body of a statement have fewer tokens. -/
theorem StatementPhrase.length_lt {head : WordPhrase} {args : ArgumentsPhrase} {b : Block StatementPhrase}
    {s : StatementPhrase} (h : s ∈ b.contents.items) :
    (lexemes s).length < (lexemes (mk head args (some b))).length := by
  have hle := (Separated.sublist_of_mem h).length_le
  have hblock := b.length_lexemes
  rw [lexemes_mk, lexemes_pair, lexemes_pair, lexemes_some, List.length_append, List.length_append]
  omega

/-- What holds of a statement if it holds of the statements in its body holds of all statements. -/
theorem StatementPhrase.induct {P : StatementPhrase → Prop}
    (h : ∀ head args body, (∀ b ∈ body, ∀ s ∈ b.contents.items, P s) → P (mk head args body)) (s : StatementPhrase) :
    P s := by
  induction hn : (lexemes s).length using Nat.strongRecOn generalizing s with
  | ind n ih =>
    obtain ⟨head, args, body⟩ := s
    refine h head args body fun b hb t ht => ?_
    obtain rfl : body = some b := hb
    exact ih _ (hn ▸ length_lt ht) t rfl

theorem worded_statement : Worded StatementPhrase := by
  rintro ⟨head, args, body⟩
  rw [StatementPhrase.lexemes_mk]
  exact worded_word.pair (head, args, body)

theorem determined_statement (s : StatementPhrase) : Determined (Next Token.endsItem) s := by
  induction s using StatementPhrase.induct with
  | h head args body ih =>
    have htuple : Determined (Next Token.endsItem) (head, args, body) := by
      refine determined_pair (F := fun _ => True) (determined_leaf head) ?_ fun _ _ _ => trivial
      refine determined_pair (determined_arguments args) (determined_option (fun b hb => ?_) fun b rest => ?_) ?_
      · exact determined_block worded_statement (ih b hb)
      · have hopening : Next Token.endsItem (lexemes b ++ rest) ↔ Token.endsItem b.opening.lexeme.token = true :=
          Next.cons
        rw [hopening, b.opening.token]
        exact Bool.false_ne_true
      · rintro (_ | b) rest hrest
        · exact hrest.mono fun _ => Token.endsEntries_of_endsItem
        · refine Next.cons.mpr ?_
          rw [b.opening.token]
          rfl
    rintro ⟨head', args', body'⟩ rest rest' heq hrest hrest'
    rw [StatementPhrase.lexemes_mk, StatementPhrase.lexemes_mk] at heq
    obtain ⟨rfl, rfl, rfl⟩ := htuple (head', args', body') rest rest' heq hrest hrest'
    rfl

/-! ## Scripts -/

theorem determined_declared : ∀ (k : Keyword) (p : DeclaredPhrase k), Determined (Next Token.endsItem) p := by
  have hstatement (b : Block StatementPhrase) : Determined (Next Token.endsItem) b :=
    determined_block worded_statement fun s _ => determined_statement s
  have hmono {rest : List Lexeme} (h : Next Token.endsItem rest) : Next Token.endsEntries rest :=
    h.mono fun _ => Token.endsEntries_of_endsItem
  rintro (_ | _ | _ | _ | _) p
  · exact (determined_words p).mono fun _ => hmono
  · exact determined_pair (F := fun _ => True) (determined_leaf p.1) (hstatement p.2) fun _ _ _ => trivial
  · exact determined_pair (F := fun _ => True) (determined_leaf p.1) (hstatement p.2) fun _ _ _ => trivial
  · exact determined_pair (F := fun _ => True) (determined_leaf p.1) ((determined_arguments p.2).mono fun _ => hmono)
      fun _ _ _ => trivial
  · exact determined_pair (F := fun _ => True) (determined_leaf p.1) ((determined_words p.2).mono fun _ => hmono)
      fun _ _ _ => trivial

theorem worded_declaration : Worded DeclarationPhrase := by
  rintro ⟨keyword, content⟩
  refine ⟨keyword.lexeme, lexemes content, rfl, ?_⟩
  have hkeyword := keyword.fits_isSome
  cases htoken : keyword.lexeme.token with
  | keyword k => rfl
  | _ =>
    rw [htoken] at hkeyword
    cases hkeyword

theorem determined_declaration (d : DeclarationPhrase) : Determined (Next Token.endsItem) d := by
  rintro ⟨keyword', content'⟩ rest rest' heq hrest hrest'
  obtain ⟨keyword, content⟩ := d
  have htokens : keyword.lexeme :: (lexemes content ++ rest) = keyword'.lexeme :: (lexemes content' ++ rest') := heq
  obtain ⟨hkeyword, heq⟩ := List.cons.inj htokens
  obtain rfl := Leaf.eq_of_lexeme hkeyword
  obtain rfl := determined_declared _ content content' rest rest' heq hrest hrest'
  rfl

/-- A row of tokens has one derivation at most. -/
theorem ScriptPhrase.eq_of_lexemes {p p' : ScriptPhrase} (h : lexemes p = lexemes p') : p = p' := by
  refine determined_separated worded_declaration (fun d _ => determined_declaration d) p' [] [] ?_ Next.nil Next.nil
  rw [h]

end TestProgram
