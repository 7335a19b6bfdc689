import TestProgram.Proofs.Script.Unambiguity

/-!
# Readers of words and lists

What a reader takes is a phrase of the grammar, and its answer is what the phrase means
(`Reader.Sound`). Conversely a reader takes each phrase that comes next and is followed by what can
follow it (`Reader.Takes`). Here both are shown for single tokens, words and values, and for lists of
words and of arguments. The bound on the length of a list is never reached, since every entry takes a token.
-/

namespace TestProgram

open Phrase (lexemes Worded lexemes_pair lexemes_some lexemes_cons lexemes_leaf)

theorem stopAfter_append (stop : Nat) (ls ls' : List Lexeme) :
    stopAfter stop (ls ++ ls') = stopAfter (stopAfter stop ls) ls' := List.foldl_append

namespace Cursor

/-- The second place is behind some tokens that come next at the first one. -/
def Passes (c : Cursor) (ls : List Lexeme) (c' : Cursor) : Prop :=
  c.rest = ls ++ c'.rest ∧ c'.stop = stopAfter c.stop ls

theorem Passes.refl (c : Cursor) : c.Passes [] c := ⟨rfl, rfl⟩

theorem Passes.trans {c c' c'' : Cursor} {ls ls' : List Lexeme} (h : c.Passes ls c') (h' : c'.Passes ls' c'') :
    c.Passes (ls ++ ls') c'' :=
  ⟨by rw [h.1, h'.1, List.append_assoc], by rw [h'.2, h.2, stopAfter_append]⟩

theorem passes_note (c : Cursor) (es : List Expectation) : c.Passes [] (c.note es) := ⟨rfl, rfl⟩

theorem Passes.rest_eq {c c' : Cursor} {ls rest : List Lexeme} (h : c.Passes ls c') (hrest : c.rest = ls ++ rest) :
    c'.rest = rest :=
  List.append_cancel_left (h.1.symm.trans hrest)

end Cursor

/-- Every item takes a token. -/
theorem length_le_lexemes {τ : Type} [Phrase τ] (hne : ∀ t : τ, lexemes t ≠ []) (ts : List τ) :
    ts.length ≤ (lexemes ts).length := by
  induction ts with
  | nil => exact Nat.zero_le _
  | cons t ts ih =>
    have hpos := List.length_pos_iff.mpr (hne t)
    rw [lexemes_cons, List.length_append, List.length_cons]
    omega

namespace Reader

variable {α β σ τ : Type} [Phrase σ] [Phrase τ]

theorem bind_eq_ok {r : Reader α} {k : α → Reader β} {c c'' : Cursor} {b : β} :
    (r >>= k) c = .ok (b, c'') ↔ ∃ a c', r c = .ok (a, c') ∧ k a c' = .ok (b, c'') := by
  show (r c >>= fun p => k p.1 p.2) = _ ↔ _
  cases r c with
  | error e => exact ⟨nofun, nofun⟩
  | ok p => exact ⟨fun h => ⟨p.1, p.2, rfl, h⟩, fun ⟨_, _, hp, h⟩ => by cases hp; exact h⟩

theorem pure_eq_ok {a b : α} {c c' : Cursor} : (pure a : Reader α) c = .ok (b, c') ↔ a = b ∧ c = c' := by
  show Except.ok (a, c) = Except.ok (b, c') ↔ _
  rw [Except.ok.injEq, Prod.mk.injEq]

/-- Whatever a reader takes is a phrase, and its answer is what the phrase means. -/
def Sound (r : Reader β) (meaning : τ → β) : Prop :=
  ∀ c b c', r c = .ok (b, c') → ∃ t : τ, c.Passes (lexemes t) c' ∧ meaning t = b

/-- A reader takes tokens and answers, where what follows them is as it should. -/
def Takes (r : Reader β) (ls : List Lexeme) (b : β) (F : List Lexeme → Prop) : Prop :=
  ∀ c rest, c.rest = ls ++ rest → F rest → ∃ c', r c = .ok (b, c') ∧ c.Passes ls c'

section

variable {r : Reader α} {k : α → Reader β} {ls ls' : List Lexeme} {a : α} {b : β} {F G : List Lexeme → Prop}

theorem Takes.mono (h : Takes r ls a F) (hG : ∀ rest, G rest → F rest) : Takes r ls a G :=
  fun c rest hc hrest => h c rest hc (hG rest hrest)

theorem takes_pure (a : α) : Takes (pure a) [] a F := fun c _ _ _ => ⟨c, rfl, .refl c⟩

theorem Takes.bind (h : Takes r ls a F) (h' : Takes (k a) ls' b G) (hnext : ∀ rest, G rest → F (ls' ++ rest)) :
    Takes (r >>= k) (ls ++ ls') b G := by
  intro c rest hc hrest
  rw [List.append_assoc] at hc
  obtain ⟨c₁, h₁, hpass⟩ := h c _ hc (hnext rest hrest)
  obtain ⟨c₂, h₂, hpass'⟩ := h' c₁ rest (hpass.rest_eq hc) hrest
  exact ⟨c₂, bind_eq_ok.mpr ⟨a, c₁, h₁, h₂⟩, hpass.trans hpass'⟩

/-- A reader that goes on from an answer without taking more. -/
theorem Takes.bind_nil (h : Takes r ls a F) (h' : Takes (k a) [] b F) : Takes (r >>= k) ls b F := by
  have hbind := h.bind h' fun rest hrest => hrest
  rwa [List.append_nil] at hbind

theorem Takes.map (f : α → β) (h : Takes r ls a F) : Takes (r >>= fun a => pure (f a)) ls (f a) F :=
  h.bind_nil (takes_pure (f a))

/-- A reader that looks for something in vain before it goes on. -/
theorem Takes.nil_bind (h : Takes r [] a F) (h' : Takes (k a) ls' b G) (hnext : ∀ rest, G rest → F (ls' ++ rest)) :
    Takes (r >>= k) ls' b G :=
  h.bind h' hnext

end

/-! ## Single tokens -/

section

variable {fits : Token → Option α} {es : List Expectation}

theorem sound_take? :
    Sound (take? es fits) fun o : Option (Leaf fits) => o.map fun leaf => (leaf.meaning, leaf.lexeme.span) := by
  intro c o c' h
  unfold take? at h
  split at h
  · cases h
    exact ⟨none, c.passes_note es, rfl⟩
  · rename_i l rest hrest
    split at h
    · rename_i a ha
      cases h
      exact ⟨some ⟨l, a, ha⟩, ⟨hrest, rfl⟩, rfl⟩
    · cases h
      exact ⟨none, c.passes_note es, rfl⟩

theorem takes_take? (leaf : Leaf fits) {F : List Lexeme → Prop} :
    Takes (take? es fits) (lexemes leaf) (some (leaf.meaning, leaf.lexeme.span)) F := by
  intro c rest hc _
  refine ⟨.past leaf.lexeme rest, ?_, hc, rfl⟩
  unfold take?
  rw [show c.rest = leaf.lexeme :: rest from hc]
  dsimp only
  rw [leaf.fits_token]

theorem takes_take?_none {p : Token → Bool} (hp : ∀ t, p t = true → fits t = none) :
    Takes (take? es fits) [] none (Next p) := by
  intro c rest hc hrest
  refine ⟨c.note es, ?_, c.passes_note es⟩
  obtain rfl : c.rest = rest := hc
  unfold take?
  cases hc : c.rest with
  | nil => rfl
  | cons l ls =>
    rw [hc, Next.cons] at hrest
    dsimp only
    rw [hp l.token hrest]

end

theorem sound_sign {t : Token} : Sound (sign t) (Option.isSome : Option (Sign t) → Bool) := by
  intro c b c' h
  obtain ⟨found, c₁, h₁, h⟩ := bind_eq_ok.mp h
  obtain ⟨rfl, rfl⟩ := pure_eq_ok.mp h
  obtain ⟨leaf, hpass, rfl⟩ := sound_take? _ _ _ h₁
  exact ⟨leaf, hpass, by cases leaf <;> rfl⟩

theorem takes_sign {t : Token} (s : Sign t) {F : List Lexeme → Prop} : Takes (sign t) (lexemes s) true F :=
  (takes_take? s).bind_nil (takes_pure true)

theorem takes_sign_none {t : Token} {p : Token → Bool} (hp : ∀ u, p u = true → u ≠ t) :
    Takes (sign t) [] false (Next p) :=
  (takes_take?_none fun u hu => if_neg (hp u hu)).bind_nil (takes_pure false)

theorem sound_require {t : Token} : Sound (require t) fun _ : Sign t => () := by
  intro c b c' h
  obtain ⟨found, c₁, h₁, h⟩ := bind_eq_ok.mp h
  obtain ⟨s, hpass, rfl⟩ := sound_sign _ _ _ h₁
  cases s with
  | none => cases h
  | some s =>
    obtain ⟨rfl, rfl⟩ := pure_eq_ok.mp h
    exact ⟨s, hpass, rfl⟩

theorem takes_require {t : Token} (s : Sign t) {F : List Lexeme → Prop} : Takes (require t) (lexemes s) () F :=
  (takes_sign s).bind_nil (takes_pure ())

theorem sound_orFail {r : Reader (Option α)} {f : τ → α} (h : Sound r (Option.map f : Option τ → Option α)) :
    Sound (r >>= orFail) f := by
  intro c a c' h'
  obtain ⟨found, c₁, h₁, h'⟩ := bind_eq_ok.mp h'
  obtain ⟨t, hpass, rfl⟩ := h _ _ _ h₁
  cases t with
  | none => cases h'
  | some t =>
    obtain ⟨rfl, rfl⟩ := pure_eq_ok.mp h'
    exact ⟨t, hpass, rfl⟩

theorem Takes.orFail {r : Reader (Option α)} {ls : List Lexeme} {a : α} {F : List Lexeme → Prop}
    (h : Takes r ls (some a) F) : Takes (r >>= Reader.orFail) ls a F :=
  h.bind_nil (takes_pure a)

/-! ## Words and values -/

theorem sound_word? : Sound word? (Option.map WordPhrase.word) := by
  intro c o c' h
  obtain ⟨found, c₁, h₁, h⟩ := bind_eq_ok.mp h
  obtain ⟨rfl, rfl⟩ := pure_eq_ok.mp h
  obtain ⟨leaf, hpass, rfl⟩ := sound_take? _ _ _ h₁
  exact ⟨leaf, hpass, by cases leaf <;> rfl⟩

theorem takes_word? (w : WordPhrase) {F : List Lexeme → Prop} :
    Takes word? (lexemes w) (some (WordPhrase.word w)) F :=
  (takes_take? w).bind_nil (takes_pure _)

theorem takes_word?_none {p : Token → Bool} (hp : ∀ t, p t = true → t.word? = none) :
    Takes word? [] none (Next p) :=
  (takes_take?_none hp).bind_nil (takes_pure _)

theorem sound_word : Sound word WordPhrase.word := sound_orFail sound_word?

theorem takes_word (w : WordPhrase) {F : List Lexeme → Prop} : Takes word (lexemes w) (WordPhrase.word w) F :=
  (takes_word? w).orFail

theorem sound_literal? : Sound literal? (Option.map LiteralPhrase.value) := by
  intro c o c' h
  obtain ⟨found, c₁, h₁, h⟩ := bind_eq_ok.mp h
  obtain ⟨rfl, rfl⟩ := pure_eq_ok.mp h
  obtain ⟨leaf, hpass, rfl⟩ := sound_take? _ _ _ h₁
  exact ⟨leaf, hpass, by cases leaf <;> rfl⟩

theorem takes_literal? (l : LiteralPhrase) {F : List Lexeme → Prop} :
    Takes literal? (lexemes l) (some (LiteralPhrase.value l)) F :=
  (takes_take? l).bind_nil (takes_pure _)

theorem takes_literal?_none {p : Token → Bool} (hp : ∀ t, p t = true → literalOf t = none) :
    Takes literal? [] none (Next p) :=
  (takes_take?_none hp).bind_nil (takes_pure _)

theorem sound_value : Sound value ValuePhrase.value := by
  intro c v c' h
  obtain ⟨found, c₁, h₁, h⟩ := bind_eq_ok.mp h
  obtain ⟨l, hpass, rfl⟩ := sound_literal? _ _ _ h₁
  cases l with
  | some l =>
    obtain ⟨rfl, rfl⟩ := pure_eq_ok.mp h
    exact ⟨.inl l, hpass, rfl⟩
  | none =>
    obtain ⟨w, c₂, h₂, h⟩ := bind_eq_ok.mp h
    obtain ⟨rfl, rfl⟩ := pure_eq_ok.mp h
    obtain ⟨w, hpass', rfl⟩ := sound_word _ _ _ h₂
    exact ⟨.inr w, hpass.trans hpass', rfl⟩

theorem takes_value {F : List Lexeme → Prop} : ∀ v : ValuePhrase, Takes value (lexemes v) (ValuePhrase.value v) F
  | .inl l => (takes_literal? l).bind_nil (takes_pure _)
  | .inr w => by
    have hnone : Takes literal? [] none (Next fun t => t.word?.isSome) := takes_literal?_none fun t ht => by
      cases t <;> first | rfl | cases ht
    exact hnone.nil_bind ((takes_word w).bind_nil (takes_pure _)) fun rest _ => Next.cons.mpr w.fits_isSome

/-! ## Lists -/

/-- An item as an entry of a list. -/
def withComma? (item : Reader (Option α)) : Reader (Option α) := do
  match ← item with
  | none => pure none
  | some a => do
    let _ ← sign .comma
    pure (some a)

theorem listed?_eq : listed? = withComma? word? :=
  congrArg (word? >>= ·) (funext fun | none => rfl | some _ => rfl)

theorem listedArgument?_eq : listedArgument? = withComma? argument? :=
  congrArg (argument? >>= ·) (funext fun | none => rfl | some _ => rfl)

section

variable {item : Reader (Option α)} {f : τ → α} {F G : List Lexeme → Prop}

theorem sound_withComma? (h : Sound item (Option.map f : Option τ → Option α)) :
    Sound (withComma? item) (Option.map fun e => f e.1 : Option (Listed τ) → Option α) := by
  intro c o c' h'
  obtain ⟨found, c₁, h₁, h'⟩ := bind_eq_ok.mp h'
  obtain ⟨t, hpass, rfl⟩ := h _ _ _ h₁
  cases t with
  | none =>
    obtain ⟨rfl, rfl⟩ := pure_eq_ok.mp h'
    exact ⟨none, hpass, rfl⟩
  | some t =>
    obtain ⟨comma, c₂, h₂, h'⟩ := bind_eq_ok.mp h'
    obtain ⟨rfl, rfl⟩ := pure_eq_ok.mp h'
    obtain ⟨comma, hpass', -⟩ := sound_sign _ _ _ h₂
    exact ⟨some (t, comma), hpass.trans hpass', rfl⟩

theorem takes_withComma? {e : Listed τ} (h : Takes item (lexemes e.1) (some (f e.1)) (Next Token.endsArgument)) :
    Takes (withComma? item) (lexemes e) (some (f e.1)) (Next Token.endsEntry) := by
  obtain ⟨t, comma⟩ := e
  have hcomma : Takes (do let _ ← sign .comma; pure (some (f t)) : Reader (Option α)) (lexemes comma) (some (f t))
      (Next Token.endsEntry) := by
    cases comma with
    | none =>
      refine Takes.bind_nil (takes_sign_none fun u hu => ?_) (takes_pure _)
      rintro rfl
      cases hu
    | some comma => exact (takes_sign comma).bind_nil (takes_pure _)
  refine h.bind hcomma fun rest hrest => ?_
  cases comma with
  | none => exact hrest.mono fun _ => Token.endsArgument_of_endsEntry
  | some comma =>
    rw [lexemes_some, lexemes_leaf, List.singleton_append, Next.cons, comma.token]
    rfl

theorem takes_withComma?_none (h : Takes item [] none F) : Takes (withComma? item) [] none F :=
  h.bind_nil (takes_pure none)

theorem sound_manyUpTo (h : Sound item (Option.map f : Option τ → Option α)) :
    ∀ n, Sound (manyUpTo item n) (List.map f : List τ → List α)
  | 0 => fun c as c' h' => by
    obtain ⟨rfl, rfl⟩ := pure_eq_ok.mp h'
    exact ⟨[], .refl _, rfl⟩
  | n + 1 => fun c as c' h' => by
    obtain ⟨found, c₁, h₁, h'⟩ := bind_eq_ok.mp h'
    obtain ⟨t, hpass, rfl⟩ := h _ _ _ h₁
    cases t with
    | none =>
      obtain ⟨rfl, rfl⟩ := pure_eq_ok.mp h'
      exact ⟨[], hpass, rfl⟩
    | some t =>
      obtain ⟨as, c₂, h₂, h'⟩ := bind_eq_ok.mp h'
      obtain ⟨rfl, rfl⟩ := pure_eq_ok.mp h'
      obtain ⟨ts, hpass', rfl⟩ := sound_manyUpTo h n _ _ _ h₂
      exact ⟨t :: ts, hpass.trans hpass', rfl⟩

theorem sound_many (h : Sound item (Option.map f : Option τ → Option α)) :
    Sound (many item) (List.map f : List τ → List α) :=
  fun c => sound_manyUpTo h (c.rest.length + 1) c

/-- A list of items is taken where each of them ends where another one or the end comes. -/
theorem takes_manyUpTo (hnone : Takes item [] none G) (hend : ∀ rest, G rest → F rest)
    (hitem : ∀ (t : τ) rest, F (lexemes t ++ rest)) : ∀ (ts : List τ) (n : Nat), ts.length < n →
    (∀ t ∈ ts, Takes item (lexemes t) (some (f t)) F) → Takes (manyUpTo item n) (lexemes ts) (ts.map f) G
  | [], n + 1, _, _ => hnone.bind_nil (takes_pure [])
  | t :: ts, n + 1, hn, h => by
    have hmore := takes_manyUpTo hnone hend hitem ts n (Nat.lt_of_succ_lt_succ hn)
      fun t ht => h t (List.mem_cons_of_mem _ ht)
    refine (h t List.mem_cons_self).bind (hmore.bind_nil (takes_pure _)) fun rest hrest => ?_
    cases ts with
    | nil => exact hend rest hrest
    | cons t' ts =>
      show F ((lexemes t' ++ lexemes ts) ++ rest)
      rw [List.append_assoc]
      exact hitem t' _

theorem takes_many {ts : List τ} (hnone : Takes item [] none G) (hend : ∀ rest, G rest → F rest)
    (hitem : ∀ (t : τ) rest, F (lexemes t ++ rest)) (hne : ∀ t : τ, lexemes t ≠ [])
    (h : ∀ t ∈ ts, Takes item (lexemes t) (some (f t)) F) : Takes (many item) (lexemes ts) (ts.map f) G := by
  intro c rest hc hrest
  have hlength := length_le_lexemes hne ts
  have hfuel : ts.length < c.rest.length + 1 := by
    rw [hc, List.length_append]
    omega
  exact takes_manyUpTo hnone hend hitem ts _ hfuel h c rest hc hrest

end

theorem words_eq : words = (do
    let first ← withComma? word? >>= orFail
    let more ← many (withComma? word?)
    pure (first :: more)) := by
  unfold words
  rw [listed?_eq, bind_assoc]

theorem sound_words : Sound words WordsPhrase.words := by
  intro c ws c' h
  rw [words_eq] at h
  obtain ⟨first, c₁, h₁, h⟩ := bind_eq_ok.mp h
  obtain ⟨more, c₂, h₂, h⟩ := bind_eq_ok.mp h
  obtain ⟨rfl, rfl⟩ := pure_eq_ok.mp h
  obtain ⟨e, hpass, rfl⟩ := sound_orFail (sound_withComma? sound_word?) _ _ _ h₁
  obtain ⟨es, hpass', rfl⟩ := sound_many (sound_withComma? sound_word?) _ _ _ h₂
  exact ⟨(e, es), hpass.trans hpass', rfl⟩

/-- Entries are taken up to a token that begins none. -/
theorem takes_entries {item : Reader (Option α)} {f : τ → α} (hnone : Takes item [] none (Next Token.endsEntries))
    (hstart : ∀ t : τ, ∃ l ls, lexemes t = l :: ls ∧ l.token.endsEntry = true ∧ l.token.endsEntries = false)
    (h : ∀ t : τ, Takes item (lexemes t) (some (f t)) (Next Token.endsArgument)) (es : List (Listed τ)) :
    Takes (many (withComma? item)) (lexemes es) (es.map fun e => f e.1) (Next Token.endsEntries) := by
  refine takes_many (takes_withComma?_none hnone) (fun rest hrest => hrest.mono fun _ => Token.endsEntry_of_endsEntries)
    (fun (t, comma) rest => ?_) (fun (t, comma) => ?_) fun e _ => takes_withComma? (h e.1)
  all_goals obtain ⟨l, ls, ht, hl, -⟩ := hstart t
  · rw [lexemes_pair, ht, List.append_assoc, List.cons_append, Next.cons]
    exact hl
  · rw [lexemes_pair, ht]
    exact List.cons_ne_nil _ _

theorem word?_of_endsEntries {t : Token} (h : t.endsEntries = true) : t.word? = none := by
  cases t <;> first | rfl | cases h

theorem literalOf_of_endsEntries {t : Token} (h : t.endsEntries = true) : literalOf t = none := by
  cases t <;> first | rfl | cases h

theorem takes_words (p : WordsPhrase) : Takes words (lexemes p) (WordsPhrase.words p) (Next Token.endsEntries) := by
  have hmore := takes_entries (takes_word?_none fun _ => word?_of_endsEntries) word_start (fun w => takes_word? w) p.2
  rw [words_eq]
  refine (takes_withComma? (takes_word? p.1.1)).orFail.bind (hmore.map fun more => WordPhrase.word p.1.1 :: more) ?_
  obtain ⟨-, es⟩ := p
  intro rest hrest
  cases es with
  | nil => exact hrest.mono fun _ => Token.endsEntry_of_endsEntries
  | cons e es => exact Next.cons.mpr (Token.endsEntry_of_word? e.1.fits_isSome)

theorem sound_argument? : Sound argument? (Option.map ArgumentPhrase.argument) := by
  intro c o c' h
  obtain ⟨found, c₁, h₁, h⟩ := bind_eq_ok.mp h
  obtain ⟨w, hpass, rfl⟩ := sound_word? _ _ _ h₁
  cases w with
  | none =>
    obtain ⟨v, c₂, h₂, h⟩ := bind_eq_ok.mp h
    obtain ⟨rfl, rfl⟩ := pure_eq_ok.mp h
    obtain ⟨l, hpass', rfl⟩ := sound_literal? _ _ _ h₂
    exact ⟨l.map .inr, by cases l <;> exact hpass.trans hpass', by cases l <;> rfl⟩
  | some key =>
    obtain ⟨found, c₂, h₂, h⟩ := bind_eq_ok.mp h
    obtain ⟨equals, hpass', rfl⟩ := sound_sign _ _ _ h₂
    cases equals with
    | none =>
      obtain ⟨rfl, rfl⟩ := pure_eq_ok.mp h
      exact ⟨some (.inl (key, none)), hpass.trans hpass', rfl⟩
    | some equals =>
      obtain ⟨v, c₃, h₃, h⟩ := bind_eq_ok.mp h
      obtain ⟨rfl, rfl⟩ := pure_eq_ok.mp h
      obtain ⟨v, hpass'', rfl⟩ := sound_value _ _ _ h₃
      exact ⟨some (.inl (key, some (equals, v))), hpass.trans (hpass'.trans hpass''), rfl⟩

theorem takes_argument? (a : ArgumentPhrase) :
    Takes argument? (lexemes a) (some (ArgumentPhrase.argument a)) (Next Token.endsArgument) := by
  rcases a with ⟨key, _ | ⟨equals, v⟩⟩ | l
  · have hsign : Takes (sign .equals) [] false (Next Token.endsArgument) := takes_sign_none fun u hu => by
      rintro rfl
      cases hu
    exact (takes_word? key (F := Next Token.endsArgument)).bind (hsign.bind_nil (takes_pure _)) fun _ hrest => hrest
  · have hvalue := (takes_value v (F := Next Token.endsArgument)).map
      fun v => some (Argument.named (WordPhrase.word key) v)
    exact (takes_word? key (F := fun _ => True)).bind
      ((takes_sign equals (F := fun _ => True)).bind hvalue fun _ _ => trivial) fun _ _ => trivial
  · have hnone : Takes word? [] none (Next fun t => (literalOf t).isSome) := takes_word?_none fun t ht => by
      cases t <;> first | rfl | cases ht
    exact hnone.nil_bind ((takes_literal? l).bind_nil (takes_pure _)) fun rest _ => Next.cons.mpr l.fits_isSome

theorem takes_argument?_none : Takes argument? [] none (Next Token.endsEntries) :=
  (takes_word?_none fun _ => word?_of_endsEntries).bind_nil
    ((takes_literal?_none fun _ => literalOf_of_endsEntries).bind_nil (takes_pure none))

theorem sound_args : Sound args ArgumentsPhrase.arguments := by
  rw [args, listedArgument?_eq]
  exact sound_many (sound_withComma? sound_argument?)

theorem takes_args (p : ArgumentsPhrase) :
    Takes args (lexemes p) (ArgumentsPhrase.arguments p) (Next Token.endsEntries) := by
  rw [args, listedArgument?_eq]
  exact takes_entries takes_argument?_none argument_start takes_argument? p

end Reader

end TestProgram
