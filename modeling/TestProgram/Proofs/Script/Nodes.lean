import Mathlib.Logic.Relation
import TestProgram.Proofs.Script.Pieces
import TestProgram.Proofs.Script.Reading

/-!
# The places of parts of a script

Tokens stand one behind the other in the text (`Lexeme.laid_ofSource`). The parts of a phrase lie along its
tokens: each goes from the start of one token to the end of another one, and the next part begins behind it
(`Along`). That is kept where phrases follow one another (`Along.append`) and where a part is made of others
(`Along.node`), so it holds of every phrase by recursion on the grammar. Hence the parts of a script nest
(`Script.nodes_placed`).
-/

namespace TestProgram

open Phrase (lexemes lexemes_pair lexemes_some lexemes_cons lexemes_leaf)

/-! ## Nodes -/

/-- A part of a script. -/
inductive Node where
  | script (s : Script)
  | declaration (d : Declaration)
  | statement (s : Statement)
  | argument (a : Argument)
  | value (v : Value)
  | word (w : Word)

namespace Node

def span : Node → Span
  | script s => s.span
  | declaration d => d.span
  | statement s => s.span
  | argument a => a.span
  | value v => v.span
  | word w => w.span

/-- What follows the keyword of a declaration. -/
def ofDeclared : Declared → List Node
  | .pins names => names.map word
  | .pattern name body | .flow name body => word name :: body.map statement
  | .testInstance name args => word name :: args.map argument
  | .patternSet name patterns => word name :: patterns.map word

/-- The parts that a part is made of. -/
def children : Node → List Node
  | script s => s.declarations.map declaration
  | declaration d => ofDeclared d.content
  | statement s => word s.head :: (s.args.map argument ++ (s.block.getD []).map statement)
  | argument (.plain v) => [value v]
  | argument (.named key v) => [word key, value v]
  | value (.word w) => [word w]
  | value _ | word _ => []

/-- A part of a part, at any depth. -/
def Contains : Node → Node → Prop := Relation.ReflTransGen fun m n => n ∈ m.children

/-- Where a part stands in the text, and where the parts stand that it is made of. -/
structure WellPlaced (source : String) (n : Node) : Prop where
  /-- Only a script without tokens takes no place. -/
  nonempty : n.span.start < n.span.stop ∨ (∃ s, n = script s) ∧ Lexeme.ofSource source = []
  inside : n.span.start ≤ n.span.stop ∧ n.span.stop ≤ source.utf8ByteSize
  children_within : ∀ m ∈ n.children, m.span.within n.span
  children_apart : n.children.Pairwise fun m k => m.span.stop ≤ k.span.start
  /-- A statement begins with its head. -/
  head : ∀ s, n = statement s → s.span.start = s.head.span.start
  /-- A word is what the text says at its place. -/
  text : ∀ w, n = word w → ∃ after, w.span.Holds 0 source.toList w.text.toList after

/-- What holds of a part and of all its parts. -/
inductive Everywhere (P : Node → Prop) : Node → Prop
  | mk {n} : P n → (∀ m ∈ n.children, Everywhere P m) → Everywhere P n

theorem Everywhere.of_contains {P : Node → Prop} {n m : Node} (h : Everywhere P n) (hm : n.Contains m) : P m := by
  have heverywhere : Everywhere P m := by
    induction hm with
    | refl => exact h
    | tail _ hchild ih =>
      obtain ⟨-, hchildren⟩ := ih
      exact hchildren _ hchild
  obtain ⟨hm, -⟩ := heverywhere
  exact hm

end Node

/-! ## Tokens -/

/-- Tokens one behind the other in a text. -/
structure Lexeme.Laid (source : String) (ls : List Lexeme) : Prop where
  apart : ls.Pairwise fun l m => l.span.stop ≤ m.span.start
  nonempty : ∀ l ∈ ls, l.span.start < l.span.stop
  inside : ∀ l ∈ ls, l.span.stop ≤ source.utf8ByteSize
  words : ∀ l ∈ ls, ∀ w, l.token.word? = some w → ∃ after, l.span.Holds 0 source.toList w.toList after

namespace Lexeme

variable {source : String} {ls ls' : List Lexeme} {l : Lexeme}

theorem Laid.sublist (h : Laid source ls') (hsub : ls.Sublist ls') : Laid source ls :=
  ⟨h.apart.sublist hsub, fun l hl => h.nonempty l (hsub.subset hl), fun l hl => h.inside l (hsub.subset hl),
    fun l hl => h.words l (hsub.subset hl)⟩

theorem Laid.left (h : Laid source (ls ++ ls')) : Laid source ls := h.sublist (List.sublist_append_left ..)

theorem Laid.right (h : Laid source (ls ++ ls')) : Laid source ls' := h.sublist (List.sublist_append_right ..)

/-- The first token starts first. -/
theorem Laid.start_le (h : Laid source (l :: ls)) : ∀ m ∈ l :: ls, l.span.start ≤ m.span.start := by
  refine List.forall_mem_cons.mpr ⟨Nat.le_refl _, fun m hm => ?_⟩
  have hle := List.rel_of_pairwise_cons h.apart hm
  have hlt := h.nonempty l List.mem_cons_self
  omega

/-- The end of a row of tokens is that of a token, and no other token ends behind it. -/
theorem Laid.stop_le (h : Laid source (l :: ls)) :
    ∃ last ∈ l :: ls, last.span.stop = (extent l ls).stop ∧ ∀ m ∈ l :: ls, m.span.stop ≤ (extent l ls).stop := by
  induction ls generalizing l with
  | nil => exact ⟨l, List.mem_cons_self, rfl, List.forall_mem_singleton.mpr (Nat.le_refl _)⟩
  | cons m ls ih =>
    obtain ⟨last, hlast, hstop, hle⟩ := ih (h.sublist (List.sublist_cons_self ..))
    have hextent : (extent l (m :: ls)).stop = (extent m ls).stop := by
      rw [extent, extent]
      rfl
    rw [hextent]
    refine ⟨last, List.mem_cons_of_mem _ hlast, hstop, List.forall_mem_cons.mpr ⟨?_, hle⟩⟩
    have hbefore : l.span.stop ≤ m.span.start := List.rel_of_pairwise_cons h.apart List.mem_cons_self
    have hlt := h.nonempty m (List.mem_cons_of_mem _ List.mem_cons_self)
    have hm := hle m List.mem_cons_self
    omega

theorem laid_ofSource (source : String) : Laid source (ofSource source) := by
  have hpiece : ∀ l ∈ ofSource source, ∃ text after, text ≠ [] ∧ l.span.Holds 0 source.toList text after ∧
      ∀ w, l.token.word? = some w → w.toList = text := by
    intro l hl
    obtain ⟨p, hp, hlexeme⟩ := List.mem_filterMap.mp hl
    obtain ⟨hne, after, hholds, hword⟩ := Scan.forall_piecesFrom
      (P := fun kind text _ => ∀ t w, kind = .token t → t.word? = some w → w.toList = text)
      (fun c cs t w ht hw => Scan.word_front hw c cs ht) 0 source.toList p hp
    obtain ⟨kind, text, span⟩ := p
    cases kind with
    | token t =>
      cases hlexeme
      exact ⟨text, after, hne, hholds, fun w => hword t w rfl⟩
    | skipped | unrecognized => cases hlexeme
  refine ⟨?_, fun l hl => ?_, fun l hl => ?_, fun l hl w hw => ?_⟩
  · refine List.Pairwise.filterMap Piece.lexeme? (fun p q hle l hl m hm => ?_)
      (Scan.pairwise_piecesFrom 0 source.toList)
    rwa [Scan.span_of_lexeme? hl, Scan.span_of_lexeme? hm]
  · obtain ⟨text, after, hne, hholds, -⟩ := hpiece l hl
    exact hholds.lt hne
  · obtain ⟨text, after, -, ⟨before, hsource, hstart, hstop⟩, -⟩ := hpiece l hl
    rw [← byteLength_toList, hsource, byteLength_append, byteLength_append]
    omega
  · obtain ⟨text, after, -, hholds, hword⟩ := hpiece l hl
    exact ⟨after, hword w hw ▸ hholds⟩

end Lexeme

/-! ## Parts along tokens -/

/-- Each part goes from the start of a token to the end of a token, and ends before the next part. -/
structure AlongLaid (source : String) (ls : List Lexeme) (ns : List Node) : Prop where
  apart : ns.Pairwise fun m n => m.span.stop ≤ n.span.start
  start : ∀ n ∈ ns, ∃ l ∈ ls, n.span.start = l.span.start
  stop : ∀ n ∈ ns, ∃ l ∈ ls, n.span.stop = l.span.stop
  placed : ∀ n ∈ ns, n.Everywhere (Node.WellPlaced source)

/-- Parts along some tokens are along all. -/
theorem AlongLaid.mono {source : String} {ls ls' : List Lexeme} {ns : List Node} (h : AlongLaid source ls ns)
    (hsub : ls ⊆ ls') : AlongLaid source ls' ns where
  apart := h.apart
  start n hn := by
    obtain ⟨l, hl, hstart⟩ := h.start n hn
    exact ⟨l, hsub hl, hstart⟩
  stop n hn := by
    obtain ⟨l, hl, hstop⟩ := h.stop n hn
    exact ⟨l, hsub hl, hstop⟩
  placed := h.placed

/-- Parts lie along tokens if these stand one behind the other in the text. -/
def Along (source : String) (ls : List Lexeme) (ns : List Node) : Prop :=
  Lexeme.Laid source ls → AlongLaid source ls ns

namespace Along

variable {source : String} {ls ls' : List Lexeme} {ms ns : List Node} {n : Node} {l : Lexeme}

theorem nil : Along source ls [] :=
  fun _ => ⟨.nil, List.forall_mem_nil _, List.forall_mem_nil _, List.forall_mem_nil _⟩

/-- There is no part without a token. -/
theorem eq_nil (h : Along source [] ns) : ns = [] := by
  have hlaid : Lexeme.Laid source [] := ⟨.nil, List.forall_mem_nil _, List.forall_mem_nil _, List.forall_mem_nil _⟩
  refine List.eq_nil_iff_forall_not_mem.mpr fun n hn => ?_
  obtain ⟨l, hl, -⟩ := (h hlaid).start n hn
  cases hl

theorem append (hms : Along source ls ms) (hns : Along source ls' ns) : Along source (ls ++ ls') (ms ++ ns) := by
  intro hlaid
  have hms := hms hlaid.left
  have hns := hns hlaid.right
  have hapart : ∀ m ∈ ms, ∀ n ∈ ns, m.span.stop ≤ n.span.start := by
    intro m hm n hn
    obtain ⟨l, hl, hstop⟩ := hms.stop m hm
    obtain ⟨l', hl', hstart⟩ := hns.start n hn
    rw [hstop, hstart]
    exact (List.pairwise_append.mp hlaid.apart).2.2 l hl l' hl'
  have hleft := hms.mono (List.subset_append_left ls ls')
  have hright := hns.mono (List.subset_append_right ls ls')
  exact ⟨List.pairwise_append.mpr ⟨hms.apart, hns.apart, hapart⟩,
    List.forall_mem_append.mpr ⟨hleft.start, hright.start⟩,
    List.forall_mem_append.mpr ⟨hleft.stop, hright.stop⟩, List.forall_mem_append.mpr ⟨hms.placed, hns.placed⟩⟩

/-- Tokens before those of the parts take no part. -/
theorem before (ls : List Lexeme) (hns : Along source ls' ns) : Along source (ls ++ ls') ns := nil.append hns

theorem after (hms : Along source ls ms) : Along source (ls ++ ls') ms := by
  have hall : Along source (ls ++ ls') (ms ++ []) := hms.append nil
  rwa [List.append_nil] at hall

/-- A part that is made of parts along its tokens. -/
theorem node (hchildren : Along source (l :: ls) n.children) (hspan : n.span = extent l ls)
    (hhead : ∀ s, n = .statement s → s.span.start = s.head.span.start)
    (hword : ∀ w, n = .word w → l.token.word? = some w.text ∧ ls = []) : Along source (l :: ls) [n] := by
  intro hlaid
  have hchildren := hchildren hlaid
  obtain ⟨last, hlast, hstop, hle⟩ := hlaid.stop_le
  have hstart : n.span.start = l.span.start := by rw [hspan]; rfl
  have hlt := hlaid.nonempty l List.mem_cons_self
  have hfirst := hle l List.mem_cons_self
  rw [← hspan] at hstop hle hfirst
  have hplaced : n.WellPlaced source := by
    refine ⟨.inl (by omega), ⟨by omega, hstop ▸ hlaid.inside last hlast⟩, fun m hm => ?_, hchildren.apart, hhead, ?_⟩
    · obtain ⟨k, hk, hkstart⟩ := hchildren.start m hm
      obtain ⟨k', hk', hkstop⟩ := hchildren.stop m hm
      refine ⟨?_, hkstop ▸ hle k' hk'⟩
      rw [hstart, hkstart]
      exact hlaid.start_le k hk
    · rintro w rfl
      obtain ⟨hw, rfl⟩ := hword w rfl
      obtain ⟨after, hholds⟩ := hlaid.words l List.mem_cons_self _ hw
      have hspan : w.span = l.span := hspan
      exact ⟨after, hspan ▸ hholds⟩
  exact ⟨List.pairwise_singleton .., List.forall_mem_singleton.mpr ⟨l, List.mem_cons_self, hstart⟩,
    List.forall_mem_singleton.mpr ⟨last, hlast, hstop.symm⟩,
    List.forall_mem_singleton.mpr ⟨hplaced, hchildren.placed⟩⟩

/-- The items of a list. -/
theorem list {τ : Type} [Phrase τ] {nodes : τ → List Node} {ts : List τ}
    (h : ∀ t ∈ ts, Along source (lexemes t) (nodes t)) : Along source (lexemes ts) (ts.flatMap nodes) := by
  induction ts with
  | nil => exact nil
  | cons t ts ih =>
    obtain ⟨ht, hts⟩ := List.forall_mem_cons.mp h
    exact ht.append (ih hts)

end Along

/-! ## Words, values and arguments -/

section

variable (source : String)

theorem along_word (w : WordPhrase) : Along source (lexemes w) [.word (WordPhrase.word w)] := by
  refine Along.node .nil rfl nofun fun w' hw' => ?_
  cases hw'
  exact ⟨w.fits_token, rfl⟩

theorem span_of_literalOf {t : Token} {f : Span → Value} (h : Reader.literalOf t = some f) (s : Span) :
    (f s).span = s ∧ (Node.value (f s)).children = [] := by
  cases t <;> cases h <;> exact ⟨rfl, rfl⟩

theorem along_literal (l : LiteralPhrase) : Along source (lexemes l) [.value (LiteralPhrase.value l)] := by
  obtain ⟨hspan, hchildren⟩ := span_of_literalOf l.fits_token l.lexeme.span
  refine Along.node ?_ hspan nofun nofun
  rw [LiteralPhrase.value, hchildren]
  exact .nil

theorem along_value (v : ValuePhrase) : Along source (lexemes v) [.value (ValuePhrase.value v)] := by
  cases v with
  | inl l => exact along_literal source l
  | inr w => exact Along.node (along_word source w) rfl nofun nofun

theorem along_argument (a : ArgumentPhrase) :
    Along source (lexemes a) [.argument (ArgumentPhrase.argument a)] := by
  rcases a with ⟨key, _ | ⟨equals, v⟩⟩ | l
  · exact Along.node (Along.node (along_word source key) rfl nofun nofun) rfl nofun nofun
  · have hparts : Along source (key.lexeme :: equals.lexeme :: lexemes v)
        [.word (WordPhrase.word key), .value (ValuePhrase.value v)] :=
      (along_word source key).append ((along_value source v).before [equals.lexeme])
    refine Along.node hparts ?_ nofun nofun
    cases v with
    | inl l =>
      obtain ⟨hspan, -⟩ := span_of_literalOf l.fits_token l.lexeme.span
      exact congrArg (Span.through key.lexeme.span) hspan
    | inr w => rfl
  · obtain ⟨hspan, -⟩ := span_of_literalOf l.fits_token l.lexeme.span
    exact Along.node (along_literal source l) hspan nofun nofun

/-- The entries of a list. Commas take no part. -/
theorem along_entries {τ : Type} [Phrase τ] {f : τ → Node} (h : ∀ t, Along source (lexemes t) [f t])
    (es : List (Listed τ)) : Along source (lexemes es) (es.map fun e => f e.1) := by
  rw [List.map_eq_flatMap]
  exact Along.list fun e _ => (h e.1).after

theorem along_words (p : WordsPhrase) : Along source (lexemes p) ((WordsPhrase.words p).map .word) := by
  rw [WordsPhrase.words, List.map_map]
  exact along_entries source (along_word source) (p.1 :: p.2)

theorem along_arguments (p : ArgumentsPhrase) :
    Along source (lexemes p) ((ArgumentsPhrase.arguments p).map .argument) := by
  rw [ArgumentsPhrase.arguments, List.map_map]
  exact along_entries source (along_argument source) p

/-! ## Rows and statements -/

/-- The items of a row. Separators take no part. -/
theorem along_separated {τ : Type} [Phrase τ] {f : τ → Node} {s : Separated τ}
    (h : ∀ t ∈ s.items, Along source (lexemes t) [f t]) : Along source (lexemes s) (s.items.map f) := by
  obtain ⟨before, _ | ⟨first, more, after⟩⟩ := s
  · exact .nil
  · have hmore : Along source (lexemes more) ((more.map Prod.snd).map f) := by
      rw [List.map_map, List.map_eq_flatMap]
      refine Along.list fun p hp => ?_
      exact (h p.2 (List.mem_cons_of_mem _ (List.mem_map_of_mem hp))).before _
    exact ((h first List.mem_cons_self).append hmore.after).before _

theorem along_block {τ : Type} [Phrase τ] {f : τ → Node} {b : Block τ}
    (h : ∀ t ∈ b.contents.items, Along source (lexemes t) [f t]) :
    Along source (lexemes b) (b.contents.items.map f) :=
  (along_separated source h).after.before _

theorem along_statement (s : StatementPhrase) : Along source (lexemes s) [.statement s.statement] := by
  induction s using StatementPhrase.induct with
  | h head args body ih =>
    rw [StatementPhrase.lexemes_mk, StatementPhrase.statement_mk]
    have hbody : Along source (lexemes body)
        (((body.map fun b => b.contents.items.map StatementPhrase.statement).getD []).map .statement) := by
      cases body with
      | none => exact .nil
      | some b =>
        rw [Option.map_some, Option.getD_some, List.map_map]
        exact along_block source (ih b rfl)
    refine Along.node ((along_word source head).append ((along_arguments source args).append hbody)) rfl ?_ nofun
    rintro _ ⟨⟩
    rfl

theorem along_body (b : Block StatementPhrase) : Along source (lexemes b) (b.statements.map .statement) := by
  rw [Block.statements, List.map_map]
  exact along_block source fun s _ => along_statement source s

/-! ## Declarations -/

theorem along_declared : ∀ (k : Keyword) (p : DeclaredPhrase k),
    Along source (lexemes p) (Node.ofDeclared (p.declared k))
  | .pins, names => along_words source names
  | .pattern, (name, body) => (along_word source name).append (along_body source body)
  | .flow, (name, body) => (along_word source name).append (along_body source body)
  | .instances, (name, args) => (along_word source name).append (along_arguments source args)
  | .patset, (name, patterns) => (along_word source name).append (along_words source patterns)

theorem along_declaration (d : DeclarationPhrase) : Along source (lexemes d) [.declaration d.declaration] :=
  Along.node ((along_declared source d.keyword.meaning d.content).before [d.keyword.lexeme]) rfl nofun nofun

end

/-! ## Scripts -/

namespace Script

/-- A script without tokens has no parts and takes no place. -/
theorem everywhere_of_nil {source : String} {s : Script} (hnone : Lexeme.ofSource source = [])
    (hspan : s.span = ⟨source.utf8ByteSize, source.utf8ByteSize⟩) (hparts : (Node.script s).children = []) :
    (Node.script s).Everywhere (Node.WellPlaced source) := by
  have hinside : s.span.start ≤ s.span.stop ∧ s.span.stop ≤ source.utf8ByteSize := by
    rw [hspan]
    exact ⟨Nat.le_refl _, Nat.le_refl _⟩
  have hplaced : (Node.script s).WellPlaced source := by
    refine ⟨.inr ⟨⟨s, rfl⟩, hnone⟩, hinside, ?_, ?_, fun _ h => ?_, fun _ h => ?_⟩
    · rw [hparts]
      exact List.forall_mem_nil _
    · rw [hparts]
      exact .nil
    · cases h
    · cases h
  refine .mk hplaced ?_
  rw [hparts]
  exact List.forall_mem_nil _

theorem everywhere_wellPlaced {source : String} {s : Script} (h : ofSource source = .ok s) :
    (Node.script s).Everywhere (Node.WellPlaced source) := by
  obtain ⟨p, htokens, hscript⟩ := exists_of_ofLexemes (ofTokens_of_ofSource h)
  have hparts : Along source (lexemes p) (Node.script s).children := by
    rw [← hscript, Node.children, ScriptPhrase.script, List.map_map]
    exact along_separated source fun d _ => along_declaration source d
  have hspan : s.span = (ScriptPhrase.script source.utf8ByteSize p).span := by rw [hscript]
  have hlaid := Lexeme.laid_ofSource source
  rw [ScriptPhrase.script, htokens] at hspan
  rw [htokens] at hparts
  cases hls : Lexeme.ofSource source with
  | nil =>
    rw [hls] at hparts hspan
    exact everywhere_of_nil hls hspan hparts.eq_nil
  | cons l ls =>
    rw [hls] at hparts hspan hlaid
    have hnode : Along source (l :: ls) [.script s] := by
      refine Along.node hparts hspan (fun _ h => ?_) fun _ h => ?_
      · cases h
      · cases h
    exact (hnode hlaid).placed _ List.mem_cons_self

/-- The parts of a script nest: each takes a place in the text, and inside of it the parts stand that it is made of,
one behind the other. -/
theorem nodes_placed {source : String} {s : Script} (h : ofSource source = .ok s) :
    ∀ n, (Node.script s).Contains n → n.WellPlaced source :=
  fun _ => (everywhere_wellPlaced h).of_contains

/-- A pattern with a block in a block. -/
def nestedPattern : String := "pattern p \x7b loop 2, \x7b cycle n=3 \x7d \x7d"

theorem nestedPattern_placed : ∃ s, ofSource nestedPattern = .ok s ∧ s.declarations ≠ [] ∧
    ∀ n, (Node.script s).Contains n → n.WellPlaced nestedPattern := by
  have hread : (ofSource nestedPattern).toOption.any (fun s => s.declarations.length = 1) = true := by
    decide +kernel
  cases h : ofSource nestedPattern with
  | ok s =>
    rw [h] at hread
    refine ⟨s, rfl, ?_, nodes_placed h⟩
    have hone : s.declarations.length = 1 := of_decide_eq_true hread
    exact List.ne_nil_of_length_eq_add_one hone
  | error ds =>
    rw [h] at hread
    cases hread

end Script

end TestProgram
