import TestProgram.Proofs.Script.Nodes

/-!
# The tokens of values

Every value in a script is that of a token of its text and stands at its place (`Script.value_of_token`). This is so of
the values of a phrase and its tokens, and is kept where phrases are put together.
-/

namespace TestProgram

open Phrase (lexemes)

/-- The value is what a token stands for, on its own or as a word. -/
inductive Lexeme.Means (l : Lexeme) : Value → Prop
  | literal {f} : Reader.literalOf l.token = some f → Means l (f l.span)
  | word {w} : l.token.word? = some w → Means l (.word ⟨w, l.span⟩)

/-- The values in a part are those of some tokens. -/
def Node.From (ls : List Lexeme) (n : Node) : Prop := n.Everywhere fun m => ∀ v, m = .value v → ∃ l ∈ ls, l.Means v

namespace Node

variable {ls ls' : List Lexeme} {n : Node}

theorem From.mono (h : n.From ls) (hsub : ls ⊆ ls') : n.From ls' := by
  unfold From at h ⊢
  induction h with
  | mk hn _ ih =>
    refine .mk (fun v hv => ?_) ih
    obtain ⟨l, hl, hmeans⟩ := hn v hv
    exact ⟨l, hsub hl, hmeans⟩

/-- A part that is no value has the values of the parts that it is made of. -/
theorem from_children (hvalue : ∀ v, n ≠ .value v) (h : ∀ m ∈ n.children, m.From ls) : n.From ls :=
  .mk (fun v hv => absurd hv (hvalue v)) h

theorem from_left (h : n.From ls) : n.From (ls ++ ls') := h.mono (List.subset_append_left ..)

theorem from_right (h : n.From ls') : n.From (ls ++ ls') := h.mono (List.subset_append_right ..)

end Node

open Node (from_children from_left from_right)

/-! ## Words, values and arguments -/

theorem from_word (ls : List Lexeme) (w : Word) : (Node.word w).From ls :=
  from_children nofun nofun

theorem from_literal (l : LiteralPhrase) : (Node.value (LiteralPhrase.value l)).From (lexemes l) := by
  obtain ⟨-, hchildren⟩ := span_of_literalOf l.fits_token l.lexeme.span
  refine .mk ?_ ?_
  · rintro _ ⟨⟩
    exact ⟨l.lexeme, List.mem_singleton_self _, .literal l.fits_token⟩
  · rw [LiteralPhrase.value, hchildren]
    exact List.forall_mem_nil _

theorem from_value (v : ValuePhrase) : (Node.value (ValuePhrase.value v)).From (lexemes v) := by
  cases v with
  | inl l => exact from_literal l
  | inr w =>
    refine .mk ?_ (List.forall_mem_singleton.mpr (from_word _ _))
    rintro _ ⟨⟩
    exact ⟨w.lexeme, List.mem_singleton_self _, .word w.fits_token⟩

theorem from_argument (a : ArgumentPhrase) : (Node.argument (ArgumentPhrase.argument a)).From (lexemes a) := by
  rcases a with ⟨key, _ | ⟨equals, v⟩⟩ | l
  · exact from_children nofun (List.forall_mem_singleton.mpr (from_left (from_value (.inr key))))
  · exact from_children nofun
      (List.forall_mem_cons.mpr ⟨from_word _ _, List.forall_mem_singleton.mpr (from_right (from_right (from_value v)))⟩)
  · exact from_children nofun (List.forall_mem_singleton.mpr (from_literal l))

/-- The items of a list. -/
theorem from_list {τ : Type} [Phrase τ] {f : τ → Node} {ts : List τ} (h : ∀ t ∈ ts, (f t).From (lexemes t)) :
    ∀ n ∈ ts.map f, n.From (lexemes ts) := by
  rintro _ hn
  obtain ⟨t, ht, rfl⟩ := List.mem_map.mp hn
  exact (h t ht).mono fun l hl => List.mem_flatMap.mpr ⟨t, ht, hl⟩

theorem from_arguments (p : ArgumentsPhrase) :
    ∀ n ∈ (ArgumentsPhrase.arguments p).map Node.argument, n.From (lexemes p) := by
  rw [ArgumentsPhrase.arguments, List.map_map]
  exact from_list fun a _ => from_left (from_argument a.1)

/-! ## Rows and statements -/

/-- The items of a row. -/
theorem from_separated {τ : Type} [Phrase τ] {f : τ → Node} {s : Separated τ}
    (h : ∀ t ∈ s.items, (f t).From (lexemes t)) : ∀ n ∈ s.items.map f, n.From (lexemes s) := by
  obtain ⟨before, _ | ⟨first, more, after⟩⟩ := s
  · exact List.forall_mem_nil _
  · obtain ⟨hfirst, hmore⟩ := List.forall_mem_cons.mp h
    refine List.forall_mem_cons.mpr ⟨from_right (from_left hfirst), fun n hn => from_right (from_right (from_left ?_))⟩
    rw [List.map_map] at hn
    exact from_list (fun p hp => from_right (hmore p.2 (List.mem_map_of_mem hp))) n hn

theorem from_statement (s : StatementPhrase) : (Node.statement s.statement).From (lexemes s) := by
  induction s using StatementPhrase.induct with
  | h head args body ih =>
    rw [StatementPhrase.lexemes_mk, StatementPhrase.statement_mk]
    refine from_children nofun (List.forall_mem_cons.mpr ⟨from_word _ _, List.forall_mem_append.mpr ⟨?_, ?_⟩⟩)
    · exact fun n hn => from_right (from_left (from_arguments args n hn))
    · cases body with
      | none => exact List.forall_mem_nil _
      | some b =>
        intro n hn
        refine from_right (from_right (from_right (from_left ?_)))
        have hitems := from_separated (f := Node.statement ∘ StatementPhrase.statement) (s := b.contents) (ih b rfl)
        rw [← List.map_map] at hitems
        exact hitems n hn

theorem from_body (b : Block StatementPhrase) : ∀ n ∈ b.statements.map Node.statement, n.From (lexemes b) := by
  intro n hn
  refine from_right (from_left ?_)
  rw [Block.statements, List.map_map] at hn
  exact from_separated (fun s _ => from_statement s) n hn

/-! ## Declarations and scripts -/

theorem from_words (ls : List Lexeme) (ws : List Word) : ∀ n ∈ ws.map Node.word, n.From ls :=
  List.forall_mem_map.mpr fun w _ => from_word ls w

theorem from_declared : ∀ (k : Keyword) (p : DeclaredPhrase k), ∀ n ∈ Node.ofDeclared (p.declared k), n.From (lexemes p)
  | .pins, _ => from_words _ _
  | .pattern, (_, body) | .flow, (_, body) =>
    List.forall_mem_cons.mpr ⟨from_word _ _, fun n hn => from_right (from_body body n hn)⟩
  | .instances, (_, args) =>
    List.forall_mem_cons.mpr ⟨from_word _ _, fun n hn => from_right (from_arguments args n hn)⟩
  | .patset, _ => List.forall_mem_cons.mpr ⟨from_word _ _, from_words _ _⟩

theorem from_declaration (d : DeclarationPhrase) : (Node.declaration d.declaration).From (lexemes d) :=
  from_children nofun fun n hn => from_right (from_declared _ d.content n hn)

namespace Script

theorem from_ofSource {source : String} {s : Script} (h : ofSource source = .ok s) :
    (Node.script s).From (Lexeme.ofSource source) := by
  obtain ⟨p, htokens, hscript⟩ := exists_of_ofLexemes (ofTokens_of_ofSource h)
  refine from_children nofun ?_
  rw [← htokens, ← hscript, Node.children, ScriptPhrase.script, List.map_map]
  exact from_separated fun d _ => from_declaration d

/-- A value at any depth of a script is that of a token. -/
theorem value_of_token {source : String} {s : Script} (h : ofSource source = .ok s) {v : Value}
    (hv : (Node.script s).Contains (.value v)) : ∃ l ∈ Lexeme.ofSource source, l.Means v :=
  (from_ofSource h).of_contains hv v rfl

end Script

end TestProgram
