import TestProgram.Proofs.Script.Pieces

/-!
# String literals

A text between double quotes, with a backslash before each quote and each backslash in it, is one token that
stands for the text, whatever follows it (`Scan.piecesFrom_literal`). So any texts can be written as literals
with spaces between them and are read back (`literals_read_back`).
-/

namespace TestProgram

namespace Scan

open Text.Quoted (encode decode_encode)

/-- The literal that stands for a text. -/
def literal (s : String) : String := "\"" ++ String.ofList (encode s.toList) ++ "\""

theorem toList_literal (s : String) : (literal s).toList = '"' :: (encode s.toList ++ ['"']) := by
  rw [literal, String.toList_append, String.toList_append, String.toList_ofList (l := encode s.toList)]
  rfl

/-! ## One literal -/

/-- The inside of a literal ends at the quote after it. -/
theorem insideLength_encode (cs rest : List Char) : insideLength (encode cs ++ '"' :: rest) = (encode cs).length := by
  induction cs with
  | nil =>
    rw [encode, List.nil_append, insideLength, if_pos (.inl rfl)]
    · rfl
    · exact fun _ _ h => absurd h (by decide)
  | cons c cs ih =>
    rw [encode]
    split
    · rename_i hescaped
      have hline : c ≠ '\n' := by rcases hescaped with rfl | rfl <;> decide
      rw [List.cons_append, List.cons_append, insideLength, if_neg hline, ih]
      rfl
    · rename_i hplain
      rw [List.cons_append, insideLength, if_neg hplain, ih]
      · rfl
      · exact fun d ds hc _ => hplain (.inr hc)

theorem string_encode (cs rest : List Char) :
    string (encode cs ++ '"' :: rest) = (.token (.text (String.ofList cs)), (encode cs).length + 1) := by
  have htake : (encode cs ++ '"' :: rest).take (encode cs).length = encode cs := List.take_left
  have hdrop : (encode cs ++ '"' :: rest).drop (encode cs).length = '"' :: rest := List.drop_left
  unfold string
  dsimp only
  rw [insideLength_encode, htake, hdrop, decode_encode]
  rfl

/-- A literal is the first piece of a text that begins with it. -/
theorem piecesFrom_literal (start : Nat) (s : String) (rest : List Char) :
    piecesFrom start ((literal s).toList ++ rest) =
      ⟨.token (.text s), (literal s).toList, ⟨start, start + (literal s).utf8ByteSize⟩⟩ ::
        piecesFrom (start + (literal s).utf8ByteSize) rest := by
  have htail : encode s.toList ++ ['"'] ++ rest = encode s.toList ++ '"' :: rest := List.append_assoc ..
  have hfront : front '"' (encode s.toList ++ ['"'] ++ rest) =
      (.token (.text s), (encode s.toList ++ ['"']).length) := by
    rw [show front '"' _ = string _ from rfl, htail, string_encode, String.ofList_toList, List.length_append]
    rfl
  rw [toList_literal, List.cons_append, piecesFrom, hfront]
  dsimp only
  rw [List.take_left, List.drop_left, ← toList_literal, byteLength_toList]

/-- So is a space before something else. -/
theorem piecesFrom_space (start : Nat) {c : Char} (hc : isSpace c = false) (cs : List Char) :
    piecesFrom start (' ' :: c :: cs) = ⟨.skipped, [' '], ⟨start, start + 1⟩⟩ :: piecesFrom (start + 1) (c :: cs) := by
  have hfront : front ' ' (c :: cs) = (.skipped, 0) := by
    rw [show front ' ' (c :: cs) = (.skipped, ((c :: cs).takeWhile isSpace).length) from rfl,
      List.takeWhile_cons_of_neg (ne_true_of_eq_false hc)]
    rfl
  rw [piecesFrom, hfront]
  rfl

/-! ## Several literals -/

/-- The tokens of literals with single bytes between them, the first one at the byte `start`. -/
def literalLexemes : (start : Nat) → List String → List Lexeme
  | _, [] => []
  | start, s :: ss =>
    let stop := start + (literal s).utf8ByteSize
    ⟨.text s, ⟨start, stop⟩⟩ :: literalLexemes (stop + 1) ss

/-- Literals with single spaces between them. -/
def literals (ss : List String) : List Char := [' '].intercalate (ss.map fun s => (literal s).toList)

theorem literals_cons_cons (s t : String) (ss : List String) :
    literals (s :: t :: ss) = (literal s).toList ++ ([' '] ++ literals (t :: ss)) :=
  List.intercalate_cons_cons.trans (List.append_assoc ..)

/-- Only a literal can stand behind the space. -/
theorem exists_literals (s : String) (ss : List String) : ∃ cs, literals (s :: ss) = '"' :: cs := by
  cases ss with
  | nil => exact ⟨_, List.intercalate_singleton.trans (toList_literal s)⟩
  | cons t ss =>
    rw [literals_cons_cons, toList_literal]
    exact ⟨_, rfl⟩

/-- Literals with spaces between them are cut into the tokens of the literals. -/
theorem piecesFrom_literals (start : Nat) (ss : List String) :
    (piecesFrom start (literals ss)).filterMap Piece.lexeme? = literalLexemes start ss ∧
      (piecesFrom start (literals ss)).filter Piece.isUnrecognized = [] := by
  induction ss generalizing start with
  | nil =>
    rw [literals, List.map_nil, List.intercalate_nil, piecesFrom]
    exact ⟨rfl, rfl⟩
  | cons s ss ih =>
    cases ss with
    | nil =>
      have hpieces := piecesFrom_literal start s []
      rw [List.append_nil, piecesFrom] at hpieces
      rw [literals, List.map_singleton, List.intercalate_singleton, hpieces]
      exact ⟨rfl, rfl⟩
    | cons t ss =>
      obtain ⟨htokens, hbad⟩ := ih (start + (literal s).utf8ByteSize + 1)
      obtain ⟨cs, hcs⟩ := exists_literals t ss
      rw [literals_cons_cons, piecesFrom_literal, hcs, List.singleton_append, piecesFrom_space _ rfl, ← hcs]
      exact ⟨congrArg (List.cons _) htokens, hbad⟩

/-- Each token stands where its literal does. -/
theorem literalLexemes_hold (start : Nat) (ss : List String) :
    List.Forall₂ (fun s l => l.token = .text s ∧ ∃ after, l.span.Holds start (literals ss) (literal s).toList after)
      ss (literalLexemes start ss) := by
  induction ss generalizing start with
  | nil => exact .nil
  | cons s ss ih =>
    have hfirst : ∀ after, Span.Holds ⟨start, start + (literal s).utf8ByteSize⟩ start ((literal s).toList ++ after)
        (literal s).toList after := by
      intro after
      rw [← byteLength_toList]
      exact Span.holds_front start _ after
    cases ss with
    | nil =>
      refine .cons ⟨rfl, [], ?_⟩ .nil
      have hlast := hfirst []
      rw [List.append_nil] at hlast
      rwa [literals, List.map_singleton, List.intercalate_singleton]
    | cons t ss =>
      rw [literals_cons_cons]
      refine .cons ⟨rfl, _, hfirst _⟩ ((ih _).imp fun u l => ?_)
      rintro ⟨htoken, after, hholds⟩
      refine ⟨htoken, after, .behind _ (.behind [' '] ?_)⟩
      rwa [byteLength_toList]

/-- Texts that are written as literals with single spaces between them are read back, each from its literal. -/
theorem literals_read_back (ss : List String) :
    let source := " ".intercalate (ss.map literal)
    unrecognized source = [] ∧ Lexeme.ofSource source = literalLexemes 0 ss ∧
      List.Forall₂ (fun s l => l.token = .text s ∧ ∃ after, l.span.Holds 0 source.toList (literal s).toList after)
        ss (Lexeme.ofSource source) := by
  intro source
  have hsource : source.toList = literals ss := by
    rw [String.toList_intercalate, List.map_map]
    rfl
  obtain ⟨htokens, hbad⟩ := piecesFrom_literals 0 ss
  rw [← hsource] at htokens hbad
  have hhold := literalLexemes_hold 0 ss
  rw [← hsource, ← htokens] at hhold
  exact ⟨hbad, htokens, hhold⟩

end Scan

end TestProgram
