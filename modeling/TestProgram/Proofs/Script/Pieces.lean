import Mathlib.Data.List.Nodup
import TestProgram.Proofs.Script.Words

/-!
# The bytes of a script

Every piece of a script stands at its place in the text (`Scan.forall_piecesFrom`), and the pieces follow one
another (`pairwise_piecesFrom`). A piece that is skipped is a run of blanks or a comment (`skip_front`), and a
token with a newline in it is a newline or a string (`newline_front`). So every byte belongs to a token, to a bad
piece, or to the blanks and comments between them (`bytes_accounted`).
-/

namespace TestProgram

/-! ## Places -/

theorem byteLength_append (cs ds : List Char) : byteLength (cs ++ ds) = byteLength cs + byteLength ds := by
  induction cs with
  | nil => exact (Nat.zero_add _).symm
  | cons c cs ih => rw [List.cons_append, byteLength, byteLength, ih, Nat.add_assoc]

theorem byteLength_toList (s : String) : byteLength s.toList = s.utf8ByteSize := by
  have hlist : ∀ cs : List Char, (String.ofList cs).utf8ByteSize = byteLength cs := by
    intro cs
    induction cs with
    | nil => rfl
    | cons c cs ih =>
      rw [← List.singleton_append, String.ofList_append, String.utf8ByteSize_append, ih, byteLength_append,
        ← String.singleton_eq_ofList, String.utf8ByteSize_singleton]
      rfl
  rw [← hlist, String.ofList_toList]

theorem byteLength_pos {cs : List Char} (h : cs ≠ []) : 0 < byteLength cs := by
  cases cs with
  | nil => exact absurd rfl h
  | cons c cs => exact Nat.add_pos_left c.utf8Size_pos _

namespace Span

/-- In a text that begins at a byte of the script, `text` stands at a place, and `after` comes behind it. -/
def Holds (s : Span) (start : Nat) (cs text after : List Char) : Prop :=
  ∃ before, cs = before ++ (text ++ after) ∧ s.start = start + byteLength before ∧
    s.stop = s.start + byteLength text

variable {s : Span} {start : Nat} {cs text after : List Char}

theorem holds_front (start : Nat) (text after : List Char) :
    Holds ⟨start, start + byteLength text⟩ start (text ++ after) text after :=
  ⟨[], rfl, rfl, rfl⟩

/-- A place behind the front of a text. -/
theorem Holds.behind (front : List Char) (h : s.Holds (start + byteLength front) cs text after) :
    s.Holds start (front ++ cs) text after := by
  obtain ⟨before, rfl, hstart, hstop⟩ := h
  refine ⟨front ++ before, (List.append_assoc ..).symm, ?_, hstop⟩
  rw [hstart, byteLength_append, Nat.add_assoc]

theorem Holds.le (h : s.Holds start cs text after) : start ≤ s.start := by
  obtain ⟨before, -, hstart, -⟩ := h
  rw [hstart]
  exact Nat.le_add_right _ _

theorem Holds.lt (h : s.Holds start cs text after) (hne : text ≠ []) : s.start < s.stop := by
  obtain ⟨before, -, -, hstop⟩ := h
  rw [hstop]
  exact Nat.lt_add_of_pos_right (byteLength_pos hne)

theorem isValid_byteLength {source : String} {before after : List Char} (h : source.toList = before ++ after) :
    String.Pos.Raw.IsValid source ⟨byteLength before⟩ := by
  refine String.Pos.Raw.isValid_iff_exists_append.mpr ⟨.ofList before, .ofList after, ?_, ?_⟩
  · rw [← String.ofList_append, ← h, String.ofList_toList]
  · rw [String.Pos.Raw.ext_iff, String.byteIdx_rawEndPos, ← byteLength_toList, String.toList_ofList]

/-- Both ends of the place are boundaries of characters of the script. -/
theorem Holds.isValid {source : String} (h : s.Holds 0 source.toList text after) :
    String.Pos.Raw.IsValid source ⟨s.start⟩ ∧ String.Pos.Raw.IsValid source ⟨s.stop⟩ := by
  obtain ⟨before, hsource, hstart, hstop⟩ := h
  rw [Nat.zero_add] at hstart
  refine ⟨hstart ▸ isValid_byteLength hsource, ?_⟩
  rw [hstop, hstart, ← byteLength_append]
  exact isValid_byteLength (hsource.trans (List.append_assoc ..).symm)

/-- The byte belongs to the place. -/
def Covers (s : Span) (byte : Nat) : Prop := s.start ≤ byte ∧ byte < s.stop

/-- The places before, between and after those that are given, up to the byte `size`. -/
def gaps (size : Nat) : (start : Nat) → List Span → List Span
  | start, [] => [⟨start, size⟩]
  | start, s :: ss => ⟨start, s.start⟩ :: gaps size s.stop ss

end Span

namespace Scan

/-! ## Single pieces -/

/-- Taking as many characters of a text as there are in its beginning. -/
theorem take_takeWhile (p : Char → Bool) (cs : List Char) : cs.take (cs.takeWhile p).length = cs.takeWhile p :=
  (List.prefix_iff_eq_take.mp (List.takeWhile_prefix p)).symm

theorem drop_takeWhile (p : Char → Bool) (cs : List Char) : cs.drop (cs.takeWhile p).length = cs.dropWhile p := by
  have hdrop : (cs.takeWhile p ++ cs.dropWhile p).drop (cs.takeWhile p).length = cs.dropWhile p := List.drop_left
  rwa [List.takeWhile_append_dropWhile] at hdrop

theorem not_mem_takeWhile {p : Char → Bool} {c : Char} (hc : p c = false) (cs : List Char) : c ∉ cs.takeWhile p :=
  fun hmem => ne_true_of_eq_false hc (List.all_eq_true.mp List.all_takeWhile c hmem)

/-- A run of blanks, or a comment up to the next newline or to the end. -/
inductive Skip : (text after : List Char) → Prop
  | blanks {text after} : text ≠ [] → (∀ c ∈ text, c = ' ' ∨ c = '\t' ∨ c = '\r') → Skip text after
  | comment {body after} : '\n' ∉ body → (∀ c ∈ after.head?, c = '\n') → Skip ('#' :: body) after

/-- Runs of blanks and comments. -/
inductive Filler : (text after : List Char) → Prop
  | none {after} : Filler [] after
  | cons {text more after} : Skip text (more ++ after) → Filler more after → Filler (text ++ more) after

/-- What is skipped are blanks and comments. -/
theorem skip_front (c : Char) (cs : List Char) :
    (front c cs).1 = .skipped → Skip (c :: cs.take (front c cs).2) (cs.drop (front c cs).2) := by
  have hstring : (string cs).1 ≠ .skipped := by
    unfold string
    dsimp only
    split
    · split <;> exact PieceKind.noConfusion
    · exact PieceKind.noConfusion
  fun_cases front c cs with
  | case1 hspace =>
    intro _
    refine .blanks (List.cons_ne_nil _ _) fun d hd => ?_
    have hd : isSpace d = true := by
      rw [take_takeWhile] at hd
      rcases List.mem_cons.mp hd with rfl | hd
      · exact hspace
      · exact List.all_eq_true.mp List.all_takeWhile d hd
    simpa [isSpace, or_assoc] using hd
  | case2 _ hhash =>
    intro _
    rw [take_takeWhile, drop_takeWhile, hhash]
    refine .comment (not_mem_takeWhile rfl cs) fun d hd => ?_
    · have hnot := List.head?_dropWhile_not (fun d : Char => decide (d ≠ '\n')) cs
      rw [Option.mem_def.mp hd] at hnot
      simpa using hnot
  | case4 => exact fun h => absurd h hstring
  | case3 | case5 | case6 | case7 | case8 =>
    intro h
    cases h

/-- The token of a word is the word that stands there. -/
theorem word_front {t : Token} {w : String} (hw : t.word? = some w) (c : Char) (cs : List Char) :
    (front c cs).1 = .token t → w.toList = c :: cs.take (front c cs).2 := by
  fun_cases front c cs with
  | case1 | case2 =>
    intro h
    cases h
  | case3 =>
    rintro ⟨⟩
    cases hw
  | case4 =>
    intro h
    rw [word?_of_string h] at hw
    cases hw
  | case5 _ _ _ _ _ token _ hquantity =>
    rintro ⟨⟩
    have hnone := word?_quantity (c :: cs)
    rw [hquantity, hw] at hnone
    cases hnone
  | case6 =>
    rintro ⟨⟩
    rw [Token.word?_ofWord] at hw
    obtain rfl := Option.some.inj hw
    rw [String.toList_ofList, take_takeWhile]
  | case7 _ _ _ _ _ _ token hsign =>
    rintro ⟨⟩
    rw [word?_of_sign? hsign] at hw
    cases hw
  | case8 =>
    intro h
    cases h

/-! ### Newlines -/

theorem newline_take_add {m n : Nat} {cs : List Char} (hm : '\n' ∉ cs.take m) (hn : '\n' ∉ (cs.drop m).take n) :
    '\n' ∉ cs.take (m + n) := by
  rw [List.take_add, List.mem_append]
  exact not_or.mpr ⟨hm, hn⟩

theorem newline_digits (cs : List Char) : '\n' ∉ cs.take (Literal.digits cs).1.length := by
  rw [Literal.digits, take_takeWhile]
  exact not_mem_takeWhile rfl cs

theorem newline_fraction (cs : List Char) : '\n' ∉ cs.take (Literal.fractionLength cs) := by
  fun_cases Literal.fractionLength cs with
  | case1 | case3 => exact List.not_mem_nil
  | case2 cs ds =>
    rw [List.take_succ_cons, List.mem_cons]
    exact not_or.mpr ⟨by decide, newline_digits cs⟩

theorem newline_mantissa (cs : List Char) : '\n' ∉ cs.take (Literal.mantissaLength cs) := by
  unfold Literal.mantissaLength
  dsimp only
  split
  · exact List.not_mem_nil
  · refine newline_take_add (newline_digits cs) ?_
    rw [Literal.digits, drop_takeWhile]
    exact newline_fraction _

theorem newline_exponent (cs : List Char) : '\n' ∉ cs.take (Literal.exponentLength cs) := by
  fun_cases Literal.exponentLength cs with
  | case1 | case3 | case4 => exact List.not_mem_nil
  | case2 c cs hmark sign ds =>
    have hsign : '\n' ∉ cs.take sign := by
      dsimp only [sign]
      split <;> simp
    rw [List.take_succ_cons, List.mem_cons, Nat.add_comm]
    refine not_or.mpr ⟨?_, newline_take_add hsign (newline_digits _)⟩
    rintro rfl
    exact absurd hmark (by decide)

theorem newline_timeUnit {cs : List Char} {unit : TimeUnit} {n : Nat} (h : timeUnit? cs = some (unit, n)) :
    '\n' ∉ cs.take n := by
  unfold timeUnit? at h
  split at h <;> cases h <;> simp

theorem newline_frequencyUnit {cs : List Char} {scale : Float} {n : Nat} (h : frequencyUnit? cs = some (scale, n)) :
    '\n' ∉ cs.take n := by
  unfold frequencyUnit? at h
  split at h <;> cases h <;> simp

theorem newline_quantity (cs : List Char) : '\n' ∉ cs.take (quantity cs).2 := by
  fun_cases quantity cs with
  | case1 mantissa _ unit n hunit => exact newline_take_add (newline_mantissa cs) (newline_timeUnit hunit)
  | case2 mantissa whole _ scale n hunit =>
    exact newline_take_add (newline_take_add (newline_mantissa cs) (newline_exponent _)) (newline_frequencyUnit hunit)
  | case3 mantissa whole => exact newline_take_add (newline_mantissa cs) (newline_exponent _)

theorem string_token {cs : List Char} {t : Token} (h : (string cs).1 = .token t) : ∃ s, t = .text s := by
  unfold string at h
  dsimp only at h
  split at h
  · split at h
    · cases h
      exact ⟨_, rfl⟩
    · cases h
  · cases h

/-- Only newlines and strings have newlines in them. -/
theorem newline_front {t : Token} (c : Char) (cs : List Char) (hnewline : '\n' ∈ c :: cs.take (front c cs).2) :
    (front c cs).1 = .token t → t = .newline ∨ ∃ s, t = .text s := by
  revert hnewline
  fun_cases front c cs with
  | case1 | case2 | case8 =>
    intro _ h
    cases h
  | case3 =>
    rintro _ ⟨⟩
    exact .inl rfl
  | case4 => exact fun _ h => .inr (string_token h)
  | case5 _ _ hc _ _ token length hquantity =>
    intro hmem
    refine absurd hmem (not_or.mpr ⟨Ne.symm hc, fun hmem => ?_⟩ ∘ List.mem_cons.mp)
    have hnot := newline_quantity (c :: cs)
    rw [hquantity] at hnot
    cases length with
    | zero => exact List.not_mem_nil hmem
    | succ n => exact hnot (List.mem_cons_of_mem c hmem)
  | case6 _ _ hc _ _ _ more =>
    intro hmem
    refine absurd hmem (not_or.mpr ⟨Ne.symm hc, ?_⟩ ∘ List.mem_cons.mp)
    rw [take_takeWhile]
    exact not_mem_takeWhile rfl cs
  | case7 _ _ hc =>
    intro hmem
    exact absurd hmem (not_or.mpr ⟨Ne.symm hc, List.not_mem_nil⟩ ∘ List.mem_cons.mp)

/-! ## All pieces -/

/-- What holds of every piece at the front of a text holds of all pieces at their places. -/
theorem forall_piecesFrom {P : PieceKind → List Char → List Char → Prop}
    (h : ∀ c cs, P (front c cs).1 (c :: cs.take (front c cs).2) (cs.drop (front c cs).2)) (start : Nat)
    (cs : List Char) : ∀ p ∈ piecesFrom start cs,
      p.text ≠ [] ∧ ∃ after, p.span.Holds start cs p.text after ∧ P p.kind p.text after := by
  fun_induction piecesFrom start cs with
  | case1 => exact List.forall_mem_nil _
  | case2 start c cs kind more hfront text stop ih =>
    have hcut : c :: cs = text ++ cs.drop more := by
      rw [List.cons_append, List.take_append_drop]
    have hfirst := h c cs
    rw [hfront] at hfirst
    refine List.forall_mem_cons.mpr ⟨⟨List.cons_ne_nil _ _, cs.drop more, ?_, hfirst⟩, fun p hp => ?_⟩
    · rw [hcut]
      exact Span.holds_front start text _
    · obtain ⟨hne, after, hholds, hp⟩ := ih p hp
      rw [hcut]
      exact ⟨hne, after, hholds.behind text, hp⟩

theorem holds_piecesFrom {start : Nat} {cs : List Char} {p : Piece} (hp : p ∈ piecesFrom start cs) :
    p.text ≠ [] ∧ ∃ after, p.span.Holds start cs p.text after := by
  obtain ⟨hne, after, hholds, -⟩ := forall_piecesFrom (P := fun _ _ _ => True) (fun _ _ => trivial) start cs p hp
  exact ⟨hne, after, hholds⟩

/-- Every piece ends before the next one starts. -/
theorem pairwise_piecesFrom (start : Nat) (cs : List Char) :
    (piecesFrom start cs).Pairwise fun p q => p.span.stop ≤ q.span.start := by
  fun_induction piecesFrom start cs with
  | case1 => exact .nil
  | case2 start c cs kind more hfront text stop ih =>
    refine List.pairwise_cons.mpr ⟨fun q hq => ?_, ih⟩
    obtain ⟨-, after, hholds⟩ := holds_piecesFrom hq
    exact hholds.le

/-- Every character belongs to a piece. -/
theorem exists_covers {c : Char} {after : List Char} (start : Nat) (cs : List Char) :
    ∀ before, cs = before ++ c :: after →
      ∃ p ∈ piecesFrom start cs, c ∈ p.text ∧ p.span.Covers (start + byteLength before) := by
  fun_induction piecesFrom start cs with
  | case1 => exact fun before h => absurd h.symm (List.append_ne_nil_of_right_ne_nil _ (List.cons_ne_nil _ _))
  | case2 start d cs kind more hfront text stop ih =>
    intro before h
    have hcut : text ++ cs.drop more = before ++ c :: after := by
      rw [← h, List.cons_append, List.take_append_drop]
    obtain ⟨later, hbefore, hdrop⟩ | ⟨inside, htext, hinside⟩ := List.append_eq_append_iff.mp hcut
    · obtain ⟨p, hp, hmem, hcovers⟩ := ih later hdrop
      refine ⟨p, List.mem_cons_of_mem _ hp, hmem, ?_⟩
      rwa [hbefore, byteLength_append, ← Nat.add_assoc]
    · cases inside with
      | nil =>
        obtain ⟨p, hp, hmem, hcovers⟩ := ih [] hinside.symm
        refine ⟨p, List.mem_cons_of_mem _ hp, hmem, ?_⟩
        rwa [← List.append_nil before, ← htext]
      | cons c' inside =>
        obtain ⟨rfl, -⟩ := List.cons.inj hinside
        refine ⟨_, List.mem_cons_self, ?_, Nat.le_add_right _ _, ?_⟩
        · show c ∈ text
          rw [htext]
          exact List.mem_append_right _ List.mem_cons_self
        · show start + byteLength before < start + byteLength text
          rw [htext, byteLength_append]
          exact Nat.add_lt_add_left (Nat.lt_add_of_pos_right (byteLength_pos (List.cons_ne_nil _ _))) _

/-! ## Tokens and bad pieces -/

theorem span_of_lexeme? {p : Piece} {l : Lexeme} (h : p.lexeme? = some l) : l.span = p.span := by
  unfold Piece.lexeme? at h
  split at h <;> cases h
  rfl

/-- The piece is not skipped. -/
def isMark (p : Piece) : Bool := !(p.kind matches .skipped)

/-- The places of all tokens and bad pieces, in the order of their starts. -/
def marks (source : String) : List Span :=
  ((Lexeme.ofSource source).map Lexeme.span ++ (unrecognized source).map Piece.span).mergeSort
    fun s t => s.start ≤ t.start

theorem perm_marks (ps : List Piece) :
    ((ps.filterMap Piece.lexeme?).map Lexeme.span ++ (ps.filter Piece.isUnrecognized).map Piece.span).Perm
      ((ps.filter isMark).map Piece.span) := by
  induction ps with
  | nil => exact .nil
  | cons p ps ih =>
    obtain ⟨kind, text, span⟩ := p
    cases kind with
    | token t => exact ih.cons span
    | skipped => exact ih
    | unrecognized => exact List.perm_middle.trans (ih.cons span)

/-- That is the order in which the text is cut. -/
theorem marks_eq (source : String) : marks source = ((pieces source).filter isMark).map Piece.span := by
  have hstarts : (((pieces source).filter isMark).map Piece.span).Pairwise fun s t => s.start < t.start := by
    have hordered := (pairwise_piecesFrom 0 source.toList).filter isMark
    refine List.pairwise_map.mpr (hordered.imp_of_mem fun {p q} hp _ hle => ?_)
    obtain ⟨hne, after, hholds⟩ := holds_piecesFrom (List.mem_filter.mp hp).1
    exact Nat.lt_of_lt_of_le (hholds.lt hne) hle
  have hperm : (marks source).Perm (((pieces source).filter isMark).map Piece.span) :=
    (List.mergeSort_perm _ _).trans (perm_marks _)
  have hsorted : (marks source).Pairwise fun s t => decide (s.start ≤ t.start) = true :=
    List.pairwise_mergeSort (fun _ _ _ hst htu => by simp only [decide_eq_true_eq] at *; omega)
      (fun s t => by simpa using Nat.le_total s.start t.start) _
  refine hperm.eq_of_pairwise (fun s t hs ht hst hts => ?_) hsorted
    (hstarts.imp fun hlt => decide_eq_true (Nat.le_of_lt hlt))
  have hdistinct := List.nodup_iff_pairwise_ne.mpr (List.pairwise_map.mpr (hstarts.imp Nat.ne_of_lt))
  exact List.inj_on_of_nodup_map hdistinct (hperm.mem_iff.mp hs) ht
    (Nat.le_antisymm (of_decide_eq_true hst) (of_decide_eq_true hts))

theorem gaps_start {size a b stop : Nat} {ss gaps : List Span} (h : Span.gaps size a ss = ⟨a, stop⟩ :: gaps) :
    Span.gaps size b ss = ⟨b, stop⟩ :: gaps := by
  cases ss <;> cases h <;> rfl

/-- Between the tokens and bad pieces of a text there are blanks and comments only. -/
theorem gaps_piecesFrom (start : Nat) (cs : List Char) : ∃ text after gaps, cs = text ++ after ∧ Filler text after ∧
    Span.gaps (start + byteLength cs) start (((piecesFrom start cs).filter isMark).map Piece.span) =
      ⟨start, start + byteLength text⟩ :: gaps ∧
    ∀ g ∈ gaps, ∃ text after, g.Holds start cs text after ∧ Filler text after := by
  fun_induction piecesFrom start cs with
  | case1 start => exact ⟨[], [], [], rfl, .none, rfl, List.forall_mem_nil _⟩
  | case2 start c cs kind more hfront text stop ih =>
    obtain ⟨text', after, gaps, hdrop, hfiller, hgaps, hmore⟩ := ih
    have hcut : c :: cs = text ++ cs.drop more := by
      rw [List.cons_append, List.take_append_drop]
    have hsize : start + byteLength (c :: cs) = stop + byteLength (cs.drop more) := by
      rw [hcut, byteLength_append, Nat.add_assoc]
    have hbehind : ∀ g ∈ gaps, ∃ text' after, g.Holds start (c :: cs) text' after ∧ Filler text' after := by
      intro g hg
      obtain ⟨text', after, hholds, hfiller⟩ := hmore g hg
      exact ⟨text', after, hcut ▸ hholds.behind text, hfiller⟩
    rw [hsize]
    cases hmark : isMark ⟨kind, text, ⟨start, stop⟩⟩ with
    | false =>
      have hskip : Skip text (cs.drop more) := by
        have hskip := skip_front c cs
        rw [hfront] at hskip
        refine hskip ?_
        cases kind with
        | skipped => rfl
        | token | unrecognized => cases hmark
      rw [hdrop] at hcut hskip
      refine ⟨text ++ text', after, gaps, by rw [hcut, List.append_assoc], .cons hskip hfiller, ?_, hbehind⟩
      rw [List.filter_cons_of_neg (ne_true_of_eq_false hmark), gaps_start hgaps, byteLength_append, ← Nat.add_assoc]
    | true =>
      refine ⟨[], c :: cs, ⟨stop, stop + byteLength text'⟩ :: gaps, rfl, .none, ?_,
        List.forall_mem_cons.mpr ⟨⟨text', after, ?_, hfiller⟩, hbehind⟩⟩
      · rw [List.filter_cons_of_pos hmark, List.map_cons, Span.gaps, hgaps]
        rfl
      · rw [hcut, hdrop]
        exact (Span.holds_front stop text' after).behind text

theorem newline_skip {text after : List Char} (h : Skip text after) : '\n' ∉ text := by
  cases h with
  | blanks _ hblank => exact fun hmem => absurd (hblank _ hmem) (by decide)
  | comment hbody => exact not_or.mpr ⟨by decide, hbody⟩ ∘ List.mem_cons.mp

/-- Places of a script and what is between them. -/
structure Accounted (source : String) (places : List Span) : Prop where
  nonempty : ∀ s ∈ places, s.start < s.stop
  /-- The ends of the places are boundaries of characters. -/
  boundaries : ∀ s ∈ places, String.Pos.Raw.IsValid source ⟨s.start⟩ ∧ String.Pos.Raw.IsValid source ⟨s.stop⟩
  apart : places.Pairwise fun s t => s.stop ≤ t.start
  fillers : ∀ g ∈ Span.gaps source.utf8ByteSize 0 places,
    ∃ text after, g.Holds 0 source.toList text after ∧ Filler text after

/-- A newline belongs to a token for newlines, to a string or to a bad piece. -/
theorem newline_covered (source : String) {before after : List Char} (h : source.toList = before ++ '\n' :: after) :
    (∃ l ∈ Lexeme.ofSource source, (l.token = .newline ∨ ∃ s, l.token = .text s) ∧ l.span.Covers (byteLength before)) ∨
      ∃ p ∈ unrecognized source, p.span.Covers (byteLength before) := by
  obtain ⟨p, hp, hmem, hcovers⟩ := exists_covers 0 source.toList before h
  rw [Nat.zero_add] at hcovers
  obtain ⟨-, after, -, hskip, htoken⟩ := forall_piecesFrom
    (P := fun kind text after => (kind = .skipped → Skip text after) ∧
      ∀ t, kind = .token t → '\n' ∈ text → t = .newline ∨ ∃ s, t = .text s)
    (fun c cs => ⟨skip_front c cs, fun t ht hnewline => newline_front c cs hnewline ht⟩) 0 source.toList p hp
  obtain ⟨kind, text, span⟩ := p
  cases kind with
  | skipped => exact absurd hmem (newline_skip (hskip rfl))
  | token t => exact .inl ⟨⟨t, span⟩, List.mem_filterMap.mpr ⟨_, hp, rfl⟩, htoken t rfl hmem, hcovers⟩
  | unrecognized => exact .inr ⟨_, List.mem_filter.mpr ⟨hp, rfl⟩, hcovers⟩

theorem accounted_marks (source : String) : Accounted source (marks source) := by
  have hmark : ∀ s ∈ marks source, ∃ text after, text ≠ [] ∧ s.Holds 0 source.toList text after := by
    intro s hs
    rw [marks_eq] at hs
    obtain ⟨p, hp, rfl⟩ := List.mem_map.mp hs
    obtain ⟨hne, after, hholds⟩ := holds_piecesFrom (List.mem_filter.mp hp).1
    exact ⟨p.text, after, hne, hholds⟩
  refine ⟨fun s hs => ?_, fun s hs => ?_, ?_, ?_⟩
  · obtain ⟨text, after, hne, hholds⟩ := hmark s hs
    exact hholds.lt hne
  · obtain ⟨text, after, -, hholds⟩ := hmark s hs
    exact hholds.isValid
  · rw [marks_eq]
    exact List.pairwise_map.mpr ((pairwise_piecesFrom 0 source.toList).filter isMark)
  · obtain ⟨text, after, gaps, hsource, hfiller, hgaps, hmore⟩ := gaps_piecesFrom 0 source.toList
    rw [marks_eq, ← byteLength_toList, ← Nat.zero_add (byteLength _), pieces, hgaps]
    refine List.forall_mem_cons.mpr ⟨⟨text, after, ?_, hfiller⟩, hmore⟩
    rw [hsource]
    exact Span.holds_front 0 text after

/-- The bytes of a script are those of its tokens, of its bad pieces, and of the blanks and comments between
them. -/
theorem bytes_accounted (source : String) :
    Accounted source (marks source) ∧
    (Lexeme.ofSource source).Pairwise (fun l m => l.span.stop ≤ m.span.start) ∧
    (unrecognized source).Pairwise (fun p q => p.span.stop ≤ q.span.start) ∧
    ∀ before after, source.toList = before ++ '\n' :: after →
      (∃ l ∈ Lexeme.ofSource source,
        (l.token = .newline ∨ ∃ s, l.token = .text s) ∧ l.span.Covers (byteLength before)) ∨
      ∃ p ∈ unrecognized source, p.span.Covers (byteLength before) := by
  have hpieces := pairwise_piecesFrom 0 source.toList
  refine ⟨accounted_marks source, ?_, hpieces.filter Piece.isUnrecognized, fun _ _ => newline_covered source⟩
  refine List.Pairwise.filterMap Piece.lexeme? (fun p q hle l hl m hm => ?_) hpieces
  rwa [span_of_lexeme? hl, span_of_lexeme? hm]

/-- A string over two lines, a comment, and a string that does not end. -/
def openString : String := "a \"b\nc\" # d\n\"é\n"

/-- The last newline belongs to the string without an end. -/
theorem openString_accounted : Accounted openString (marks openString) ∧
    ∃ p ∈ unrecognized openString, p.span.Covers 15 := by
  obtain ⟨haccounted, -, -, hnewline⟩ := bytes_accounted openString
  have hsource : openString.toList = openString.toList.take 14 ++ ['\n'] := rfl
  have htokens : ∀ l ∈ Lexeme.ofSource openString, l.span.stop ≤ 12 := by decide +kernel
  refine ⟨haccounted, (hnewline _ _ hsource).resolve_left ?_⟩
  rintro ⟨l, hl, -, -, hlt⟩
  have hstop := htokens l hl
  have hbyte : byteLength (openString.toList.take 14) = 15 := rfl
  omega

end Scan

end TestProgram
