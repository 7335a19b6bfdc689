import Mathlib.Data.List.Flatten
import TestProgram.Proofs.Render.Microcode
import TestProgram.Proofs.Text.Splitting

/-!
# Comments in written patterns

A comment is written behind what begins comments on the platform. Each of the four kinds of writers puts the lines
of a pattern together item by item, and a comment changes nothing but that its own line is there (`Commented`): the
lines of other items may depend on the loops around them and on the vectors before them, but not on comments. The
text of a comment is written as it is, so if it has newlines in it, its lines from the second one on are lines of
the pattern as they stand. All that a comment adds are comment lines just if those are comment lines themselves
(`render_comments`).
-/

namespace TestProgram

def Item.isComment : Item → Bool
  | .comment _ => true
  | _ => false

/-- The pattern without its comments. -/
def Pattern.uncommented (p : Pattern) : Pattern := { p with items := p.items.filter (!·.isComment) }

/-- The lines of a text. A text that ends in a newline has an empty one at the end. -/
def Text.linesOf (text : String) : List (List Char) := text.toList.splitOn '\n'

namespace Platform

/-- The line begins, after indentation, with what begins comments. -/
def isCommentLine (platform : Platform) (line : List Char) : Bool :=
  platform.comment.toList.isPrefixOf (line.dropWhile fun c => c = ' ' ∨ c = '\t')

/-- The line of a comment at a depth of nesting. -/
def commentLine (platform : Platform) (depth : Nat) (text : String) : String :=
  Text.indent depth ++ platform.comment ++ " " ++ text

theorem commentLine_zero (platform : Platform) (text : String) :
    platform.commentLine 0 text = platform.comment ++ " " ++ text := by
  rw [commentLine, show Text.indent 0 = "" from rfl, String.empty_append]

end Platform

/-! ## Lines by items -/

/-- `lines` are the lines of some items, and `others` those of the items without the comments among them: those
that the items have in `parts`, where the part of a comment is its line. -/
structure Commented (platform : Platform) (items : List Item) (parts : List (Item × List String))
    (lines others : List String) : Prop where
  items : parts.map Prod.fst = items
  lines : lines = parts.flatMap Prod.snd
  others : others = (parts.filter (!·.1.isComment)).flatMap Prod.snd
  comment : ∀ text ls, (.comment text, ls) ∈ parts → ∃ depth, ls = [platform.commentLine depth text]

namespace Commented

variable {platform : Platform} {items : List Item} {parts : List (Item × List String)} {lines others : List String}

theorem nil : Commented platform [] [] [] [] := ⟨rfl, rfl, rfl, nofun⟩

theorem cons_comment (h : Commented platform items parts lines others) (depth : Nat) (text : String) :
    Commented platform (.comment text :: items) ((.comment text, [platform.commentLine depth text]) :: parts)
      (platform.commentLine depth text :: lines) others where
  items := by rw [List.map_cons, h.items]
  lines := by rw [List.flatMap_cons, h.lines, List.singleton_append]
  others := h.others
  comment text' ls hmem := by
    rcases List.mem_cons.mp hmem with heq | hmem
    · cases heq
      exact ⟨depth, rfl⟩
    · exact h.comment text' ls hmem

theorem cons_other (h : Commented platform items parts lines others) {i : Item} (hi : i.isComment = false)
    (ls : List String) :
    Commented platform (i :: items) ((i, ls) :: parts) (ls ++ lines) (ls ++ others) where
  items := by rw [List.map_cons, h.items]
  lines := by rw [List.flatMap_cons, h.lines]
  others := by rw [List.filter_cons_of_pos (by simp [hi]), List.flatMap_cons, h.others]
  comment text ls' hmem := by
    rcases List.mem_cons.mp hmem with heq | hmem
    · cases heq
      cases hi
    · exact h.comment text ls' hmem

end Commented

/-! ## Writers -/

/-- The items of a vector table and of a table of vector groups are written one by one. -/
theorem commented_mapM {platform : Platform} {f : Item → Except RenderFault (List String)}
    (hf : ∀ text, f (.comment text) = .ok [platform.commentLine 0 text]) : ∀ {items : List Item}
      {body : List (List String)}, items.mapM f = .ok body →
        ∃ parts others, (items.filter (!·.isComment)).mapM f = .ok others ∧
          Commented platform items parts body.flatten others.flatten
  | [], body, h => by
    obtain rfl := Except.ok.inj h
    exact ⟨[], [], rfl, .nil⟩
  | i :: items, body, h => by
    rw [List.mapM_cons] at h
    obtain ⟨ls, hi, h⟩ := bind_eq_ok.mp h
    obtain ⟨rest, hrest, h⟩ := bind_eq_ok.mp h
    obtain rfl := Except.ok.inj h
    obtain ⟨parts, others, hothers, hparts⟩ := commented_mapM hf hrest
    cases hcomment : i.isComment with
    | true =>
      obtain ⟨text, rfl⟩ : ∃ text, i = .comment text := by
        cases i with
        | comment text => exact ⟨text, rfl⟩
        | vector _ | loopStart _ _ | loopEnd _ => cases hcomment
      obtain rfl := Except.ok.inj ((hf text).symm.trans hi)
      exact ⟨_, others, by rwa [List.filter_cons_of_neg (by simp [hcomment])], hparts.cons_comment 0 text⟩
    | false =>
      refine ⟨_, ls :: others, ?_, hparts.cons_other hcomment ls⟩
      rw [List.filter_cons_of_pos (by simp [hcomment]), List.mapM_cons, hi, hothers]
      rfl

namespace CommandScript

variable {platform : Platform} {d : Dialect} {p : Pattern}

/-- The commands of a script depend on the vector before, which is the same without comments. -/
theorem commented_commands (hd : d.comment = platform.comment) : ∀ {items : List Item}
    {last : Option (List (String × PinState))} {script : List Command}, commands p last items = .ok script →
      ∃ parts others, commands p.uncommented last (items.filter (!·.isComment)) = .ok others ∧
        Commented platform items parts (script.map (Command.text d)) (others.map (Command.text d))
  | [], _, script, h => by
    obtain rfl := Except.ok.inj h
    exact ⟨[], [], rfl, .nil⟩
  | .vector r :: items, last, script, h => by
    obtain ⟨first, hfirst, h⟩ := bind_eq_ok.mp h
    obtain ⟨rest, hrest, h⟩ := bind_eq_ok.mp h
    obtain rfl := Except.ok.inj h
    obtain ⟨parts, others, hothers, hparts⟩ := commented_commands hd hrest
    refine ⟨(.vector r, first.map (Command.text d)) :: parts, first ++ others, ?_, ?_⟩
    · exact bind_eq_ok.mpr ⟨first, hfirst, bind_eq_ok.mpr ⟨others, hothers, rfl⟩⟩
    · rw [List.map_append, List.map_append]
      exact hparts.cons_other rfl _
  | .comment text :: items, last, script, h => by
    obtain ⟨rest, hrest, h⟩ := bind_eq_ok.mp h
    obtain rfl := Except.ok.inj h
    obtain ⟨parts, others, hothers, hparts⟩ := commented_commands hd hrest
    have hline : Command.text d (.comment text) = platform.commentLine 0 text := by
      rw [Command.text, hd, Platform.commentLine_zero]
    refine ⟨(.comment text, [platform.commentLine 0 text]) :: parts, others, hothers, ?_⟩
    rw [List.map_cons, hline]
    exact hparts.cons_comment 0 text
  | .loopStart label count :: items, last, script, h => by
    obtain ⟨rest, hrest, h⟩ := bind_eq_ok.mp h
    obtain rfl := Except.ok.inj h
    obtain ⟨parts, others, hothers, hparts⟩ := commented_commands hd hrest
    exact ⟨_, .repeatStart count :: others, bind_eq_ok.mpr ⟨others, hothers, rfl⟩, hparts.cons_other rfl [_]⟩
  | .loopEnd label :: items, last, script, h => by
    obtain ⟨rest, hrest, h⟩ := bind_eq_ok.mp h
    obtain rfl := Except.ok.inj h
    obtain ⟨parts, others, hothers, hparts⟩ := commented_commands hd hrest
    exact ⟨_, .repeatEnd :: others, bind_eq_ok.mpr ⟨others, hothers, rfl⟩, hparts.cons_other rfl [_]⟩

end CommandScript

/-- The indentation of a listing depends on the loops before, which are the same without comments. -/
theorem Listing.commented_itemLines : ∀ (items : List Item) (depth : Nat),
    ∃ parts, Commented .doc items parts (itemLines depth items) (itemLines depth (items.filter (!·.isComment)))
  | [], _ => ⟨[], .nil⟩
  | .vector r :: items, depth =>
    have ⟨_, hparts⟩ := commented_itemLines items depth
    ⟨_, hparts.cons_other rfl [_]⟩
  | .comment text :: items, depth => by
    obtain ⟨parts, hparts⟩ := commented_itemLines items depth
    have hline : Text.indent depth ++ "# " ++ text = Platform.doc.commentLine depth text := by
      rw [Platform.commentLine, show "# " = Platform.doc.comment ++ " " from rfl, ← String.append_assoc]
    refine ⟨(.comment text, [Platform.doc.commentLine depth text]) :: parts, ?_⟩
    rw [itemLines, hline]
    exact hparts.cons_comment depth text
  | .loopStart label count :: items, depth =>
    have ⟨_, hparts⟩ := commented_itemLines items (depth + 1)
    ⟨_, hparts.cons_other rfl [_]⟩
  | .loopEnd label :: items, depth =>
    have ⟨_, hparts⟩ := commented_itemLines items (depth - 1)
    ⟨_, hparts.cons_other rfl [_]⟩

/-! ## Patterns -/

/-- The lines of items with what stands before and after them, and `plain` where the lines of comments are left
out. -/
def CommentedLines (platform : Platform) (items : List Item) (lines plain : List String) : Prop :=
  ∃ before after body others parts, Commented platform items parts body others ∧
    lines = before ++ body ++ after ∧ plain = before ++ others ++ after

variable {platform : Platform} {p : Pattern} {lines : List String}

theorem VectorTable.commented_lines (hplatform : platform.comment = "//") {limit : Option Nat}
    (h : VectorTable.lines limit p = .ok lines) :
    ∃ plain, VectorTable.lines limit p.uncommented = .ok plain ∧ CommentedLines platform p.items lines plain := by
  obtain ⟨body, hbody, h⟩ := bind_eq_ok.mp h
  obtain rfl := Except.ok.inj h
  have hcomment (text : String) :
      itemLines limit p.defined (.comment text) = .ok [platform.commentLine 0 text] := by
    rw [Platform.commentLine_zero, hplatform]
    rfl
  obtain ⟨parts, others, hothers, hparts⟩ := commented_mapM hcomment hbody
  exact ⟨_, bind_eq_ok.mpr ⟨others, hothers, rfl⟩, opening p, ["\x7d"], _, _, parts, hparts, rfl, rfl⟩

theorem GroupTable.commented_lines (h : GroupTable.lines p = .ok lines) :
    ∃ plain, GroupTable.lines p.uncommented = .ok plain ∧ CommentedLines .v93k p.items lines plain := by
  obtain ⟨body, hbody, h⟩ := bind_eq_ok.mp h
  obtain rfl := Except.ok.inj h
  have hcomment (text : String) : itemLines (.comment text) = .ok [Platform.v93k.commentLine 0 text] := by
    rw [Platform.commentLine_zero]
    rfl
  obtain ⟨parts, others, hothers, hparts⟩ := commented_mapM hcomment hbody
  exact ⟨_, bind_eq_ok.mpr ⟨others, hothers, rfl⟩, ["FORMAT " ++ " ".intercalate p.pins ++ ";"], [], _, _, parts,
    hparts, (List.append_nil _).symm, (List.append_nil _).symm⟩

theorem CommandScript.commented_lines {d : Dialect} (hd : d.comment = platform.comment)
    (h : CommandScript.lines d p = .ok lines) :
    ∃ plain, CommandScript.lines d p.uncommented = .ok plain ∧ CommentedLines platform p.items lines plain := by
  obtain ⟨script, hscript, h⟩ := bind_eq_ok.mp h
  obtain rfl := Except.ok.inj h
  obtain ⟨parts, others, hothers, hparts⟩ := commented_commands hd hscript
  exact ⟨_, bind_eq_ok.mpr ⟨others, hothers, rfl⟩, [], [], _, _, parts, hparts, (List.append_nil _).symm,
    (List.append_nil _).symm⟩

theorem Listing.commented_lines (p : Pattern) :
    CommentedLines .doc p.items (Listing.lines p) (Listing.lines p.uncommented) := by
  obtain ⟨parts, hparts⟩ := commented_itemLines p.items 0
  exact ⟨_, _, _, _, parts, hparts, rfl, rfl⟩

/-- A pattern can be written without its comments on every platform that can write it with them. -/
theorem Platform.commented_patternLines (h : platform.patternLines p = .ok lines) :
    ∃ plain, platform.patternLines p.uncommented = .ok plain ∧ CommentedLines platform p.items lines plain := by
  cases platform with
  | j750 | ultraFlex => exact VectorTable.commented_lines rfl h
  | v93k => exact GroupTable.commented_lines h
  | jlink | bdm => exact CommandScript.commented_lines rfl h
  | doc =>
    obtain rfl := Except.ok.inj h
    exact ⟨_, rfl, Listing.commented_lines p⟩

/-! ## Lines of comments -/

namespace Text

theorem linesOf_ne_nil (text : String) : linesOf text ≠ [] := List.splitOn_ne_nil '\n' _

theorem linesOf_unlines (lines : List String) : linesOf (unlines lines) = lines.flatMap linesOf ++ [[]] :=
  splitOn_unlines lines

theorem linesOf_of_not_mem {text : String} (h : '\n' ∉ text.toList) : linesOf text = [text.toList] :=
  List.splitOn_eq_singleton h

end Text

namespace Platform

/-- What stands before the text of a comment. -/
def commentMark (platform : Platform) (depth : Nat) : List Char :=
  List.replicate (2 * depth) ' ' ++ (platform.comment.toList ++ [' '])

theorem newline_not_mem_commentMark (platform : Platform) (depth : Nat) :
    '\n' ∉ platform.commentMark depth := by
  have hspaces : '\n' ∉ List.replicate (2 * depth) ' ' := fun h => absurd (List.eq_of_mem_replicate h) (by decide)
  have hmark : '\n' ∉ platform.comment.toList ++ [' '] := by cases platform <;> decide
  exact fun h => (List.mem_append.mp h).elim hspaces hmark

theorem isCommentLine_commentMark (platform : Platform) (depth : Nat) (line : List Char) :
    platform.isCommentLine (platform.commentMark depth ++ line) = true := by
  have hspaces : ∀ c ∈ List.replicate (2 * depth) ' ', decide (c = ' ' ∨ c = '\t') = true := by
    intro c hc
    rw [List.eq_of_mem_replicate hc]
    decide
  rw [isCommentLine, commentMark, List.append_assoc, List.dropWhile_append_of_pos hspaces]
  cases platform <;> rfl

/-- The first line of a comment's text stands behind its mark, and the others as they are. -/
theorem linesOf_commentLine (platform : Platform) (depth : Nat) (text : String) :
    Text.linesOf (platform.commentLine depth text) =
      (Text.linesOf text).modifyHead (platform.commentMark depth ++ ·) := by
  have htext : (platform.commentLine depth text).toList = platform.commentMark depth ++ text.toList := by
    rw [commentLine, Text.indent, String.toList_append, String.toList_append, String.toList_append,
      Text.toList_pushn, String.toList_empty, List.nil_append, commentMark, List.append_assoc _ platform.comment.toList]
    rfl
  rw [Text.linesOf, htext, Text.splitOn_append_of_not_mem (platform.newline_not_mem_commentMark depth)]
  rfl

/-- All lines of a comment are comment lines if those of its text from the second one on are. -/
theorem isCommentLine_linesOf_iff (platform : Platform) (depth : Nat) (text : String) :
    (∀ line ∈ Text.linesOf (platform.commentLine depth text), platform.isCommentLine line = true) ↔
      ∀ line ∈ (Text.linesOf text).tail, platform.isCommentLine line = true := by
  obtain ⟨first, rest, hlines⟩ := List.exists_cons_of_ne_nil (Text.linesOf_ne_nil text)
  rw [linesOf_commentLine, hlines, List.modifyHead_cons, List.forall_mem_cons, List.tail_cons]
  exact and_iff_right (platform.isCommentLine_commentMark depth first)

end Platform

/-! ## Texts -/

/-- A list without some of its parts is the whole list just if these parts are empty. -/
theorem flatMap_filter_eq_iff {α β : Type} (keep : α → Bool) (f : α → List β) {parts : List α} :
    (parts.filter keep).flatMap f = parts.flatMap f ↔ ∀ a ∈ parts, keep a = false → f a = [] := by
  induction parts with
  | nil => exact ⟨fun _ a ha => absurd ha List.not_mem_nil, fun _ => rfl⟩
  | cons a parts ih =>
    rw [List.forall_mem_cons, List.flatMap_cons]
    cases ha : keep a with
    | true =>
      rw [List.filter_cons_of_pos ha, List.flatMap_cons, List.append_cancel_left_eq, ih]
      exact (and_iff_right nofun).symm
    | false =>
      have hfewer : ((parts.filter keep).flatMap f).length ≤ (parts.flatMap f).length :=
        (List.filter_sublist.flatMap f).length_le
      rw [List.filter_cons_of_neg (by simp [ha]), ← ih]
      constructor
      · intro h
        have hlength := congrArg List.length h
        rw [List.length_append] at hlength
        have hnil : f a = [] := List.eq_nil_of_length_eq_zero (by omega)
        rw [hnil, List.nil_append] at h
        exact ⟨fun _ => hnil, h⟩
      · rintro ⟨hnil, hrest⟩
        rw [hnil rfl, List.nil_append, hrest]

/-- The lines of a text that are no comments. -/
def Platform.otherLines (platform : Platform) (text : String) : List (List Char) :=
  (Text.linesOf text).filter (!platform.isCommentLine ·)

/-- `text` is the text of some items, each of which has its lines in `parts`, and `plain` is the text without the
lines of comments, where those of a comment are the lines of its text behind the mark of comments. -/
structure CommentedText (platform : Platform) (items : List Item) (parts : List (Item × List (List Char)))
    (text plain : String) : Prop where
  items : parts.map Prod.fst = items
  lines : ∃ before after, Text.linesOf text = before ++ parts.flatMap Prod.snd ++ after ∧
    Text.linesOf plain = before ++ (parts.filter (!·.1.isComment)).flatMap Prod.snd ++ after
  comment : ∀ comment ls, (.comment comment, ls) ∈ parts →
    ∃ depth, ls = Text.linesOf (platform.commentLine depth comment)

theorem CommentedLines.text {items : List Item} {lines plain : List String}
    (h : CommentedLines platform items lines plain) (header : List String) : ∃ parts,
      CommentedText platform items parts (Text.unlines (header ++ lines)) (Text.unlines (header ++ plain)) := by
  obtain ⟨before, after, body, others, parts, hparts, rfl, rfl⟩ := h
  refine ⟨parts.map fun part => (part.1, part.2.flatMap Text.linesOf), ?_, ?_, fun comment ls hmem => ?_⟩
  · rw [List.map_map, ← hparts.items]
    rfl
  · refine ⟨(header ++ before).flatMap Text.linesOf, after.flatMap Text.linesOf ++ [[]], ?_, ?_⟩
    · rw [hparts.lines, Text.linesOf_unlines]
      simp only [List.flatMap_append, List.flatMap_assoc, List.flatMap_map, List.append_assoc]
    · rw [hparts.others, Text.linesOf_unlines, List.filter_map]
      simp only [List.flatMap_append, List.flatMap_assoc, List.flatMap_map, List.append_assoc]
      rfl
  · obtain ⟨⟨i, ls'⟩, hpart, heq⟩ := List.mem_map.mp hmem
    obtain ⟨rfl, rfl⟩ := Prod.mk.inj heq
    obtain ⟨depth, rfl⟩ := hparts.comment comment ls' hpart
    exact ⟨depth, List.flatMap_singleton ..⟩

namespace CommentedText

variable {items : List Item} {parts : List (Item × List (List Char))} {text plain : String}

theorem isCommentLine_iff (h : CommentedText platform items parts text plain) {comment : String}
    {ls : List (List Char)} (hmem : (.comment comment, ls) ∈ parts) :
    (∀ line ∈ ls, platform.isCommentLine line = true) ↔
      ∀ line ∈ (Text.linesOf comment).tail, platform.isCommentLine line = true := by
  obtain ⟨depth, rfl⟩ := h.comment comment ls hmem
  exact platform.isCommentLine_linesOf_iff depth comment

theorem isCommentLine_of_not_mem (h : CommentedText platform items parts text plain) {comment : String}
    {ls : List (List Char)} (hmem : (.comment comment, ls) ∈ parts) (hcomment : '\n' ∉ comment.toList) :
    ∀ line ∈ ls, platform.isCommentLine line = true := by
  refine (h.isCommentLine_iff hmem).mpr ?_
  rw [Text.linesOf_of_not_mem hcomment]
  exact fun line hline => absurd hline List.not_mem_nil

theorem otherLines_eq_iff (h : CommentedText platform items parts text plain) :
    platform.otherLines plain = platform.otherLines text ↔
      ∀ comment, .comment comment ∈ items →
        ∀ line ∈ (Text.linesOf comment).tail, platform.isCommentLine line = true := by
  obtain ⟨before, after, htext, hplain⟩ := h.lines
  have hnone (ls : List (List Char)) :
      ls.filter (!platform.isCommentLine ·) = [] ↔ ∀ line ∈ ls, platform.isCommentLine line = true := by
    simp only [List.filter_eq_nil_iff, Bool.not_eq_true', Bool.not_eq_false]
  rw [Platform.otherLines, Platform.otherLines, htext, hplain]
  simp only [List.filter_append, List.filter_flatMap, List.append_cancel_left_eq, List.append_cancel_right_eq]
  rw [flatMap_filter_eq_iff]
  constructor
  · intro hall comment hcomment
    rw [← h.items] at hcomment
    obtain ⟨⟨i, ls⟩, hpart, rfl⟩ := List.mem_map.mp hcomment
    exact (h.isCommentLine_iff hpart).mp ((hnone ls).mp (hall _ hpart rfl))
  · rintro hall ⟨i, ls⟩ hpart hi
    cases i with
    | vector _ | loopStart _ _ | loopEnd _ => cases hi
    | comment comment =>
      have hmem : .comment comment ∈ items := h.items ▸ List.mem_map_of_mem hpart
      exact (hnone ls).mpr ((h.isCommentLine_iff hpart).mpr (hall comment hmem))

end CommentedText

/-- A written pattern is the pattern without its comments with the lines of its comments among the lines. All lines
of a comment begin with what begins comments just if those of its text from the second one on do, and unless this
is so for all comments, the pattern has other lines that are no comments. -/
theorem render_comments {header : List String} {text : String} (h : platform.render header p = .ok text) :
    ∃ parts plain, platform.render header p.uncommented = .ok plain ∧
      CommentedText platform p.items parts text plain ∧
      (∀ comment ls, (.comment comment, ls) ∈ parts →
        ((∀ line ∈ ls, platform.isCommentLine line = true) ↔
          ∀ line ∈ (Text.linesOf comment).tail, platform.isCommentLine line = true)) ∧
      (platform.otherLines plain = platform.otherLines text ↔ ∀ comment, .comment comment ∈ p.items →
        ∀ line ∈ (Text.linesOf comment).tail, platform.isCommentLine line = true) := by
  rw [Platform.render] at h
  split at h
  · rename_i lines hlines
    obtain rfl := Except.ok.inj h
    obtain ⟨plain, hplain, hcommented⟩ := Platform.commented_patternLines hlines
    obtain ⟨parts, hparts⟩ := hcommented.text (header.map (platform.comment ++ " " ++ ·))
    refine ⟨parts, _, ?_, hparts, fun _ _ => hparts.isCommentLine_iff, hparts.otherLines_eq_iff⟩
    rw [Platform.render, hplain]
  · cases h

/-- A vector in a loop, with comments before the loop and in it. -/
def clockedLoop : Pattern :=
  { name := "p", pins := ["clk"], timesets := [], imported := [], defined := [], cycles := 1, executed := 2,
    warnings := [],
    items := [.comment "toggle", .loopStart "lp" 2, .comment "on edge",
      .vector ⟨[.drive1], 1, "tp0", none, false, none, 1, 0⟩, .loopEnd "lp"] }

theorem render_clockedLoop : ∃ text, Platform.doc.render ["of p"] clockedLoop = .ok text ∧
    ∃ parts plain, Platform.doc.render ["of p"] clockedLoop.uncommented = .ok plain ∧
      CommentedText .doc clockedLoop.items parts text plain ∧
      (∀ comment ls, (.comment comment, ls) ∈ parts →
        ((∀ line ∈ ls, Platform.doc.isCommentLine line = true) ↔
          ∀ line ∈ (Text.linesOf comment).tail, Platform.doc.isCommentLine line = true)) ∧
      (Platform.doc.otherLines plain = Platform.doc.otherLines text ↔
        ∀ comment, .comment comment ∈ clockedLoop.items →
          ∀ line ∈ (Text.linesOf comment).tail, Platform.doc.isCommentLine line = true) := by
  have htext : Platform.doc.render ["of p"] clockedLoop =
      .ok ("# of p\npattern p\npins clk\n# toggle\nloop lp x2 \x7b\n  # on edge\n         0  tp0  1  x1\n" ++
        "\x7d\ntotal 1 cycles (2 executed)\n") := rfl
  exact ⟨_, htext, render_comments htext⟩

/-- The comment has two lines, of which the second one is a vector as this platform has them. -/
def pausedPattern : Pattern :=
  { name := "p", pins := ["clk"], timesets := [], imported := [], defined := [], cycles := 0, executed := 0,
    warnings := [], items := [.comment "pause\nR9 tp0 1 ;"] }

/-- A comment can add lines to a pattern that are no comments. -/
theorem not_forall_otherLines_eq :
    ¬ ∀ (platform : Platform) (header : List String) (p : Pattern) (text plain : String),
      platform.render header p = .ok text → platform.render header p.uncommented = .ok plain →
        platform.otherLines plain = platform.otherLines text := by
  intro h
  have hsame := h .v93k [] pausedPattern "FORMAT clk;\n# pause\nR9 tp0 1 ;\n" "FORMAT clk;\n" rfl rfl
  revert hsame
  decide

end TestProgram
