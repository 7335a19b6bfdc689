import TestProgram.Proofs.Flow.Nesting
import TestProgram.Proofs.Flow.Relations
import TestProgram.Proofs.Flow.Walks

/-!
# Words that enable lines

A line is enabled by one word only, so of the scopes around it that enable lines the
innermost one counts. Each scope of lines that a word switches off makes a jump over them.
The jumps of a flow are well nested (`jumpsNest_finished`). So a line that a program asks
for runs if the word of the innermost scope that enables lines is enabled, and no word that
switches it off is (`asked_runs_iff`). The words of outer scopes that enable lines have no
effect.
-/

namespace TestProgram

/-! ## Attributes -/

namespace Attributes

theorem enable_add (a : Attributes) {key : String} (value : String) (hkey : key ≠ "if_enable") :
    (a.add key value).enable = a.enable := by
  unfold add
  split
  · rfl
  · split <;> first | rfl | exact absurd rfl hkey

/-- Only an attribute for that enables a line. -/
theorem enable_ofList {attrs : List (String × String)} (h : ∀ attr ∈ attrs, attr.1 ≠ "if_enable") :
    (ofList attrs).enable = none := by
  have hfold : ∀ (attrs : List (String × String)) (a : Attributes), (∀ attr ∈ attrs, attr.1 ≠ "if_enable") →
      (attrs.foldl (fun a attr => a.add attr.1 attr.2) a).enable = a.enable := by
    intro attrs
    induction attrs with
    | nil => exact fun a _ => rfl
    | cons attr attrs ih =>
      intro a h
      obtain ⟨hfirst, hrest⟩ := List.forall_mem_cons.mp h
      exact (ih _ hrest).trans (a.enable_add attr.2 hfirst)
  exact hfold attrs empty h

end Attributes

/-! ## Additions without labels and words of their own -/

namespace Addition

/-- A line that is asked for is no jump, has no label, and is enabled by no attribute. -/
def Plain : Addition → Prop
  | asked _ op _ attrs => op ≠ .goto ∧ ∀ attr ∈ attrs, attr.1 ≠ "label" ∧ attr.1 ≠ "enable" ∧ attr.1 ≠ "if_enable"
  | jump _ _ _ | landing _ _ _ => True

variable {a : Addition}

theorem Plain.omits {path : List OpenScope} {op : Opcode} {parameter : String} {attrs : List (String × String)}
    (h : (asked path op parameter attrs).Plain) {c : Column} (hc : c = .label ∨ c = .enable) :
    (Attributes.ofList attrs).Omits c := by
  intro cell hcell hfilled
  obtain ⟨hlabel, henable, -⟩ := h.2 cell (Attributes.mem_cells_ofList hcell)
  rcases hc with rfl | rfl
  · exact hlabel (Column.of_ofAttribute? (.inl rfl) hfilled).1
  · exact henable (Column.of_ofAttribute? (.inr (.inr rfl)) hfilled).1

section

variable (path : List OpenScope) (word : String) (number position : Nat)

theorem op_jump : ((jump path word number).line position).op = .goto := op_addedLine _ _ _ _ position

theorem parameter_jump : ((jump path word number).line position).parameter = skipLabel word number :=
  ((addedLine_kept (⟨.ifEnable word, number⟩ :: path) .goto (skipLabel word number) [] position).parameter rfl).trans
    (FlowLine.parameter_new s!"t{position + 1}" .goto (skipLabel word number))

theorem enable_jump : ((jump path word number).line position).get? .enable = some word :=
  @get?_addedLine_enable (⟨.ifEnable word, number⟩ :: path) .goto (skipLabel word number) [] position
    (List.forall_mem_nil _) rfl

theorem label_landing : ((landing path word number).line position).get? .label = some (skipLabel word number) :=
  (addedLine_kept _ _ _ _ position).cells .label rfl

end

/-- The only jumps are those over lines that a word switches off, -/
theorem Plain.exists_jump (h : a.Plain) {i : Nat} (hgoto : (a.line i).op = .goto) :
    ∃ path word number, a = .jump path word number := by
  cases a with
  | asked path op parameter attrs => exact absurd ((op_addedLine path op parameter attrs i).symm.trans hgoto) h.1
  | jump path word number => exact ⟨path, word, number, rfl⟩
  | landing path word number =>
    cases (op_addedLine path .nop "" [("label", skipLabel word number)] i).symm.trans hgoto

/-- and the only labels are those of their landings. -/
theorem Plain.exists_landing (h : a.Plain) {i : Nat} {label : String} (hlabel : (a.line i).get? .label = some label) :
    ∃ path word number, a = .landing path word number ∧ label = skipLabel word number := by
  cases a with
  | asked path op parameter attrs =>
    have hnone : (addedLine path op parameter attrs i).get? .label = none :=
      get?_addedLine path op parameter i (h.omits (.inl rfl)) nofun nofun nofun nofun
    cases hnone.symm.trans hlabel
  | jump path word number =>
    have hnone : (addedLine (⟨.ifEnable word, number⟩ :: path) .goto (skipLabel word number) [] i).get? .label = none :=
      get?_addedLine _ _ _ i (List.forall_mem_nil _) nofun nofun nofun nofun
    cases hnone.symm.trans hlabel
  | landing path word number =>
    have hown := label_landing path word number i
    exact ⟨path, word, number, rfl, Option.some.inj (hlabel.symm.trans hown)⟩

end Addition

/-! ## Jumps in the finished flow -/

namespace FlowDraft

/-- All lines of the finished flow. -/
def finishedLines (d : FlowDraft) : List FlowLine := d.rows.map d.finishedLine

/-- Finishing a line changes no column that says where jumps lead to or what enables the line. -/
theorem given_kept (d : FlowDraft) (i : Nat) (l : FlowLine) :
    KeptBut (fun c => c.isOutcome || c.isCondition || c == .job) (d.finishedLine (.given i l)) l := by
  refine KeptBut.trans ((d.settledLine_kept i l).mono fun c hc => ?_) ((FlowLine.sealed_kept _).mono fun c hc => ?_)
  · exact (Bool.or_eq_false_iff.mp hc).1
  · exact (Bool.or_eq_false_iff.mp hc).2

end FlowDraft

namespace FlowOperation

variable {name : String} {ops : List FlowOperation} {p q i j : Nat} {a b : Addition} {l : FlowLine}

/-- The line at the position `p` of the finished flow is that of the addition `a`, which is the
one at the position `i`. -/
def Holds (name : String) (ops : List FlowOperation) (p i : Nat) (a : Addition) : Prop :=
  (draft name ops).rows[p]? = some (.given i (a.line i)) ∧ (draftAdditions name ops)[i]? = some a

theorem getElem?_draft_lines : (draft name ops).lines[i]? = (draftAdditions name ops)[i]?.map fun a => a.line i := by
  rw [draft_lines, List.getElem?_mapIdx]

theorem exists_holds (ha : (draftAdditions name ops)[i]? = some a) : ∃ p, Holds name ops p i a := by
  have hline : (draft name ops).lines[i]? = some (a.line i) := by
    rw [getElem?_draft_lines, ha]
    rfl
  obtain ⟨p, hp⟩ := List.getElem?_of_mem (FlowDraft.mem_rows (o := .given i (a.line i)).mpr hline)
  exact ⟨p, hp, ha⟩

theorem Holds.lt_iff (h : Holds name ops p i a) (h' : Holds name ops q j b) : p < q ↔ i < j :=
  FlowDraft.rows_lt_iff h.1 h'.1

theorem Holds.position_eq (h : Holds name ops p i a) (h' : Holds name ops q i b) : p = q :=
  Nat.le_antisymm (Nat.le_of_not_lt fun hlt => Nat.lt_irrefl i ((h'.lt_iff h).mp hlt))
    (Nat.le_of_not_lt fun hlt => Nat.lt_irrefl i ((h.lt_iff h').mp hlt))

theorem Holds.line (h : Holds name ops p i a) : ∃ l, (draft name ops).finishedLines[p]? = some l ∧
    KeptBut (fun c => c.isOutcome || c.isCondition || c == .job) l (a.line i) := by
  refine ⟨_, ?_, (draft name ops).given_kept i (a.line i)⟩
  rw [FlowDraft.finishedLines, List.getElem?_map, h.1]
  rfl

/-- Jumps and lines with labels are lines of the draft. -/
theorem holds_of_line (hl : (draft name ops).finishedLines[p]? = some l)
    (h : l.op = .goto ∨ l.get? .label ≠ none) : ∃ i a, Holds name ops p i a ∧
      KeptBut (fun c => c.isOutcome || c.isCondition || c == .job) l (a.line i) := by
  obtain ⟨o, ho, rfl⟩ := Option.map_eq_some_iff.mp ((List.getElem?_map ..).symm.trans hl)
  have hmem := FlowDraft.mem_rows.mp (List.mem_of_getElem? ho)
  cases o with
  | given i m =>
    obtain ⟨a, ha, rfl⟩ := Option.map_eq_some_iff.mp (getElem?_draft_lines.symm.trans hmem)
    exact ⟨i, a, ⟨ho, ha⟩, (draft name ops).given_kept i (a.line i)⟩
  | ranFlag i m =>
    obtain ⟨-, hop, -⟩ := FlowDraft.ranLine_rest ((draft name ops).settledLine i m)
    have hsealed := FlowLine.sealed_kept ((draft name ops).lineOf (.ranFlag i m))
    rcases h with hgoto | hlabel
    · cases hop.symm.trans (hsealed.op.symm.trans hgoto)
    · refine absurd ((hsealed.cells .label rfl).trans ?_) hlabel
      rw [FlowDraft.lineOf, FlowDraft.get?_ranLine]

section

variable (hplain : ∀ a ∈ draftAdditions name ops, a.Plain)
include hplain

theorem exists_jump (hl : (draft name ops).finishedLines[p]? = some l) (hgoto : l.op = .goto) :
    ∃ i path word number, Holds name ops p i (.jump path word number) ∧ l.parameter = skipLabel word number := by
  obtain ⟨i, a, hp, hkept⟩ := holds_of_line hl (.inl hgoto)
  obtain ⟨path, word, number, rfl⟩ :=
    (hplain a (List.mem_of_getElem? hp.2)).exists_jump (hkept.op.symm.trans hgoto)
  exact ⟨i, path, word, number, hp, (hkept.parameter rfl).trans (Addition.parameter_jump path word number i)⟩

theorem exists_landing {label : String} (hl : (draft name ops).finishedLines[p]? = some l)
    (hlabel : l.get? .label = some label) :
    ∃ i path word number, Holds name ops p i (.landing path word number) ∧ label = skipLabel word number := by
  obtain ⟨i, a, hp, hkept⟩ := holds_of_line hl (.inr (by rw [hlabel]; nofun))
  obtain ⟨path, word, number, rfl, rfl⟩ :=
    (hplain a (List.mem_of_getElem? hp.2)).exists_landing ((hkept.cells .label rfl).symm.trans hlabel)
  exact ⟨i, path, word, number, hp, rfl⟩

end

/-- The jump from `p` to `q` in the finished flow, which is that from `i` to `j` in the draft, goes
over the lines that a word switches off. -/
structure Crosses (name : String) (ops : List FlowOperation) (skip : String × Nat) (p q i j : Nat) : Prop where
  spans : Addition.Spans (draftAdditions name ops) skip i j
  ends : ∃ path, Holds name ops p i (.jump path skip.1 skip.2) ∧ Holds name ops q j (.landing path skip.1 skip.2)

namespace Crosses

variable {skip : String × Nat}

theorem lt (h : Crosses name ops skip p q i j) : p < q := by
  obtain ⟨path, hstart, hlanding⟩ := h.ends
  exact (hstart.lt_iff hlanding).mpr h.spans.lt

theorem leap (h : Crosses name ops skip p q i j) : Leap (draft name ops).finishedLines p q := by
  obtain ⟨path, hstart, hlanding⟩ := h.ends
  obtain ⟨l, hl, hkept⟩ := hstart.line
  obtain ⟨m, hm, hkept'⟩ := hlanding.line
  refine ⟨l, m, hl, hkept.op.trans (Addition.op_jump path skip.1 skip.2 i), hm, ?_⟩
  rw [hkept'.cells .label rfl, Addition.label_landing, hkept.parameter rfl, Addition.parameter_jump]

/-- The jump is made if its word is enabled. -/
theorem enabled_iff (h : Crosses name ops skip p q i j) {E : Set String}
    (hl : (draft name ops).finishedLines[p]? = some l) : l.Enabled E ↔ skip.1 ∈ E := by
  obtain ⟨path, hstart, -⟩ := h.ends
  obtain ⟨m, hm, hkept⟩ := hstart.line
  obtain rfl := Option.some.inj (hl.symm.trans hm)
  have henable := (hkept.cells .enable rfl).trans (Addition.enable_jump path skip.1 skip.2 i)
  rw [FlowLine.Enabled, henable]
  exact ⟨fun h => h skip.1 rfl, fun h word hword => Option.some.inj hword ▸ h⟩

/-- The lines that the jump goes over are those of its scope. -/
theorem mem_skips_iff (h : Crosses name ops skip p q i j) {k n : Nat} (hk : Holds name ops k n a) :
    skip ∈ OpenScope.skips a.path ↔ p < k ∧ k < q := by
  obtain ⟨path, hstart, hlanding⟩ := h.ends
  rw [hstart.lt_iff hk, hk.lt_iff hlanding]
  exact h.spans.inside hk.2

end Crosses

/-- Each jump that a line is part of is one of the finished flow. -/
theorem exists_crosses {skip : String × Nat} (ha : a ∈ draftAdditions name ops) (hpart : a.PartOf skip) :
    ∃ p q i j, Crosses name ops skip p q i j := by
  obtain ⟨i, j, hspans⟩ := spans_draft name ops ha hpart
  obtain ⟨path, hjump, hlanding⟩ := hspans.ends
  obtain ⟨p, hp⟩ := exists_holds hjump
  obtain ⟨q, hq⟩ := exists_holds hlanding
  exact ⟨p, q, i, j, hspans, path, hp, hq⟩

theorem crosses_of_jump {path : List OpenScope} {word : String} {number : Nat}
    (hp : Holds name ops p i (.jump path word number)) : ∃ q j, Crosses name ops (word, number) p q i j := by
  obtain ⟨p', q, i', j, h⟩ := exists_crosses (List.mem_of_getElem? hp.2) (.inl rfl)
  obtain ⟨path', hstart, hlanding⟩ := h.ends
  obtain rfl := h.spans.eq_start hp.2
  obtain rfl := hp.position_eq hstart
  exact ⟨q, j, h⟩

section

variable (hplain : ∀ a ∈ draftAdditions name ops, a.Plain)
include hplain

/-- There are no other jumps. -/
theorem crosses_of_leap (h : Leap (draft name ops).finishedLines p q) : ∃ skip i j, Crosses name ops skip p q i j := by
  obtain ⟨l, m, hl, hgoto, hm, hlabel⟩ := h
  obtain ⟨i, path, word, number, hp, hparameter⟩ := exists_jump hplain hl hgoto
  obtain ⟨j, path', word', number', hq, hsame⟩ := exists_landing hplain hm hlabel
  obtain rfl := skipLabel_inj (hparameter.symm.trans hsame)
  obtain ⟨q', j', h⟩ := crosses_of_jump hp
  obtain ⟨path₀, -, hlanding⟩ := h.ends
  obtain rfl := h.spans.eq_landing hq.2
  obtain rfl := hq.position_eq hlanding
  exact ⟨_, i, j, h⟩

/-- The jumps of a finished flow are well nested. -/
theorem jumpsNest_finished : JumpsNest (draft name ops).finishedLines where
  lands {p l} hl hgoto := by
    obtain ⟨i, path, word, number, hp, -⟩ := exists_jump hplain hl hgoto
    obtain ⟨q, j, h⟩ := crosses_of_jump hp
    exact ⟨q, h.leap⟩
  forward {p q} h := by
    obtain ⟨skip, i, j, h⟩ := crosses_of_leap hplain h
    exact h.lt
  unique {p q q'} h h' := by
    obtain ⟨skip, i, j, h⟩ := crosses_of_leap hplain h
    obtain ⟨skip', i', j', h'⟩ := crosses_of_leap hplain h'
    obtain ⟨path, hstart, hlanding⟩ := h.ends
    obtain ⟨path', hstart', hlanding'⟩ := h'.ends
    obtain ⟨rfl, -⟩ := LineOrigin.given.inj (Option.some.inj (hstart.1.symm.trans hstart'.1))
    obtain ⟨-, -, hnumber⟩ := Addition.jump.inj (Option.some.inj (hstart.2.symm.trans hstart'.2))
    rw [← hnumber] at hlanding'
    obtain rfl := h.spans.eq_landing hlanding'.2
    exact hlanding.position_eq hlanding'
  nested {p q p' q'} h h' hp hq := by
    obtain ⟨skip, i, j, h⟩ := crosses_of_leap hplain h
    obtain ⟨skip', i', j', h'⟩ := crosses_of_leap hplain h'
    obtain ⟨path, hstart, hlanding⟩ := h'.ends
    exact ((h.mem_skips_iff hlanding).mp ((h.mem_skips_iff hstart).mpr ⟨hp, hq⟩)).2

/-- No enabled jump goes over a line if no word is enabled that switches it off. -/
theorem uncrossed_iff {E : Set String} (hp : Holds name ops p i a) :
    Uncrossed E (draft name ops).finishedLines p ↔ ∀ word ∈ OpenScope.unlessWords a.path, word ∉ E := by
  constructor
  · intro hopen word hword
    rw [← OpenScope.map_skips] at hword
    obtain ⟨skip, hskip, rfl⟩ := List.mem_map.mp hword
    obtain ⟨p', q', i', j', h⟩ := exists_crosses (List.mem_of_getElem? hp.2) (.inr hskip)
    obtain ⟨hlow, hhigh⟩ := (h.mem_skips_iff hp).mp hskip
    obtain ⟨l, m, hl, -⟩ := h.leap
    rw [← h.enabled_iff hl]
    exact hopen p' q' l h.leap hlow hhigh hl
  · intro hoff p' q' l hleap hlow hhigh hl
    obtain ⟨skip, i', j', h⟩ := crosses_of_leap hplain hleap
    have hskip := (h.mem_skips_iff hp).mpr ⟨hlow, hhigh⟩
    rw [h.enabled_iff hl]
    refine hoff skip.1 ?_
    rw [← OpenScope.map_skips]
    exact List.mem_map_of_mem hskip

end

end FlowOperation

/-! ## Nested scopes -/

namespace OpenScope

/-- The innermost word that enables lines is enabled, and no word that switches them off. -/
def InnermostOpen (E : Set String) (path : List OpenScope) : Prop :=
  (∀ word, (ifWords path).head? = some word → word ∈ E) ∧ ∀ word ∈ unlessWords path, word ∉ E

/-- All words that enable lines are enabled, and no word that switches them off. -/
def AllOpen (E : Set String) (path : List OpenScope) : Prop :=
  (∀ word ∈ ifWords path, word ∈ E) ∧ ∀ word ∈ unlessWords path, word ∉ E

/-- It comes to the same if there is only one word that enables lines, or if the lines never run. -/
theorem forall_innermostOpen_iff {path : List OpenScope} : (∀ E, InnermostOpen E path ↔ AllOpen E path) ↔
    (∀ word ∈ ifWords path, (ifWords path).head? = some word) ∨
      ∃ word ∈ unlessWords path, (ifWords path).head? = some word := by
  constructor
  · intro h
    by_cases hoff : ∃ word ∈ unlessWords path, (ifWords path).head? = some word
    · exact .inr hoff
    · have hinnermost : InnermostOpen {word | (ifWords path).head? = some word} path :=
        ⟨fun word hword => hword, fun word hword hhead => hoff ⟨word, hword, hhead⟩⟩
      exact .inl ((h _).mp hinnermost).1
  · intro h E
    refine ⟨fun ⟨hhead, hoff⟩ => ?_, fun ⟨hall, hoff⟩ => ⟨fun word hword => hall word (List.mem_of_head? hword), hoff⟩⟩
    rcases h with honly | ⟨word, hword, heq⟩
    · exact ⟨fun word hword => hhead word (honly word hword), hoff⟩
    · exact absurd (hhead word heq) (hoff word hword)

end OpenScope

namespace FlowOperation

variable {name : String} {ops : List FlowOperation} {f : Flow}

theorem runs_iff (h : (draft name ops).finish = .ok f) (hplain : ∀ a ∈ draftAdditions name ops, a.Plain) {p i : Nat}
    {path : List OpenScope} {op : Opcode} {parameter : String} {attrs : List (String × String)} {l : FlowLine}
    (hp : (draft name ops).rows[p]? = some (.given i l))
    (ha : (draftAdditions name ops)[i]? = some (.asked path op parameter attrs)) (E : Set String) :
    f.Runs E p ↔ OpenScope.InnermostOpen E path := by
  obtain ⟨-, rfl⟩ := FlowDraft.finish_eq_ok.mp h
  have hl := FlowDraft.mem_rows.mp (List.mem_of_getElem? hp)
  obtain rfl : (Addition.asked path op parameter attrs).line i = l := by
    have hline := getElem?_draft_lines.symm.trans hl
    rw [ha] at hline
    exact Option.some.inj hline
  have hholds : Holds name ops p i (.asked path op parameter attrs) := ⟨hp, ha⟩
  obtain ⟨m, hm, hkept⟩ := hholds.line
  have hplainLine := hplain _ (List.mem_of_getElem? ha)
  have henable : m.get? .enable = (OpenScope.ifWords path).head? :=
    (hkept.cells .enable rfl).trans (get?_addedLine_enable path op parameter i (hplainLine.omits (.inr rfl))
      (Attributes.enable_ofList fun attr hattr => (hplainLine.2 attr hattr).2.2))
  have hwalk : Walk E (draft name ops).finishedLines p ↔ ∀ word ∈ OpenScope.unlessWords path, word ∉ E :=
    (walk_iff (jumpsNest_finished hplain) (Nat.le_of_lt (List.getElem?_eq_some_iff.mp hm).1)).trans
      (uncrossed_iff hplain hholds)
  have henabled : (∃ l, (draft name ops).finishedLines[p]? = some l ∧ l.Enabled E) ↔
      ∀ word, (OpenScope.ifWords path).head? = some word → word ∈ E := by
    rw [hm, ← henable]
    exact ⟨fun ⟨l, hl, henabled⟩ => Option.some.inj hl ▸ henabled, fun henabled => ⟨m, rfl, henabled⟩⟩
  exact (and_congr hwalk henabled).trans And.comm

/-- A line that a program asks for runs if the innermost word that enables it is enabled and no word
that switches it off is. So scopes compose for it just if there is one word that enables it at most,
or if it never runs. -/
theorem asked_runs_iff (h : (draft name ops).finish = .ok f) (hplain : ∀ a ∈ draftAdditions name ops, a.Plain) :
    (draft name ops).Assembled (draft name ops).rows f ∧
      ∀ p i l path op parameter attrs, (draft name ops).rows[p]? = some (.given i l) →
        (draftAdditions name ops)[i]? = some (.asked path op parameter attrs) →
          (∀ E, f.Runs E p ↔ OpenScope.InnermostOpen E path) ∧
          ((∀ E, f.Runs E p ↔ OpenScope.AllOpen E path) ↔
            (∀ word ∈ OpenScope.ifWords path, (OpenScope.ifWords path).head? = some word) ∨
              ∃ word ∈ OpenScope.unlessWords path, (OpenScope.ifWords path).head? = some word) := by
  refine ⟨?_, fun p i l path op parameter attrs hp ha => ?_⟩
  · obtain ⟨hfinishable, rfl⟩ := FlowDraft.finish_eq_ok.mp h
    exact FlowDraft.assembled (draft_pending_lt name ops) hfinishable
  · have hruns := runs_iff h hplain hp ha
    refine ⟨hruns, ?_⟩
    simp only [hruns]
    exact OpenScope.forall_innermostOpen_iff

/-- A test within three scopes. -/
def nestedProgram : List FlowOperation :=
  [.scope (.ifEnable "a") [.scope (.unlessEnable "b") [.scope (.ifEnable "c") [.add .test "x" []]]]]

/-- The scopes around the test. -/
def nestedPath : List OpenScope := [⟨.ifEnable "c", 1⟩, ⟨.unlessEnable "b", 1⟩, ⟨.ifEnable "a", 0⟩]

theorem nestedProgram_additions : draftAdditions "f" nestedProgram =
    [.jump [⟨.ifEnable "a", 0⟩] "b" 1, .asked nestedPath .test "x" [], .landing [⟨.ifEnable "a", 0⟩] "b" 1] := rfl

theorem nestedProgram_plain : ∀ a ∈ draftAdditions "f" nestedProgram, a.Plain := by
  rw [nestedProgram_additions]
  exact List.forall_mem_cons.mpr ⟨trivial, List.forall_mem_cons.mpr ⟨⟨nofun, List.forall_mem_nil _⟩,
    List.forall_mem_cons.mpr ⟨trivial, List.forall_mem_nil _⟩⟩⟩

theorem nestedProgram_finish : ∃ f, (draft "f" nestedProgram).finish = .ok f := FlowDraft.exists_finish (by decide)

theorem nestedProgram_runs : ∃ f, (draft "f" nestedProgram).finish = .ok f ∧
    ∀ E, f.Runs E 1 ↔ "c" ∈ E ∧ "b" ∉ E := by
  obtain ⟨f, hf⟩ := nestedProgram_finish
  obtain ⟨-, hlines⟩ := asked_runs_iff hf nestedProgram_plain
  obtain ⟨hruns, -⟩ := hlines 1 1 _ nestedPath .test "x" [] rfl rfl
  refine ⟨f, hf, fun E => (hruns E).trans ?_⟩
  simp [OpenScope.InnermostOpen, OpenScope.ifWords, OpenScope.unlessWords, nestedPath, FlowScope.ifWord?,
    FlowScope.unlessWord?]

/-- The test runs though the outermost word is not enabled. -/
theorem not_forall_allOpen : ¬ ∀ (name : String) (ops : List FlowOperation) (f : Flow),
    (draft name ops).finish = .ok f → (∀ a ∈ draftAdditions name ops, a.Plain) →
      ∀ p i l path op parameter attrs, (draft name ops).rows[p]? = some (.given i l) →
        (draftAdditions name ops)[i]? = some (.asked path op parameter attrs) →
          ∀ E, f.Runs E p ↔ OpenScope.AllOpen E path := by
  intro h
  obtain ⟨f, hf⟩ := nestedProgram_finish
  have hall := h "f" nestedProgram f hf nestedProgram_plain 1 1 _ nestedPath .test "x" [] rfl rfl {"c"}
  have hruns : f.Runs {"c"} 1 := by
    refine (runs_iff hf nestedProgram_plain rfl rfl {"c"}).mpr ⟨?_, ?_⟩
    · exact fun word hword => (Option.some.inj hword).symm
    · intro word hword
      obtain rfl := List.mem_singleton.mp hword
      exact (by decide : "b" ≠ "c")
  exact (by decide : "a" ≠ "c") ((hall.mp hruns).1 "a" (by decide))

end FlowOperation

end TestProgram
