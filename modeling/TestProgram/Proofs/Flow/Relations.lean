import Mathlib.Data.List.Forall2
import TestProgram.Proofs.Flow.Drafts
import TestProgram.Proofs.Flow.Finishing

/-!
# The lines of a finished flow

A finished flow has the lines of its draft in their order, and one more line right after
each line whose having run is tested. The flag of every relation is tested in the first or
the second condition of its line, and set by a line before it. That is what
`finish_draft` says of all drafts that programs make, and when they can be finished.
-/

namespace TestProgram

namespace LineOrigin

/-- The position in the draft of a line that comes from there. -/
def given? : LineOrigin → Option Nat
  | .given i _ => some i
  | .ranFlag _ _ => none

/-- The position in the draft of the line whose having run the line tells of. -/
def ranFlag? : LineOrigin → Option Nat
  | .given _ _ => none
  | .ranFlag i _ => some i

end LineOrigin

namespace FlowLine

/-- The line tests the flag of a relation in its first or second condition. -/
def Tests (m : FlowLine) (p : PendingRelation) : (condition : Nat) → Prop
  | 0 => m.get? .deviceSense = some p.relation.sense ∧ m.get? .deviceCondition = some "flag-true" ∧
      m.get? .deviceName = some p.flag
  | 1 => m.get? .groupSpecifier = some "all-active" ∧ m.get? .groupSense = some p.relation.sense ∧
      m.get? .groupCondition = some "flag-true" ∧ m.get? .groupName = some p.flag
  | _ => False

end FlowLine

/-- A line of the finished flow sets the flag of a relation to the line `t` of the draft. -/
def PendingRelation.SetBy (p : PendingRelation) (t : Nat) (o : LineOrigin) (m : FlowLine) : Prop :=
  match p.relation.outcome with
  | .passed => o.given? = some t ∧ m.get? .flagPass = some p.flag
  | .failed => o.given? = some t ∧ m.get? .flagFail = some p.flag
  | .ran => o.ranFlag? = some t ∧ m.op = .flagTrue ∧ m.parameter = p.flag

namespace FlowDraft

open Settlement

variable {d : FlowDraft}

/-! ## The order of lines -/

theorem filterMap_rows {α : Type} (f : LineOrigin → Option α) : d.rows.filterMap f =
    d.lines.zipIdx.flatMap fun l => (LineOrigin.ofLine (d.tested .ran) l).filterMap f := by
  rw [rows, List.filterMap_flatMap]

/-- The given lines are all lines of the draft in their order. -/
theorem given_rows (d : FlowDraft) : d.rows.filterMap LineOrigin.given? = List.range d.lines.length := by
  have hofLine (l : FlowLine × Nat) : (LineOrigin.ofLine (d.tested .ran) l).filterMap LineOrigin.given? = [l.2] := by
    unfold LineOrigin.ofLine
    split <;> rfl
  rw [filterMap_rows, List.range_eq_range', ← List.zipIdx_map_snd 0 d.lines, List.map_eq_flatMap]
  simp only [hofLine]

/-- The others are one for each line whose having run is tested. -/
theorem ranFlags_rows (d : FlowDraft) : d.rows.filterMap LineOrigin.ranFlag? =
    (List.range d.lines.length).filter (d.tested .ran).contains := by
  have hofLine (l : FlowLine × Nat) : (LineOrigin.ofLine (d.tested .ran) l).filterMap LineOrigin.ranFlag? =
      [l.2].filter (d.tested .ran).contains := by
    unfold LineOrigin.ofLine
    rw [List.filter_cons, List.filter_nil]
    split <;> rfl
  rw [filterMap_rows, List.range_eq_range', ← List.zipIdx_map_snd 0 d.lines, List.map_eq_flatMap, List.filter_flatMap]
  simp only [hofLine]

/-- The line that tells of a line's having run comes right after it. -/
theorem given_before_ranFlag {ran : List Nat} {i : Nat} {l : FlowLine} : ∀ {lines : List (FlowLine × Nat)} {k : Nat},
    (lines.flatMap (LineOrigin.ofLine ran))[k]? = some (.ranFlag i l) →
      ∃ j, k = j + 1 ∧ (lines.flatMap (LineOrigin.ofLine ran))[j]? = some (.given i l)
  | [], _, h => by cases h
  | x :: lines, k, h => by
    rw [List.flatMap_cons, LineOrigin.ofLine] at h ⊢
    split at h
    · rename_i hran
      rw [if_pos hran]
      rcases k with - | - | k
      · cases h
      · obtain ⟨rfl, rfl⟩ := LineOrigin.ranFlag.inj (Option.some.inj h)
        exact ⟨0, rfl, rfl⟩
      · have h : (lines.flatMap (LineOrigin.ofLine ran))[k]? = some (.ranFlag i l) := h
        obtain ⟨j, rfl, hj⟩ := given_before_ranFlag h
        exact ⟨j + 2, rfl, hj⟩
    · rename_i hran
      rw [if_neg hran]
      rcases k with - | k
      · cases h
      · have h : (lines.flatMap (LineOrigin.ofLine ran))[k]? = some (.ranFlag i l) := h
        obtain ⟨j, rfl, hj⟩ := given_before_ranFlag h
        exact ⟨j + 1, rfl, hj⟩

/-- Lines of the draft are in the same order in the finished flow. -/
theorem rows_lt_iff {p q i j : Nat} {l m : FlowLine} (hp : d.rows[p]? = some (.given i l))
    (hq : d.rows[q]? = some (.given j m)) : p < q ↔ i < j := by
  have hmono {p q i j : Nat} {l m : FlowLine} (hp : d.rows[p]? = some (.given i l))
      (hq : d.rows[q]? = some (.given j m)) (hlt : p < q) : i < j := by
    have horder := List.pairwise_lt_range (n := d.lines.length)
    rw [← given_rows, List.pairwise_filterMap, List.pairwise_iff_getElem] at horder
    obtain ⟨hp, hpeq⟩ := List.getElem?_eq_some_iff.mp hp
    obtain ⟨hq, hqeq⟩ := List.getElem?_eq_some_iff.mp hq
    exact horder p q hp hq hlt i (by rw [hpeq]; rfl) j (by rw [hqeq]; rfl)
  refine ⟨hmono hp hq, fun hlt => ?_⟩
  rcases Nat.lt_trichotomy p q with h | rfl | h
  · exact h
  · rw [hp] at hq
    cases hq
    exact absurd hlt (Nat.lt_irrefl i)
  · exact absurd (hmono hq hp h) (Nat.not_lt_of_lt hlt)

/-- A line that tells of an earlier line's having run comes before a line of the draft. -/
theorem ranFlag_lt {p q i j : Nat} {l m : FlowLine} (hp : d.rows[p]? = some (.ranFlag i l))
    (hq : d.rows[q]? = some (.given j m)) (hlt : i < j) : p < q := by
  obtain ⟨p', rfl, hp'⟩ := given_before_ranFlag hp
  have hlt' : p' < q := (rows_lt_iff hp' hq).mpr hlt
  refine Nat.lt_of_le_of_ne hlt' fun heq => ?_
  rw [heq, hq] at hp
  cases hp

/-! ## Flags and conditions -/

theorem get?_finishedLine (d : FlowDraft) (o : LineOrigin) {c : Column} (hc : c ≠ .job) :
    (d.finishedLine o).get? c = (d.lineOf o).get? c :=
  (d.lineOf o).sealed_kept.cells c (beq_false_of_ne hc)

/-- A line tests the flags of its first two relations. -/
theorem tests_settledLine {i k : Nat} (l : FlowLine) {p : PendingRelation} (hp : (d.relationsOf i)[k]? = some p)
    (hk : k < 2) : (d.finishedLine (.given i l)).Tests p k := by
  have hconditioned : ∀ (m : FlowLine) {relations : List PendingRelation} {k : Nat}, relations[k]? = some p → k < 2 →
      (conditioned relations m).Tests p k
    | m, [q], 0, hq, _ => by
      obtain rfl := Option.some.inj hq
      exact ⟨rfl, rfl, rfl⟩
    | m, q :: q' :: _, 0, hq, _ => by
      obtain rfl := Option.some.inj hq
      exact ⟨rfl, rfl, rfl⟩
    | m, q :: q' :: _, 1, hq, _ => by
      obtain rfl := Option.some.inj hq
      exact ⟨rfl, rfl, rfl, rfl⟩
  have htests : (d.lineOf (.given i l)).Tests p k := hconditioned _ hp hk
  have hkept {c : Column} {value : String} (h : (d.lineOf (.given i l)).get? c = some value) (hc : c ≠ .job) :
      (d.finishedLine (.given i l)).get? c = some value := (d.get?_finishedLine _ hc).trans h
  match k, hk, htests with
  | 0, _, ⟨hsense, hcondition, hname⟩ => exact ⟨hkept hsense nofun, hkept hcondition nofun, hkept hname nofun⟩
  | 1, _, ⟨hspecifier, hsense, hcondition, hname⟩ =>
    exact ⟨hkept hspecifier nofun, hkept hsense nofun, hkept hcondition nofun, hkept hname nofun⟩

theorem mem_tested {p : PendingRelation} {t : Nat} (hp : p ∈ d.pending) (ht : d.target? p = some t) :
    t ∈ d.tested p.relation.outcome :=
  List.mem_filterMap.mpr ⟨p, hp, by rw [if_pos rfl, ht]⟩

/-- The flag of a relation is set by the line that it is to, or by the one after it. -/
theorem exists_setBy {p : PendingRelation} {t : Nat} {l : FlowLine} (hp : p ∈ d.pending) (ht : d.target? p = some t)
    (hl : d.lines[t]? = some l) : ∃ o ∈ d.rows, (o = .given t l ∨ o = .ranFlag t l) ∧
      p.SetBy t o (d.finishedLine o) := by
  have htested := mem_tested hp ht
  obtain ⟨-, l', hl', hid⟩ := target?_eq_some ht
  obtain rfl := Option.some.inj (hl.symm.trans hl')
  have hflag (c : Column) (hc : c.isCondition = false) (hjob : c ≠ .job) : (d.finishedLine (.given t l)).get? c =
      (flagged ((d.tested .passed).contains t) ((d.tested .failed).contains t) l).get? c :=
    (d.get?_finishedLine _ hjob).trans ((conditioned_kept _ _).cells c hc)
  unfold PendingRelation.SetBy
  rw [PendingRelation.flag, ← hid]
  obtain ⟨line, ⟨outcome, negated⟩, target⟩ := p
  cases outcome with
  | passed =>
    refine ⟨.given t l, mem_rows.mpr hl, .inl rfl, rfl, ?_⟩
    rw [hflag .flagPass rfl (by decide), List.contains_iff_mem.mpr htested]
    cases (d.tested .failed).contains t <;> rfl
  | failed =>
    refine ⟨.given t l, mem_rows.mpr hl, .inl rfl, rfl, ?_⟩
    rw [hflag .flagFail rfl (by decide), List.contains_iff_mem.mpr htested]
    cases (d.tested .passed).contains t <;> rfl
  | ran =>
    obtain ⟨-, hop, -⟩ := ranLine_rest (d.settledLine t l)
    have hsealed := (d.lineOf (.ranFlag t l)).sealed_kept
    refine ⟨.ranFlag t l, mem_rows.mpr ⟨hl, htested⟩, .inr rfl, rfl, hsealed.op.trans hop, ?_⟩
    rw [finishedLine, hsealed.parameter rfl, FlowLine.parameter, lineOf, get?_ranLine,
      id_settledLine]
    rfl

/-! ## Whole flows -/

/-- A line of the finished flow is the one it comes from, or sets the flag for having run. -/
def Makes (d : FlowDraft) : LineOrigin → FlowLine → Prop
  | .given i l, m => d.lines[i]? = some l ∧ m.id = l.id ∧ m.op = l.op
  | .ranFlag i l, m => d.lines[i]? = some l ∧ m.op = .flagTrue ∧ m.id = l.id ++ "_ran" ∧
      m.parameter = (⟨.ran, false⟩ : Relation).flag l.id

/-- How a finished flow comes from the draft, with lines from `rows`. -/
structure Assembled (d : FlowDraft) (rows : List LineOrigin) (f : Flow) : Prop where
  name : f.name = d.name
  lines : List.Forall₂ d.Makes rows f.lines
  /-- The given lines are all lines of the draft in their order. -/
  given : rows.filterMap LineOrigin.given? = List.range d.lines.length
  /-- The others are one for each line that a relation about having run is to, -/
  ranFlags : rows.filterMap LineOrigin.ranFlag? = (List.range d.lines.length).filter (d.tested .ran).contains
  /-- and come right after it. -/
  after : ∀ k i l, rows[k]? = some (.ranFlag i l) → ∃ j, k = j + 1 ∧ rows[j]? = some (.given i l)
  /-- The flag of each relation is tested by its line, and set by a line before it. -/
  relations : ∀ i k p, (d.relationsOf i)[k]? = some p →
    ∃ t there here : Nat, there < here ∧ d.target? p = some t ∧
      (∃ (o : LineOrigin) (m : FlowLine), rows[there]? = some o ∧ f.lines[there]? = some m ∧ p.SetBy t o m) ∧
      ∃ l m : FlowLine, rows[here]? = some (.given i l) ∧ f.lines[here]? = some m ∧ m.Tests p k

theorem makes_finishedLine {o : LineOrigin} (ho : o ∈ d.rows) : d.Makes o (d.finishedLine o) := by
  have hsealed := (d.lineOf o).sealed_kept
  have hmem := mem_rows.mp ho
  cases o with
  | given i l =>
    have hsettled := d.settledLine_kept i l
    exact ⟨hmem, hsealed.id.trans hsettled.id, hsealed.op.trans hsettled.op⟩
  | ranFlag i l =>
    obtain ⟨hid, hop, -⟩ := ranLine_rest (d.settledLine i l)
    refine ⟨hmem.1, hsealed.op.trans hop, ?_, ?_⟩
    · rw [finishedLine, hsealed.id, lineOf, hid, id_settledLine]
    · rw [finishedLine, hsealed.parameter rfl, FlowLine.parameter, lineOf, get?_ranLine, id_settledLine]
      rfl

theorem assembled (hpending : ∀ p ∈ d.pending, p.line < d.lines.length) (h : d.Finishable) :
    d.Assembled d.rows ⟨d.name, d.rows.map d.finishedLine⟩ where
  name := rfl
  lines := by
    rw [List.forall₂_map_right_iff, List.forall₂_same]
    exact fun o ho => makes_finishedLine ho
  given := d.given_rows
  ranFlags := d.ranFlags_rows
  after := fun _ _ _ => given_before_ranFlag
  relations := by
    intro i k p hp
    have hmem := List.mem_of_getElem? hp
    obtain ⟨hnoted, hline⟩ := List.mem_filter.mp hmem
    obtain rfl : p.line = i := beq_iff_eq.mp hline
    have hk : k < 2 := Nat.lt_of_lt_of_le (List.getElem?_eq_some_iff.mp hp).1 (h.relations p.line)
    obtain ⟨l, hl⟩ : ∃ l, d.lines[p.line]? = some l := ⟨_, List.getElem?_eq_getElem (hpending p hnoted)⟩
    obtain ⟨t, ht⟩ := Option.isSome_iff_exists.mp (isSome_target?.mpr (h.targets p hnoted))
    obtain ⟨hlt, m, hm, -⟩ := target?_eq_some ht
    obtain ⟨o, homem, ho, hset⟩ := exists_setBy hnoted ht hm
    obtain ⟨there, hthere⟩ := List.getElem?_of_mem homem
    obtain ⟨here, hhere⟩ := List.getElem?_of_mem (mem_rows (o := .given p.line l).mpr hl)
    have hbefore : there < here := by
      rcases ho with rfl | rfl
      · exact (rows_lt_iff hthere hhere).mpr hlt
      · exact ranFlag_lt hthere hhere hlt
    exact ⟨t, there, here, hbefore, ht,
      ⟨o, _, hthere, by rw [List.getElem?_map, hthere]; rfl, hset⟩,
      ⟨l, _, hhere, by rw [List.getElem?_map, hhere]; rfl, tests_settledLine l hp hk⟩⟩

end FlowDraft

/-- When a draft that a program makes can be finished, and what the lines of the flow are. -/
theorem FlowOperation.finish_draft (name : String) (ops : List FlowOperation) :
    ((∃ f, (draft name ops).finish = .ok f) ↔ (draft name ops).Finishable) ∧
      ∀ f, (draft name ops).finish = .ok f → ∃ rows, (draft name ops).Assembled rows f := by
  have hpending := draft_pending_lt name ops
  refine ⟨⟨fun ⟨f, hf⟩ => (FlowDraft.finish_eq_ok.mp hf).1, fun h => ⟨_, FlowDraft.finish_eq_ok.mpr ⟨h, rfl⟩⟩⟩,
    fun f hf => ?_⟩
  obtain ⟨h, rfl⟩ := FlowDraft.finish_eq_ok.mp hf
  exact ⟨_, FlowDraft.assembled hpending h⟩

end TestProgram
