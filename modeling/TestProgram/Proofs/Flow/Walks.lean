import Mathlib.Data.Set.Basic
import TestProgram.Flow.Line

/-!
# Runs through a flow

A tester walks a flow from the top. A line runs if its word is enabled or if it has none,
and a jump that runs leads to the line with its label (`Walk`). If jumps lead forward and
are well nested, a line is reached just if no jump over it is enabled (`walk_iff`).
-/

namespace TestProgram

/-- The line has no word, or one that is enabled. -/
def FlowLine.Enabled (E : Set String) (l : FlowLine) : Prop := ∀ word, l.get? .enable = some word → word ∈ E

/-- The positions that a walk gets to when the words in `E` are enabled. -/
inductive Walk (E : Set String) (lines : List FlowLine) : Nat → Prop
  | start : Walk E lines 0
  | next {k l} : Walk E lines k → lines[k]? = some l → ¬ (l.op = .goto ∧ l.Enabled E) → Walk E lines (k + 1)
  | jump {k l j m} : Walk E lines k → lines[k]? = some l → l.op = .goto → l.Enabled E →
      lines[j]? = some m → m.get? .label = some l.parameter → Walk E lines j

/-- The line at a position is reached and enabled. -/
def Flow.Runs (f : Flow) (E : Set String) (k : Nat) : Prop :=
  Walk E f.lines k ∧ ∃ l, f.lines[k]? = some l ∧ l.Enabled E

/-- The line at `i` is a jump to the line at `j`. -/
def Leap (lines : List FlowLine) (i j : Nat) : Prop :=
  ∃ l m, lines[i]? = some l ∧ l.op = .goto ∧ lines[j]? = some m ∧ m.get? .label = some l.parameter

/-- All jumps lead forward to one line each, and those that start within another one end there. -/
structure JumpsNest (lines : List FlowLine) : Prop where
  lands : ∀ {i l}, lines[i]? = some l → l.op = .goto → ∃ j, Leap lines i j
  forward : ∀ {i j}, Leap lines i j → i < j
  unique : ∀ {i j j'}, Leap lines i j → Leap lines i j' → j = j'
  nested : ∀ {i j i' j'}, Leap lines i j → Leap lines i' j' → i < i' → i' < j → j' < j

/-- No enabled jump leads over the position. -/
def Uncrossed (E : Set String) (lines : List FlowLine) (k : Nat) : Prop :=
  ∀ i j l, Leap lines i j → i < k → k < j → lines[i]? = some l → ¬ l.Enabled E

variable {E : Set String} {lines : List FlowLine}

theorem Walk.uncrossed (h : JumpsNest lines) {k : Nat} (hk : Walk E lines k) : Uncrossed E lines k := by
  induction hk with
  | start => exact fun i _ _ _ hi => absurd hi (Nat.not_lt_zero i)
  | @next k l _ hl hstay ih =>
    intro i j m hleap hi hj hm
    rcases Nat.lt_or_eq_of_le (Nat.le_of_lt_succ hi) with hlt | rfl
    · exact ih i j m hleap hlt (Nat.lt_of_succ_lt hj) hm
    · obtain ⟨l', _, hl', hgoto, -⟩ := hleap
      obtain rfl := Option.some.inj (hl.symm.trans hl')
      obtain rfl := Option.some.inj (hl.symm.trans hm)
      exact fun henabled => hstay ⟨hgoto, henabled⟩
  | @jump k l j m _ hl hgoto henabled hm hlabel ih =>
    intro i' j' m' hleap hi hj hm'
    have hthis : Leap lines k j := ⟨l, m, hl, hgoto, hm, hlabel⟩
    rcases Nat.lt_trichotomy i' k with hlt | rfl | hgt
    · exact ih i' j' m' hleap hlt (Nat.lt_trans (h.forward hthis) hj) hm'
    · exact absurd (h.unique hthis hleap) (Nat.ne_of_lt hj)
    · exact absurd (h.nested hthis hleap hgt hi) (Nat.not_lt_of_lt hj)

theorem walk_of_uncrossed (h : JumpsNest lines) : ∀ {k : Nat}, k ≤ lines.length → Uncrossed E lines k → Walk E lines k
  | 0, _, _ => .start
  | k + 1, hk, hopen => by
    by_cases hlanding : ∃ i l, Leap lines i (k + 1) ∧ lines[i]? = some l ∧ l.Enabled E
    -- An enabled jump to this line is reached: a jump over it would lead over this line, too.
    · obtain ⟨i, l, hleap, hl, henabled⟩ := hlanding
      have hi := h.forward hleap
      have hwalk : Walk E lines i := by
        refine walk_of_uncrossed h (Nat.le_trans (Nat.le_of_lt hi) hk) fun i' j' l' hleap' hlt hgt hl' => ?_
        exact hopen i' j' l' hleap' (Nat.lt_trans hlt hi) (h.nested hleap' hleap hlt hgt) hl'
      obtain ⟨l', m, hl', hgoto, hm, hlabel⟩ := hleap
      obtain rfl := Option.some.inj (hl.symm.trans hl')
      exact hwalk.jump hl hgoto henabled hm hlabel
    · have hlt : k < lines.length := hk
      have hstay : ¬ (lines[k].op = .goto ∧ lines[k].Enabled E) := by
        rintro ⟨hgoto, henabled⟩
        obtain ⟨j, hleap⟩ := h.lands (List.getElem?_eq_getElem hlt) hgoto
        rcases Nat.lt_or_eq_of_le (Nat.succ_le_of_lt (h.forward hleap)) with hgt | rfl
        · exact hopen k j _ hleap (Nat.lt_succ_self k) hgt (List.getElem?_eq_getElem hlt) henabled
        · exact hlanding ⟨k, _, hleap, List.getElem?_eq_getElem hlt, henabled⟩
      have hwalk : Walk E lines k := by
        refine walk_of_uncrossed h (Nat.le_of_lt hlt) fun i j l hleap hi hj hl henabled => ?_
        rcases Nat.lt_or_eq_of_le (Nat.succ_le_of_lt hj) with hgt | rfl
        · exact hopen i j l hleap (Nat.lt_succ_of_lt hi) hgt hl henabled
        · exact hlanding ⟨i, l, hleap, hl, henabled⟩
      exact hwalk.next (List.getElem?_eq_getElem hlt) hstay

theorem walk_iff (h : JumpsNest lines) {k : Nat} (hk : k ≤ lines.length) : Walk E lines k ↔ Uncrossed E lines k :=
  ⟨fun hwalk => hwalk.uncrossed h, walk_of_uncrossed h hk⟩

end TestProgram
