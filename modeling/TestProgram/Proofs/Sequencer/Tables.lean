import TestProgram.Proofs.Render.Microcode
import TestProgram.Proofs.Sequencer.Records

/-!
# Vector tables of finished patterns

A finished pattern that can be written as a vector table has one line for each
record, and the line says all about the record unless there is a store to it:
the microcode of a store leaves no room for a repeat count, and that of a call
none for a store (`finished_tables`). Stored records are no longer than a
vector group, so cycles get lost in groups of two or more only. `storedGroup`
is a program that loses a cycle, and a store.
-/

namespace TestProgram

open VectorTable

namespace Sequencer

open Operation

/-- What the line of a record says in a finished pattern. -/
theorem line_of_bounded {r : VectorRecord} (hpos : 0 < r.count) (hr : Bounded r) :
    lineCycles (vectorLine r) = (if r.store = true ∧ r.call = none then 1 else r.count) ∧
      lineStored (vectorLine r) = (r.store && r.call.isNone) := by
  refine ⟨?_, by rw [lineStored_vectorLine, Bool.and_comm]⟩
  rw [lineCycles_vectorLine]
  cases hcall : r.call with
  | some target =>
    have hcount : r.count ≤ 1 := hr.call (by rw [hcall]; rfl)
    simp
    omega
  | none =>
    cases r.store
    · simp
      omega
    · simp

/-- If a finished pattern is written as a vector table, it is written item by
item. The line of a record says how long it is held and whether it is stored,
exactly if it is not stored at all or is a single cycle without a call. The
cycles of the lines add up to those of the pattern exactly if all stored
records without a call are single cycles; in groups of one they are. -/
theorem finished_tables (name : String) (pins : Pinout) (config : Config) (ops : List Operation) :
    ∀ e ∈ (performAll ops (new name pins config)).1, ∀ platforms, e.operation = .finish platforms →
      ∃ p texts, e.answer = .ok (.finished p texts) ∧ ∀ platform : Platform,
        platform = .j750 ∨ platform = .ultraFlex → ∀ header text, platform.render header p = .ok text →
          text = Text.unlines (header.map (fun line => platform.comment ++ " " ++ line) ++
            (opening p ++ p.items.flatMap (itemText p.defined) ++ ["\x7d"])) ∧
          (∀ r ∈ p.vectors,
            lineCycles (vectorLine r) = (if r.store = true ∧ r.call = none then 1 else r.count) ∧
            lineStored (vectorLine r) = (r.store && r.call.isNone) ∧
            (lineCycles (vectorLine r) = r.count ∧ lineStored (vectorLine r) = r.store ↔
              (r.store = true → r.call = none ∧ r.count = 1)) ∧
            (r.store = true → r.count ≤ max r.group 1)) ∧
          (readCycles (p.vectors.map vectorLine) = p.cycles ↔
            ∀ r ∈ p.vectors, r.store = true → r.call = none → r.count = 1) := by
  intro e he platforms hfinish
  obtain ⟨c, texts, hbounded, htiled, hanswer⟩ :=
    Recorded.of_finish (bounded_lasting config.ceiling) ops e he platforms hfinish
  have hpos : ∀ r ∈ c.pattern.vectors, 0 < r.count := htiled.consecutive.pos
  have hmarks : ∀ r ∈ c.pattern.vectors, Bounded r := hbounded.records
  have htotal : totalCount c.pattern.vectors = c.pattern.cycles := htiled.total
  refine ⟨c.pattern, texts, hanswer, fun platform hplatform header text htext => ⟨?_, fun r hr => ?_, ?_⟩⟩
  · exact Platform.render_table hplatform htext
  · obtain ⟨hcycles, hstored⟩ := line_of_bounded (hpos r hr) (hmarks r hr)
    exact ⟨hcycles, hstored, line_exact_iff (hpos r hr) (hmarks r hr).call, (hmarks r hr).store⟩
  · rw [← htotal, readCycles_eq_iff hpos]
    exact forall₂_congr fun r hr => lineCycles_eq_iff (hpos r hr) (hmarks r hr).call

/-- Single cycles that are stored, a call and a vector that is repeated. -/
def exactTable : List Operation :=
  [.setTimeset "tp" (some ⟨40000⟩), .store 0, .hold (some 5) none, .call "sub", .hold none none, .store 1, .finish []]

theorem exactTable_read : ∃ e ∈ (performAll exactTable (new "exact" twoPins (.standard .j750))).1, ∃ p texts text,
    e.answer = .ok (.finished p texts) ∧ Platform.j750.render ["exact"] p = .ok text ∧
      readCycles (p.vectors.map vectorLine) = p.cycles ∧ ∀ r ∈ p.vectors, lineStored (vectorLine r) = r.store := by
  have hclosed : (performAll exactTable (new "exact" twoPins (.standard .j750))).1.any
      (fun e => e.operation.closes) = true := by decide +kernel
  have hwritten : (performAll exactTable (new "exact" twoPins (.standard .j750))).1.all (fun e =>
      e.pattern?.all fun p => (Platform.j750.render ["exact"] p).toOption.isSome &&
        decide (∀ r ∈ p.vectors, r.store = true → r.call = none ∧ r.count = 1)) = true := by decide +kernel
  obtain ⟨e, he, hcloses⟩ := List.any_eq_true.mp hclosed
  obtain ⟨platforms, hfinish⟩ := eq_finish_of_closes hcloses
  obtain ⟨p, texts, hanswer, htable⟩ := finished_tables _ _ _ _ e he platforms hfinish
  obtain ⟨htext, hsingle⟩ := Bool.and_eq_true_iff.mp (LogEntry.of_all_pattern? hwritten he hanswer)
  have hsingle := of_decide_eq_true hsingle
  cases hrender : Platform.j750.render ["exact"] p with
  | error fault =>
    rw [hrender] at htext
    cases htext
  | ok text =>
    obtain ⟨-, hlines, htotal⟩ := htable .j750 (.inl rfl) _ _ hrender
    refine ⟨e, he, p, texts, text, hanswer, hrender, htotal.mpr fun r hr hs _ => (hsingle r hr hs).2, fun r hr => ?_⟩
    exact ((hlines r hr).2.2.1.mpr (hsingle r hr)).2

/-- Two cycles in groups of two that are to be stored, and a stored call. -/
def storedGroup : List LogEntry :=
  (performAll [.setTimeset "tp" (some ⟨40000⟩), .setGroup 2, .store 0, .hold (some 2) none, .store 0, .call "sub",
    .finish [.j750]] (new "stored" twoPins (.standard .j750))).1

/-- The line of the first record stands for one cycle, and that of the second
one does not say that it is stored. -/
theorem storedGroup_read : ∃ e ∈ storedGroup, ∃ p texts text, e.answer = .ok (.finished p texts) ∧
    Platform.j750.render [] p = .ok text ∧ (∃ r ∈ p.vectors, lineCycles (vectorLine r) ≠ r.count) ∧
      (∃ r ∈ p.vectors, lineStored (vectorLine r) ≠ r.store) ∧ readCycles (p.vectors.map vectorLine) ≠ p.cycles := by
  have hany : storedGroup.any (fun e => e.pattern?.any fun p => (Platform.j750.render [] p).toOption.isSome &&
      decide ((∃ r ∈ p.vectors, lineCycles (vectorLine r) ≠ r.count) ∧
        (∃ r ∈ p.vectors, lineStored (vectorLine r) ≠ r.store) ∧
          readCycles (p.vectors.map vectorLine) ≠ p.cycles)) = true := by
    decide +kernel
  obtain ⟨e, he, p, texts, hanswer, h⟩ := LogEntry.exists_of_any_pattern? hany
  obtain ⟨htext, hlost⟩ := Bool.and_eq_true_iff.mp h
  cases hrender : Platform.j750.render [] p with
  | error fault =>
    rw [hrender] at htext
    cases htext
  | ok text => exact ⟨e, he, p, texts, text, hanswer, hrender, of_decide_eq_true hlost⟩

end Sequencer

end TestProgram
