import TestProgram.Proofs.Script.Places
import TestProgram.Run.FlowBody
import TestProgram.Run.PatternStatement

/-!
# Statements at other places

What a statement asks for does not depend on where it stands: a statement that is moved to other places
has the same action, or the same misuse at the place to which its culprit is moved
(`Statement.action_relocate`, `Statement.flowAction_relocate`). There is one lemma for each of the readings
that the meaning of statements is made of.
-/

namespace TestProgram

/-! ## Outcomes -/

section

variable {α β ε ε' : Type}

theorem mapError_bind (g : ε → ε') (x : Except ε α) (k : α → Except ε β) :
    (x >>= k).mapError g = x.mapError g >>= fun a => (k a).mapError g := by
  cases x <;> rfl

theorem mapError_ok (g : ε → ε') (a : α) : (Except.ok a : Except ε α).mapError g = .ok a := rfl

theorem mapError_pure (g : ε → ε') (a : α) : (pure a : Except ε α).mapError g = pure a := rfl

theorem mapError_map (g : ε → ε') (h : α → β) (x : Except ε α) : (x.map h).mapError g = (x.mapError g).map h := by
  cases x <;> rfl

/-- A condition that is checked in some cases only. -/
theorem mapError_guard (g : ε → ε') {b : Bool} {x : Except ε Unit} {x' : Except ε' Unit} {k : Unit → Except ε β}
    {k' : Unit → Except ε' β} (hx : x' = x.mapError g) (hk : k' () = (k ()).mapError g) :
    (if b then x' >>= k' else k' ()) = (if b then x >>= k else k ()).mapError g := by
  subst hx
  cases b with
  | false => exact hk
  | true =>
    cases x with
    | error e => rfl
    | ok u => exact hk

theorem mapM_mapError (g : ε → ε') {r : α → α} {k : α → Except ε β} {k' : α → Except ε' β}
    (h : ∀ a, k' (r a) = (k a).mapError g) (xs : List α) : (xs.map r).mapM k' = (xs.mapM k).mapError g := by
  induction xs with
  | nil => rfl
  | cons x xs ih =>
    rw [List.map_cons, List.mapM_cons, List.mapM_cons, mapError_bind, h, ih]
    refine congrArg _ (funext fun a => ?_)
    rw [mapError_bind]
    rfl

end

namespace Diagnostic

/-- A diagnostic at another place. -/
def relocate (f : Span → Span) (d : Diagnostic) : Diagnostic := { d with span := d.span.map f }

end Diagnostic

variable (f : Span → Span)

/-! ## Parts of statements -/

@[simp]
theorem Word.text_relocate (w : Word) : (w.relocate f).text = w.text := rfl

namespace Value

theorem relocate_word (w : Word) : (Value.word w).relocate f = .word (w.relocate f) := rfl

theorem relocate_number (x : Float) (s : Span) : (Value.number x s).relocate f = .number x (f s) := rfl

@[simp]
theorem cell_relocate (v : Value) : (v.relocate f).cell = v.cell := by cases v <;> rfl

@[simp]
theorem span_relocate (v : Value) : (v.relocate f).span = f v.span := by cases v <;> rfl

end Value

namespace Statement

variable (s : Statement)

@[simp]
theorem head_relocate : (s.relocate f).head = s.head.relocate f := by
  cases s
  rw [relocate_mk]
  rfl

@[simp]
theorem name_relocate : (s.relocate f).name = s.name := by
  rw [name, head_relocate]
  rfl

@[simp]
theorem span_relocate : (s.relocate f).span = f s.span := by
  cases s
  rw [relocate_mk]
  rfl

@[simp]
theorem block_relocate : (s.relocate f).block = s.block.map (List.map (relocate f)) := by
  cases s
  rw [relocate_mk]
  rfl

theorem args_relocate : (s.relocate f).args = s.args.map (Argument.relocate f) := by
  cases s
  rw [relocate_mk]
  rfl

@[simp]
theorem values_relocate : (s.relocate f).values = s.values.map (Value.relocate f) := by
  rw [values, args_relocate, values, List.filterMap_map, List.map_filterMap]
  refine congrArg (List.filterMap · s.args) (funext fun a => ?_)
  cases a <;> rfl

@[simp]
theorem pairs_relocate :
    (s.relocate f).pairs = s.pairs.map fun p => (p.1.relocate f, p.2.relocate f) := by
  rw [pairs, args_relocate, pairs, List.filterMap_map, List.map_filterMap]
  refine congrArg (List.filterMap · s.args) (funext fun a => ?_)
  cases a <;> rfl

@[simp]
theorem pair?_relocate (key : String) : (s.relocate f).pair? key = (s.pair? key).map (Value.relocate f) := by
  rw [pair?, pairs_relocate, pair?, List.find?_map, Option.map_map, Option.map_map]
  rfl

theorem cell_pair?_relocate (key : String) :
    ((s.relocate f).pair? key).map Value.cell = (s.pair? key).map Value.cell := by
  rw [pair?_relocate, Option.map_map]
  exact congrArg (Option.map · _) (funext (Value.cell_relocate f))

theorem cells_relocate : (s.relocate f).values.map Value.cell = s.values.map Value.cell := by
  rw [values_relocate, List.map_map]
  exact congrArg (List.map · s.values) (funext (Value.cell_relocate f))

theorem getElem?_values_relocate (i : Nat) : (s.relocate f).values[i]? = s.values[i]?.map (Value.relocate f) := by
  rw [values_relocate, List.getElem?_map]

/-- The place of a value, or of the statement where there is none. -/
theorem span_getD_relocate (v : Option Value) :
    ((v.map (Value.relocate f)).map Value.span).getD (f s.span) = f ((v.map Value.span).getD s.span) := by
  cases v with
  | none => rfl
  | some v => exact Value.span_relocate f v

/-! ## Arguments -/

theorem wordOf_relocate (wanted : Wanted) (v : Option Value) :
    (s.relocate f).wordOf wanted (v.map (Value.relocate f)) = (s.wordOf wanted v).mapError (Diagnostic.relocate f) := by
  unfold wordOf
  rw [name_relocate, span_relocate]
  rcases v with _ | _ | _ | _ | _ | _ <;> rfl

theorem word_relocate (i : Nat) (wanted : Wanted) :
    (s.relocate f).word i wanted = (s.word i wanted).mapError (Diagnostic.relocate f) := by
  rw [word, getElem?_values_relocate, wordOf_relocate]
  rfl

theorem countOf_relocate (v : Value) :
    (s.relocate f).countOf (v.relocate f) = (s.countOf v).mapError (Diagnostic.relocate f) := by
  cases v with
  | number x span =>
    simp only [countOf, Value.relocate, name_relocate]
    split
    · split
      · rfl
      · split <;> rfl
    · rfl
  | _ =>
    simp only [countOf, Value.relocate, name_relocate]
    rfl

theorem count_relocate (i : Nat) : (s.relocate f).count i = (s.count i).mapError (Diagnostic.relocate f) := by
  rw [count, count, getElem?_values_relocate]
  cases s.values[i]? with
  | some v => exact countOf_relocate f s v
  | none =>
    simp only [Option.map_none, name_relocate, span_relocate]
    rfl

theorem count?_relocate (i : Nat) : (s.relocate f).count? i = (s.count? i).mapError (Diagnostic.relocate f) := by
  rw [count?, count?, getElem?_values_relocate]
  cases s.values[i]? with
  | some v =>
    simp only [Option.map_some, countOf_relocate, mapError_bind]
    rfl
  | none => rfl

theorem bit_relocate (i : Nat) : (s.relocate f).bit i = (s.bit i).mapError (Diagnostic.relocate f) := by
  rw [bit, bit, count_relocate, mapError_bind]
  refine congrArg _ (funext fun n => ?_)
  rw [getElem?_values_relocate, span_relocate, span_getD_relocate, name_relocate]
  split <;> rfl

theorem time_relocate (i : Nat) : (s.relocate f).time i = (s.time i).mapError (Diagnostic.relocate f) := by
  rw [time, time, getElem?_values_relocate, name_relocate, span_relocate]
  rcases s.values[i]? with _ | _ | _ | _ | _ | _ <;> rfl

theorem time?_relocate (i : Nat) : (s.relocate f).time? i = (s.time? i).mapError (Diagnostic.relocate f) := by
  rw [time?, time?, getElem?_values_relocate, time_relocate]
  cases s.values[i]? with
  | some v =>
    simp only [Option.map_some, mapError_bind]
    rfl
  | none => rfl

theorem words_relocate : (s.relocate f).words = s.words.mapError (Diagnostic.relocate f) := by
  rw [words, words, values_relocate, name_relocate, span_relocate]
  cases s.values with
  | nil => rfl
  | cons v vs => exact mapM_mapError _ (fun v => wordOf_relocate f s .pinName (some v)) (v :: vs)

theorem needBlock_relocate :
    (s.relocate f).needBlock = (s.needBlock.map (List.map (relocate f))).mapError (Diagnostic.relocate f) := by
  rw [needBlock, needBlock, block_relocate, name_relocate, span_relocate]
  cases s.block <;> rfl

theorem refuseBlock_relocate : (s.relocate f).refuseBlock = s.refuseBlock.mapError (Diagnostic.relocate f) := by
  rw [refuseBlock, refuseBlock, block_relocate, name_relocate, span_relocate]
  cases s.block <;> rfl

/-- A statement that only has to have a block. -/
theorem needBlock_bind_relocate {β : Type} (b : Except Diagnostic β) :
    ((s.relocate f).needBlock >>= fun _ => b.mapError (Diagnostic.relocate f)) =
      (s.needBlock >>= fun _ => b).mapError (Diagnostic.relocate f) := by
  rw [needBlock_relocate]
  cases s.needBlock <;> rfl

/-! ## Statements in patterns -/

theorem pinChanges?_relocate :
    (s.relocate f).pinChanges? = s.pinChanges?.map (Except.mapError (Diagnostic.relocate f)) := by
  unfold pinChanges?
  rw [name_relocate]
  split <;>
    simp only [Option.map_some, Option.map_none, mapError_bind, word_relocate, bit_relocate, words_relocate] <;> rfl

theorem edges_relocate : ∀ (vs : List Value) (drive compare : Option String),
    (s.relocate f).edges (vs.map (Value.relocate f)) drive compare =
      (s.edges vs drive compare).mapError (Diagnostic.relocate f)
  | [], _, _ => rfl
  | .word key :: formula :: vs, drive, compare => by
    rw [List.map_cons, List.map_cons, Value.relocate_word, edges, edges, Value.cell_relocate, Word.text_relocate]
    split
    · exact edges_relocate vs (some formula.cell) compare
    · split
      · exact edges_relocate vs drive (some formula.cell)
      · rfl
  | [.word _], _, _ | .number _ _ :: _, _, _ | .duration _ _ :: _, _, _ | .frequency _ _ :: _, _, _
  | .text _ _ :: _, _, _ => rfl

theorem wave_relocate : (s.relocate f).wave = s.wave.mapError (Diagnostic.relocate f) := by
  simp only [wave, mapError_bind, word_relocate, values_relocate, cell_pair?_relocate, ← List.map_drop, edges_relocate]
  rfl

theorem cycleOptions_relocate : ∀ (vs : List Value) (count : Option Nat) (timeset : Option String),
    (s.relocate f).cycleOptions (vs.map (Value.relocate f)) count timeset =
      (s.cycleOptions vs count timeset).mapError (Diagnostic.relocate f)
  | [], _, _ => rfl
  | .number x span :: vs, _, timeset => by
    have hcount := countOf_relocate f s (.number x span)
    rw [List.map_cons, Value.relocate_number] at *
    rw [cycleOptions, cycleOptions, mapError_bind, hcount]
    exact congrArg _ (funext fun n => cycleOptions_relocate vs (some n) timeset)
  | .word w :: .word name :: vs, count, timeset => by
    rw [List.map_cons, List.map_cons, Value.relocate_word, Value.relocate_word, cycleOptions, cycleOptions,
      Word.text_relocate, Word.text_relocate]
    split
    · exact cycleOptions_relocate vs count (some name.text)
    · rfl
  | [.word w], _, _ | .word w :: .number _ _ :: _, _, _ | .word w :: .duration _ _ :: _, _, _
  | .word w :: .frequency _ _ :: _, _, _ | .word w :: .text _ _ :: _, _, _ => by
    by_cases hw : w.text = "timeset"
    · simp only [List.map_cons, List.map_nil, Value.relocate, cycleOptions, Word.text_relocate, hw, if_true,
        mapError_bind, ← wordOf_relocate]
      rfl
    · simp only [List.map_cons, List.map_nil, Value.relocate, cycleOptions, Word.text_relocate, hw, if_false]
      rfl
  | .duration _ _ :: _, _, _ | .frequency _ _ :: _, _, _ | .text _ _ :: _, _, _ => rfl

theorem cycle_relocate : (s.relocate f).cycle = s.cycle.mapError (Diagnostic.relocate f) := by
  simp only [cycle, mapError_bind, values_relocate, cell_pair?_relocate, cycleOptions_relocate]
  rfl

theorem storeOffset_relocate : (s.relocate f).storeOffset = s.storeOffset.mapError (Diagnostic.relocate f) := by
  rw [storeOffset, storeOffset, pair?_relocate, values_relocate]
  cases s.pair? "offset" with
  | some v => exact countOf_relocate f s v
  | none =>
    rcases s.values with _ | ⟨w | _ | _ | _ | _, vs⟩
    · rfl
    · simp only [Option.map_none, List.map_cons, Value.relocate, Word.relocate, count_relocate]
      split <;> rfl
    all_goals rfl

theorem frequency?_relocate (i : Nat) :
    (s.relocate f).frequency? i = (s.frequency? i).mapError (Diagnostic.relocate f) := by
  rw [frequency?, frequency?, getElem?_values_relocate]
  rcases s.values[i]? with _ | _ | _ | _ | _ | _ <;> rfl

theorem clock_relocate : (s.relocate f).clock = s.clock.mapError (Diagnostic.relocate f) := by
  simp only [clock, mapError_bind, word_relocate, frequency?_relocate, span_relocate, values_relocate, List.head?_map,
    span_getD_relocate]
  refine congrArg _ (funext fun action => congrArg _ (funext fun pin => congrArg _ (funext fun frequency => ?_)))
  split <;> rfl

theorem groupSize_relocate : (s.relocate f).groupSize = s.groupSize.mapError (Diagnostic.relocate f) := by
  rw [groupSize, groupSize, count_relocate, mapError_bind]
  refine congrArg _ (funext fun n => ?_)
  rw [span_relocate]
  split <;> rfl

/-! ## Threads -/

theorem threadSteps_relocate : (s.relocate f).threadSteps = s.threadSteps.mapError (Diagnostic.relocate f) := by
  unfold threadSteps
  simp only [mapError_bind, refuseBlock_relocate, pinChanges?_relocate, name_relocate, head_relocate, count?_relocate,
    time_relocate]
  refine congrArg _ (funext fun _ => ?_)
  cases s.pinChanges? with
  | some changes =>
    simp only [Option.map_some, mapError_bind]
    rfl
  | none =>
    simp only [Option.map_none]
    split <;> first | rfl | simp only [mapError_bind, mapError_pure]

theorem thread_relocate : (s.relocate f).thread = s.thread.mapError (Diagnostic.relocate f) := by
  unfold thread
  rw [name_relocate, head_relocate]
  split
  · rfl
  · rw [mapError_bind, word_relocate, needBlock_relocate]
    refine congrArg _ (funext fun name => ?_)
    rw [mapError_bind]
    cases s.needBlock with
    | error d => rfl
    | ok body =>
      show ((body.map (relocate f)).mapM threadSteps >>= fun steps => pure (Thread.mk name steps.flatten)) =
        (body.mapM threadSteps >>= fun steps => pure (Thread.mk name steps.flatten)).mapError (Diagnostic.relocate f)
      rw [mapM_mapError _ (threadSteps_relocate f), mapError_bind]
      rfl

theorem threads_relocate : (s.relocate f).threads = s.threads.mapError (Diagnostic.relocate f) := by
  rw [threads, threads, needBlock_relocate]
  cases s.needBlock with
  | error d => rfl
  | ok body => exact mapM_mapError _ (thread_relocate f) body

/-! ## All statements -/

theorem step_relocate (r : Except Diagnostic Operation) :
    step (r.mapError (Diagnostic.relocate f)) = (step r).mapError (Diagnostic.relocate f) := by
  cases r <;> rfl

theorem timeset_relocate : (s.relocate f).timeset = s.timeset.mapError (Diagnostic.relocate f) := by
  simp only [timeset, mapError_bind, word_relocate, time?_relocate, block_relocate]
  refine congrArg _ (funext fun name => congrArg _ (funext fun period => ?_))
  cases s.block <;> rfl

theorem loop_relocate : (s.relocate f).loop = s.loop.mapError (Diagnostic.relocate f) := by
  simp only [loop, mapError_bind, word_relocate, count_relocate]
  refine congrArg _ (funext fun label => congrArg _ (funext fun count => ?_))
  rw [← mapError_bind]
  exact needBlock_bind_relocate f s (pure (Action.scope (.loop label count)))

theorem ignoreFails_relocate : (s.relocate f).ignoreFails = s.ignoreFails.mapError (Diagnostic.relocate f) := by
  rw [ignoreFails, ignoreFails, mapError_bind, words_relocate]
  exact congrArg _ (funext fun pins => needBlock_bind_relocate f s (pure (Action.scope (.ignoreFails pins))))

theorem inhibit_relocate : (s.relocate f).inhibit = s.inhibit.mapError (Diagnostic.relocate f) := by
  rw [inhibit, inhibit, mapError_bind, word_relocate]
  refine congrArg _ (funext fun what => ?_)
  rw [← needBlock_bind_relocate, values_relocate, span_relocate, List.head?_map, span_getD_relocate]
  refine congrArg _ (funext fun _ => ?_)
  split <;> rfl

/-- What a statement asks of a sequencer is the same at all places. -/
theorem action_relocate : (s.relocate f).action = s.action.mapError (Diagnostic.relocate f) := by
  unfold action
  rw [name_relocate]
  refine mapError_guard _ (refuseBlock_relocate f s) ?_
  rw [pinChanges?_relocate]
  cases s.pinChanges? with
  | some changes =>
    simp only [Option.map_some, mapError_bind]
    rfl
  | none =>
    simp only [Option.map_none, head_relocate, timeset_relocate, wave_relocate, cycle_relocate, count_relocate,
      time_relocate, clock_relocate, word_relocate, cells_relocate, storeOffset_relocate, groupSize_relocate,
      loop_relocate, ignoreFails_relocate, inhibit_relocate, threads_relocate, ← mapError_map, step_relocate]
    split <;> rfl

/-! ## Statements in flows -/

theorem jobScope_relocate (scope : List String → FlowScope) :
    (s.relocate f).jobScope scope = (s.jobScope scope).mapError (Diagnostic.relocate f) := by
  rw [jobScope, jobScope, mapError_bind, words_relocate]
  exact congrArg _ (funext fun jobs => needBlock_bind_relocate f s (pure (FlowAction.scope (scope jobs))))

theorem enableScope_relocate (scope : String → FlowScope) :
    (s.relocate f).enableScope scope = (s.enableScope scope).mapError (Diagnostic.relocate f) := by
  rw [enableScope, enableScope, mapError_bind, word_relocate]
  exact congrArg _ (funext fun word => needBlock_bind_relocate f s (pure (FlowAction.scope (scope word))))

theorem flowLine_relocate : (s.relocate f).flowLine = s.flowLine.mapError (Diagnostic.relocate f) := by
  have hattrs : ((s.relocate f).pairs.map fun p => (p.1.text, p.2.cell)) = s.pairs.map fun p => (p.1.text, p.2.cell) := by
    rw [pairs_relocate, List.map_map]
    refine congrArg (List.map · s.pairs) (funext fun p => ?_)
    exact congrArg (Prod.mk p.1.text) (Value.cell_relocate f p.2)
  rw [flowLine, flowLine, refuseBlock_relocate, mapError_bind, name_relocate, head_relocate, hattrs, values_relocate]
  refine congrArg _ (funext fun _ => ?_)
  cases Opcode.ofName? s.name with
  | none => rfl
  | some op =>
    rcases s.values with _ | ⟨v, _ | ⟨extra, vs⟩⟩
    · rfl
    · simp only [List.map_cons, List.map_nil, List.head?_cons, Option.map_some, Value.cell_relocate]
      rfl
    · simp only [List.map_cons, Value.span_relocate]
      rfl

/-- What a statement asks of a flow is the same at all places. -/
theorem flowAction_relocate : (s.relocate f).flowAction = s.flowAction.mapError (Diagnostic.relocate f) := by
  unfold flowAction
  rw [name_relocate]
  split
  · exact jobScope_relocate f s .ifJob
  · exact jobScope_relocate f s .unlessJob
  · exact enableScope_relocate f s .ifEnable
  · exact enableScope_relocate f s .unlessEnable
  · exact flowLine_relocate f s

end Statement

end TestProgram
