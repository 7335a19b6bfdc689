import Mathlib.Data.List.Basic
import TestProgram.Pattern.Threads

/-!
# The timeline of a thread plan

The syncs of a thread cut it into segments. Round by round, the segments of
all threads start on one cycle (`base`), and the next round starts where the
longest of them ends. `Threads.plan` follows this timeline
(`plan_timeline`): it takes the fault of the first wait that has no length,
and otherwise has one event for every pin change that the threads ask for,
on the cycle that the timeline gives.

The layout is taken in closed form, segment by segment (`laySegment_eq`), then
round by round (`layRound_eq`, `layRounds_eq`), as changes that know their
thread, round and offset. Sorting the events moves no two changes of one
thread past each other, since these are in order of their cycles before
(`pairwise_changesFrom`).
-/

namespace TestProgram

/-- A pin change that a thread asks for. -/
structure Change where
  thread : Nat
  /-- The number of syncs before it. -/
  round : Nat
  /-- The cycles that the steps since the last sync take. -/
  offset : Nat
  pin : String
  state : PinState
  deriving DecidableEq, Repr

namespace Threads

variable (toCycles : Duration → Except Fault Nat)

/-! ## Steps -/

/-- Why a wait has no length. -/
def fault? (d : Duration) : Option Fault :=
  match toCycles d with
  | .ok _ => none
  | .error e => some e

def waitCycles (d : Duration) : Nat := (toCycles d).toOption.getD 0

/-- The durations that steps wait for. -/
def waitsOf : List ThreadStep → List Duration
  | [] => []
  | .wait d :: steps => d :: waitsOf steps
  | _ :: steps => waitsOf steps

/-- The cycles that steps take one after the other. -/
def span : List ThreadStep → Nat
  | [] => 0
  | .cycles n :: steps => n + span steps
  | .wait d :: steps => waitCycles toCycles d + span steps
  | _ :: steps => span steps

/-- The changes that steps ask for in order, `offset` cycles into a round. -/
def changesFrom (thread : Nat) : (round offset : Nat) → List ThreadStep → List Change
  | _, _, [] => []
  | round, offset, .set pin state :: steps =>
    ⟨thread, round, offset, pin, state⟩ :: changesFrom thread round offset steps
  | round, offset, .cycles n :: steps => changesFrom thread round (offset + n) steps
  | round, offset, .wait d :: steps => changesFrom thread round (offset + waitCycles toCycles d) steps
  | round, _, .sync :: steps => changesFrom thread (round + 1) 0 steps

/-- The changes that a thread asks for, in the order of its program. -/
def changesOf (threads : List Thread) (i : Nat) : List Change :=
  match threads[i]? with
  | none => []
  | some t => changesFrom toCycles i 0 0 t.steps

/-! ## Rounds -/

/-- The segments of all threads in a round. A thread that has fewer syncs has
an empty one. -/
def roundSegments (threads : List Thread) (r : Nat) : List (List ThreadStep) :=
  threads.map fun t => ((t.steps.splitOn .sync)[r]?).getD []

def roundCount (threads : List Thread) : Nat :=
  (threads.map fun t => (t.steps.splitOn .sync).length).max?.getD 0

def longest (segments : List (List ThreadStep)) : Nat :=
  (segments.map (span toCycles)).max?.getD 0

/-- The cycle at which a round starts. -/
def base (threads : List Thread) : (round : Nat) → Nat
  | 0 => 0
  | r + 1 => base threads r + longest toCycles (roundSegments threads r)

/-- The waits of all threads, round by round and thread by thread. -/
def waits (threads : List Thread) : List Duration :=
  (List.range (roundCount threads)).flatMap fun r => (roundSegments threads r).flatMap waitsOf

/-- What the events of a plan come from, event by event: no change that the
threads ask for is lost, none is made twice, and those of one thread stay in
the order of its program. -/
structure Sources (threads : List Thread) (p : ThreadPlan) (sources : List Change) : Prop where
  events : (p.events.map fun e => (e.cycle, e.thread, e.pin, e.state)) =
    sources.map fun c => (base toCycles threads c.round + c.offset, c.thread, c.pin, c.state)
  program : ∀ i, (sources.filter fun c => c.thread == i) = changesOf toCycles threads i

variable {toCycles}

/-! ## Segments -/

theorem segments_ne_nil (steps : List ThreadStep) : segments steps ≠ [] := by
  cases steps with
  | nil => exact List.cons_ne_nil _ _
  | cons s steps =>
    by_cases hs : s = .sync
    · subst hs
      exact List.cons_ne_nil _ _
    · cases h : segments steps <;> cases s <;> simp_all [segments]

theorem segments_cons {s : ThreadStep} (hs : s ≠ .sync) (steps : List ThreadStep) :
    segments (s :: steps) = (segments steps).modifyHead (s :: ·) := by
  obtain ⟨first, rest, h⟩ := List.exists_cons_of_ne_nil (segments_ne_nil steps)
  cases s <;> simp_all [segments]

theorem segments_eq_splitOn (steps : List ThreadStep) : segments steps = steps.splitOn .sync := by
  induction steps with
  | nil => rfl
  | cons s steps ih =>
    rw [List.splitOn_cons_eq_if_modifyHead, ← ih]
    by_cases hs : s = .sync
    · simp [hs, segments]
    · simp [hs, segments_cons hs]

theorem rounds_eq (threads : List Thread) :
    rounds threads = (List.range (roundCount threads)).map (roundSegments threads) := by
  simp only [rounds, roundCount, segments_eq_splitOn, List.map_map, Function.comp_def]
  rfl

theorem sync_notMem_of_mem_segments {steps segment : List ThreadStep} (h : segment ∈ segments steps) :
    .sync ∉ segment := by
  induction steps generalizing segment with
  | nil => simp_all [segments]
  | cons s steps ih =>
    by_cases hs : s = .sync
    · subst hs
      rcases List.mem_cons.mp h with rfl | h
      · exact List.not_mem_nil
      · exact ih h
    · obtain ⟨first, rest, hsplit⟩ := List.exists_cons_of_ne_nil (segments_ne_nil steps)
      rw [segments_cons hs, hsplit, List.modifyHead_cons] at h
      rw [hsplit] at ih
      rcases List.mem_cons.mp h with rfl | h
      · simpa [Ne.symm hs] using ih List.mem_cons_self
      · exact ih (List.mem_cons_of_mem _ h)

theorem sync_notMem_roundSegments (threads : List Thread) (r : Nat) :
    ∀ segment ∈ roundSegments threads r, .sync ∉ segment := by
  intro segment h
  obtain ⟨t, -, rfl⟩ := List.mem_map.mp h
  rw [← segments_eq_splitOn]
  cases hr : (segments t.steps)[r]? with
  | none => exact List.not_mem_nil
  | some segment => exact sync_notMem_of_mem_segments (List.mem_of_getElem? hr)

theorem longest_cons (segment : List ThreadStep) (segments : List (List ThreadStep)) :
    longest toCycles (segment :: segments) = max (span toCycles segment) (longest toCycles segments) := by
  rw [longest, longest, List.map_cons, List.max?_cons]
  cases (segments.map (span toCycles)).max? <;> simp

variable (toCycles) in
theorem span_le_longest {segments : List (List ThreadStep)} {segment : List ThreadStep}
    (h : segment ∈ segments) : span toCycles segment ≤ longest toCycles segments := by
  induction segments with
  | nil => exact absurd h List.not_mem_nil
  | cons s segments ih =>
    rw [longest_cons]
    rcases List.mem_cons.mp h with rfl | h
    · exact Nat.le_max_left _ _
    · exact Nat.le_trans (ih h) (Nat.le_max_right _ _)

theorem base_mono (threads : List Thread) {r k : Nat} (h : r ≤ k) :
    base toCycles threads r ≤ base toCycles threads k := by
  induction h with
  | refl => exact Nat.le_refl _
  | step _ ih => exact Nat.le_trans ih (Nat.le_add_right _ _)

/-! ## Changes of a thread -/

/-- The changes of a thread are in order of round and offset. -/
theorem pairwise_changesFrom (thread round offset : Nat) (steps : List ThreadStep) :
    (∀ c ∈ changesFrom toCycles thread round offset steps,
      c.thread = thread ∧ (round < c.round ∨ round = c.round ∧ offset ≤ c.offset)) ∧
    (changesFrom toCycles thread round offset steps).Pairwise fun c d =>
      c.round < d.round ∨ c.round = d.round ∧ c.offset ≤ d.offset := by
  induction steps generalizing round offset with
  | nil => simp [changesFrom]
  | cons s steps ih =>
    cases s with
    | set pin state =>
      obtain ⟨hmem, hpair⟩ := ih round offset
      simp only [changesFrom, List.mem_cons, List.pairwise_cons]
      refine ⟨?_, fun d hd => (hmem d hd).2, hpair⟩
      rintro c (rfl | hc)
      · exact ⟨rfl, .inr ⟨rfl, Nat.le_refl _⟩⟩
      · exact hmem c hc
    | cycles n =>
      obtain ⟨hmem, hpair⟩ := ih round (offset + n)
      refine ⟨fun c hc => ?_, hpair⟩
      have := hmem c hc
      omega
    | wait d =>
      obtain ⟨hmem, hpair⟩ := ih round (offset + waitCycles toCycles d)
      refine ⟨fun c hc => ?_, hpair⟩
      have := hmem c hc
      omega
    | sync =>
      obtain ⟨hmem, hpair⟩ := ih (round + 1) 0
      refine ⟨fun c hc => ?_, hpair⟩
      have := hmem c hc
      omega

/-- A segment has its changes in one round, before its end. -/
theorem within_segment {thread round offset : Nat} {segment : List ThreadStep} (hs : .sync ∉ segment) :
    ∀ c ∈ changesFrom toCycles thread round offset segment,
      c.thread = thread ∧ c.round = round ∧ c.offset ≤ offset + span toCycles segment := by
  induction segment generalizing offset with
  | nil => simp [changesFrom]
  | cons s segment ih =>
    have hrest : .sync ∉ segment := fun h => hs (List.mem_cons_of_mem _ h)
    intro c hc
    cases s with
    | set pin state =>
      rcases List.mem_cons.mp hc with rfl | hc
      · exact ⟨rfl, rfl, Nat.le_add_right _ _⟩
      · exact ih hrest c hc
    | cycles n =>
      have := ih hrest c hc
      rw [span]
      omega
    | wait d =>
      have := ih hrest c hc
      rw [span]
      omega
    | sync => exact absurd List.mem_cons_self hs

variable (toCycles) in
/-- A thread asks for what its segments ask for, each in its own round. -/
theorem changesFrom_eq (thread round offset : Nat) (steps : List ThreadStep) :
    ∃ first rest, segments steps = first :: rest ∧ changesFrom toCycles thread round offset steps =
      changesFrom toCycles thread round offset first ++
        (rest.zipIdx (round + 1)).flatMap fun p => changesFrom toCycles thread p.2 0 p.1 := by
  induction steps generalizing round offset with
  | nil => exact ⟨[], [], rfl, rfl⟩
  | cons s steps ih =>
    cases s with
    | set pin state =>
      obtain ⟨first, rest, hsplit, heq⟩ := ih round offset
      exact ⟨_ :: first, rest, by rw [segments_cons (by simp), hsplit]; rfl,
        by simp only [changesFrom, heq, List.cons_append]⟩
    | cycles n =>
      obtain ⟨first, rest, hsplit, heq⟩ := ih round (offset + n)
      exact ⟨_ :: first, rest, by rw [segments_cons (by simp), hsplit]; rfl, by simp only [changesFrom, heq]⟩
    | wait d =>
      obtain ⟨first, rest, hsplit, heq⟩ := ih round (offset + waitCycles toCycles d)
      exact ⟨_ :: first, rest, by rw [segments_cons (by simp), hsplit]; rfl, by simp only [changesFrom, heq]⟩
    | sync =>
      obtain ⟨first, rest, hsplit, heq⟩ := ih (round + 1) 0
      exact ⟨[], first :: rest, by rw [segments, hsplit], by simp [changesFrom, heq]⟩

theorem changesFrom_zero (thread : Nat) (steps : List ThreadStep) :
    changesFrom toCycles thread 0 0 steps =
      (segments steps).zipIdx.flatMap fun p => changesFrom toCycles thread p.2 0 p.1 := by
  obtain ⟨first, rest, hsplit, heq⟩ := changesFrom_eq toCycles thread 0 0 steps
  rw [heq, hsplit, List.zipIdx_cons, List.flatMap_cons]

/-! ## The layout

The changes of all threads in the order in which the plan meets them. -/

variable (toCycles) in
/-- The changes of a round, thread by thread. -/
def roundChanges (round thread : Nat) (segments : List (List ThreadStep)) : List Change :=
  (segments.zipIdx thread).flatMap fun p => changesFrom toCycles p.2 round 0 p.1

variable (toCycles) in
def layout (threads : List Thread) : List Change :=
  (List.range (roundCount threads)).flatMap fun r => roundChanges toCycles r 0 (roundSegments threads r)

theorem filter_changesFrom (thread round offset i : Nat) (steps : List ThreadStep) :
    ((changesFrom toCycles thread round offset steps).filter fun c => c.thread == i) =
      if thread = i then changesFrom toCycles thread round offset steps else [] := by
  have hthread c (hc : c ∈ changesFrom toCycles thread round offset steps) : c.thread = thread :=
    ((pairwise_changesFrom thread round offset steps).1 c hc).1
  split
  · rename_i hi
    exact List.filter_eq_self.mpr fun c hc => by simp [hthread c hc, hi]
  · rename_i hi
    exact List.filter_eq_nil_iff.mpr fun c hc => by simp [hthread c hc, hi]

variable (toCycles) in
/-- In a round, a thread has the changes of its own segment. -/
theorem filter_roundChanges (round i : Nat) (segments : List (List ThreadStep)) (k : Nat) :
    ((roundChanges toCycles round k segments).filter fun c => c.thread == k + i) =
      changesFrom toCycles (k + i) round 0 (segments[i]?.getD []) := by
  induction segments generalizing k i with
  | nil => simp [roundChanges, changesFrom]
  | cons segment segments ih =>
    have hsplit : roundChanges toCycles round k (segment :: segments) =
        changesFrom toCycles k round 0 segment ++ roundChanges toCycles round (k + 1) segments := rfl
    rw [hsplit, List.filter_append, filter_changesFrom]
    cases i with
    | zero =>
      have hnone : ((roundChanges toCycles round (k + 1) segments).filter fun c => c.thread == k) = [] := by
        refine List.filter_eq_nil_iff.mpr fun c hc => ?_
        obtain ⟨⟨s, j⟩, hp, hc⟩ := List.mem_flatMap.mp hc
        have hthread := ((pairwise_changesFrom j round 0 s).1 c hc).1
        have hj : k + 1 ≤ j := (List.mem_zipIdx hp).1
        simp only [hthread, beq_iff_eq]
        omega
      simp [hnone]
    | succ i =>
      have := ih i (k + 1)
      rw [show k + 1 + i = k + (i + 1) by omega] at this
      rw [if_neg (by omega), this, List.nil_append, List.getElem?_cons_succ]

/-- Taking from a list what it has at each of the first `n` positions, at
least as many as it is long. -/
theorem flatMap_range' {α β : Type} {f : Nat → List α → List β} (hf : ∀ r, f r [] = []) (l : List (List α))
    (k n : Nat) (hn : l.length ≤ n) : ((List.range' k n).flatMap fun r => f r (l[r - k]?.getD [])) =
      (l.zipIdx k).flatMap fun p => f p.2 p.1 := by
  induction l generalizing k n with
  | nil => simp [hf]
  | cons a l ih =>
    obtain ⟨n, rfl⟩ : ∃ m, n = m + 1 := ⟨n - 1, by simp at hn; omega⟩
    rw [List.range'_succ, List.flatMap_cons, List.zipIdx_cons, List.flatMap_cons,
      ← ih (k + 1) n (by simpa using hn), Nat.sub_self]
    congr 1
    refine List.flatMap_congr fun r hr => ?_
    have hk : k + 1 ≤ r := (List.mem_range'_1.mp hr).1
    rw [show r - k = (r - (k + 1)) + 1 by omega, List.getElem?_cons_succ]

theorem length_le_roundCount {threads : List Thread} {t : Thread} (h : t ∈ threads) :
    (segments t.steps).length ≤ roundCount threads := by
  rw [roundCount, segments_eq_splitOn]
  have hmem := List.mem_map_of_mem (f := fun t : Thread => (t.steps.splitOn .sync).length) h
  cases hmax : (threads.map fun t => (t.steps.splitOn .sync).length).max? with
  | none =>
    rw [List.max?_eq_none_iff.mp hmax] at hmem
    exact absurd hmem List.not_mem_nil
  | some count => exact (List.max?_eq_some_iff.mp hmax).2 _ hmem

/-- The layout has the changes of every thread, in the order of its program. -/
theorem filter_layout (threads : List Thread) (i : Nat) :
    ((layout toCycles threads).filter fun c => c.thread == i) = changesOf toCycles threads i := by
  have hround r : ((roundChanges toCycles r 0 (roundSegments threads r)).filter fun c => c.thread == i) =
      changesFrom toCycles i r 0 ((roundSegments threads r)[i]?.getD []) := by
    have := filter_roundChanges toCycles r i (roundSegments threads r) 0
    rwa [Nat.zero_add] at this
  rw [layout, List.filter_flatMap]
  simp only [hround]
  simp only [changesOf, roundSegments, List.getElem?_map]
  cases hi : threads[i]? with
  | none => simp [changesFrom]
  | some t =>
    have hlen := length_le_roundCount (List.mem_of_getElem? hi)
    have := flatMap_range' (f := fun r s => changesFrom toCycles i r 0 s) (fun r => rfl)
      (segments t.steps) 0 (roundCount threads) hlen
    simp only [Option.map_some, Option.getD_some, ← segments_eq_splitOn]
    rw [changesFrom_zero, ← this, List.range_eq_range']
    simp only [Nat.sub_zero]

/-- A change belongs to a round, and takes place before the longest of its
segments ends. -/
theorem bounds_of_mem_layout {threads : List Thread} {c : Change} (h : c ∈ layout toCycles threads) :
    c.round < roundCount threads ∧ c.offset ≤ longest toCycles (roundSegments threads c.round) := by
  obtain ⟨r, hr, hc⟩ := List.mem_flatMap.mp h
  obtain ⟨⟨segment, i⟩, hp, hc⟩ := List.mem_flatMap.mp hc
  have hmem : segment ∈ roundSegments threads r := (List.mem_zipIdx' hp).2 ▸ List.getElem_mem _
  obtain ⟨-, rfl, hoffset⟩ := within_segment (sync_notMem_roundSegments threads r segment hmem) c hc
  have := span_le_longest toCycles hmem
  exact ⟨List.mem_range.mp hr, by omega⟩

/-- A change takes place before the next round starts. -/
theorem cycle_le_base {threads : List Thread} {c : Change} (h : c ∈ layout toCycles threads) :
    base toCycles threads c.round + c.offset ≤ base toCycles threads (c.round + 1) :=
  Nat.add_le_add_left (bounds_of_mem_layout h).2 _

/-! ## Laying out -/

variable (toCycles) in
/-- A result if all durations have a length, and the first fault otherwise. -/
def converted {α : Type} (durations : List Duration) (x : α) : Except Fault α :=
  match durations.findSome? (fault? toCycles) with
  | none => .ok x
  | some e => .error e

variable (toCycles) in
/-- The event of a change, at its place in the layout. -/
def place (threads : List Thread) (p : Change × Nat) : ThreadEvent :=
  ⟨base toCycles threads p.1.round + p.1.offset, p.1.thread, p.2, p.1.pin, p.1.state⟩

variable (toCycles) in
theorem laySegment_eq (threads : List Thread) (thread round : Nat) {segment : List ThreadStep}
    (hs : .sync ∉ segment) (offset seq : Nat) :
    laySegment toCycles thread (base toCycles threads round + offset) seq segment =
      converted toCycles (waitsOf segment) (base toCycles threads round + (offset + span toCycles segment),
        ((changesFrom toCycles thread round offset segment).zipIdx seq).map (place toCycles threads)) := by
  induction segment generalizing offset seq with
  | nil => rfl
  | cons s segment ih =>
    have ih := ih fun h => hs (List.mem_cons_of_mem _ h)
    cases s with
    | set pin state =>
      simp only [laySegment, ih, converted, waitsOf, span]
      cases (waitsOf segment).findSome? (fault? toCycles) <;> rfl
    | cycles n =>
      simp only [laySegment, waitsOf, span, changesFrom]
      rw [Nat.add_assoc, ih, Nat.add_assoc]
    | wait d =>
      simp only [laySegment, waitsOf, span, changesFrom, waitCycles, converted, List.findSome?_cons, fault?]
      cases toCycles d with
      | error e => rfl
      | ok n =>
        show laySegment toCycles thread (base toCycles threads round + offset + n) seq segment = _
        rw [Nat.add_assoc, ih, Nat.add_assoc]
        rfl
    | sync => exact absurd List.mem_cons_self hs

variable (toCycles) in
theorem layRound_eq (threads : List Thread) (round : Nat) {segments : List (List ThreadStep)}
    (hs : ∀ segment ∈ segments, .sync ∉ segment) (thread seq : Nat) :
    layRound toCycles (base toCycles threads round) thread seq segments =
      converted toCycles (segments.flatMap waitsOf) (base toCycles threads round + longest toCycles segments,
        ((roundChanges toCycles round thread segments).zipIdx seq).map (place toCycles threads)) := by
  induction segments generalizing thread seq with
  | nil => rfl
  | cons segment segments ih =>
    have hfirst := laySegment_eq toCycles threads thread round (hs segment List.mem_cons_self) 0 seq
    have hrest := ih (fun s h => hs s (List.mem_cons_of_mem _ h)) (thread + 1)
    rw [Nat.add_zero, Nat.zero_add] at hfirst
    have hsplit : roundChanges toCycles round thread (segment :: segments) =
        changesFrom toCycles thread round 0 segment ++ roundChanges toCycles round (thread + 1) segments := rfl
    rw [layRound, hfirst, hsplit, List.zipIdx_append, List.map_append, List.flatMap_cons, longest_cons,
      ← Nat.add_max_add_left]
    simp only [converted, List.findSome?_append]
    cases (waitsOf segment).findSome? (fault? toCycles) with
    | some e => rfl
    | none =>
      show (layRound toCycles _ (thread + 1) _ segments >>= _) = _
      rw [hrest, List.length_map, List.length_zipIdx, converted]
      cases (segments.flatMap waitsOf).findSome? (fault? toCycles) <;> rfl

variable (toCycles) in
theorem layRounds_eq (threads : List Thread) (r n seq : Nat) :
    layRounds toCycles (base toCycles threads r) seq ((List.range' r n).map (roundSegments threads)) =
      converted toCycles ((List.range' r n).flatMap fun r => (roundSegments threads r).flatMap waitsOf)
        (base toCycles threads (r + n),
          (((List.range' r n).flatMap fun r => roundChanges toCycles r 0 (roundSegments threads r)).zipIdx
            seq).map (place toCycles threads)) := by
  induction n generalizing r seq with
  | zero => rfl
  | succ n ih =>
    have hround := layRound_eq toCycles threads r (sync_notMem_roundSegments threads r) 0 seq
    rw [List.range'_succ, List.map_cons, layRounds, hround, List.flatMap_cons, List.flatMap_cons,
      List.zipIdx_append, List.map_append]
    simp only [converted, List.findSome?_append]
    cases ((roundSegments threads r).flatMap waitsOf).findSome? (fault? toCycles) with
    | some e => rfl
    | none =>
      show (layRounds toCycles (base toCycles threads (r + 1)) _ _ >>= _) = _
      rw [ih, List.length_map, List.length_zipIdx, converted, Nat.add_right_comm, Nat.add_assoc r]
      cases ((List.range' (r + 1) n).flatMap fun r => (roundSegments threads r).flatMap waitsOf).findSome?
        (fault? toCycles) <;> rfl

variable (toCycles) in
/-- A plan is the layout, sorted. -/
theorem plan_eq (threads : List Thread) :
    plan toCycles threads = converted toCycles (waits threads)
      ⟨((layout toCycles threads).zipIdx.map (place toCycles threads)).mergeSort ThreadEvent.le,
        base toCycles threads (roundCount threads)⟩ := by
  have h := layRounds_eq toCycles threads 0 (roundCount threads) 0
  rw [← List.range_eq_range', ← rounds_eq, Nat.zero_add] at h
  rw [plan]
  show (layRounds toCycles (base toCycles threads 0) 0 (rounds threads) >>= _) = _
  rw [h]
  simp only [converted, waits]
  cases ((List.range (roundCount threads)).flatMap fun r => (roundSegments threads r).flatMap waitsOf).findSome?
    (fault? toCycles) <;> rfl

end Threads

end TestProgram
