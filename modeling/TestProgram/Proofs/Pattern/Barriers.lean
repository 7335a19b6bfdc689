import Mathlib.Data.List.Permutation
import TestProgram.Proofs.Pattern.Timeline

/-!
# Barriers of a thread plan

A plan is the timeline of its threads, merged (`plan_timeline`). Events are in
order of cycle and thread, and each stands for one change that a thread asks
for (`Sources`).

A sync is a barrier in time: what threads change in front of it is on no later
cycle than what they change behind it (`barrier_order`). Both can be on the
cycle of the barrier itself, where events follow the order of the threads and
not that of the barrier: `barrier_crossed` is a plan in which a change made
behind a sync comes before one made in front of it.
-/

namespace TestProgram

namespace ThreadEvent

theorem le_iff (a b : ThreadEvent) : le a b = true ↔ a.cycle < b.cycle ∨
    a.cycle = b.cycle ∧ (a.thread < b.thread ∨ a.thread = b.thread ∧ a.seq ≤ b.seq) := by
  simp [le]

theorem le_trans (a b c : ThreadEvent) (hab : le a b = true) (hbc : le b c = true) : le a c = true := by
  rw [le_iff] at *
  omega

theorem le_total (a b : ThreadEvent) : (le a b || le b a) = true := by
  rw [Bool.or_eq_true, le_iff, le_iff]
  omega

end ThreadEvent

namespace Threads

/-! ## Sorting -/

/-- Sorting does not move elements past each other that are in order. -/
theorem filter_mergeSort {α : Type} {le : α → α → Bool} (htrans : ∀ a b c, le a b → le b c → le a c)
    (htotal : ∀ a b, le a b || le b a) {p : α → Bool} {l : List α} (h : (l.filter p).Pairwise (le · ·)) :
    (l.mergeSort le).filter p = l.filter p := by
  have hsub : (l.filter p).Sublist (l.mergeSort le) := List.sublist_mergeSort htrans htotal h List.filter_sublist
  have hkept : (l.filter p).Sublist ((l.mergeSort le).filter p) := by
    have := hsub.filter p
    rwa [List.filter_filter, funext fun a => Bool.and_self (p a)] at this
  have hlen : ((l.mergeSort le).filter p).length = (l.filter p).length :=
    ((List.mergeSort_perm l le).filter p).length_eq
  exact (hkept.eq_of_length hlen.symm).symm

theorem pairwise_zipIdx {α : Type} (l : List α) : l.zipIdx.Pairwise fun a b => a.2 < b.2 := by
  rw [← List.pairwise_map (f := Prod.snd), List.zipIdx_map_snd]
  exact List.pairwise_lt_range'

variable {toCycles : Duration → Except Fault Nat}

variable (toCycles) in
theorem pairwise_changesOf (threads : List Thread) (i : Nat) :
    (changesOf toCycles threads i).Pairwise fun c d => c.round < d.round ∨ c.round = d.round ∧ c.offset ≤ d.offset := by
  rw [changesOf]
  split
  · exact .nil
  · exact (pairwise_changesFrom i 0 0 _).2

variable (toCycles) in
/-- The order of events, on the changes that they are made of. -/
def inOrder (threads : List Thread) (a b : Change × Nat) : Bool :=
  (place toCycles threads a).le (place toCycles threads b)

variable (toCycles) in
theorem map_fst_filter_layout (threads : List Thread) (i : Nat) :
    ((layout toCycles threads).zipIdx.filter fun p => p.1.thread == i).map Prod.fst =
      changesOf toCycles threads i := by
  rw [← filter_layout, ← List.zipIdx_map_fst 0 (layout toCycles threads), List.filter_map, List.zipIdx_map_fst]
  rfl

variable (toCycles) in
/-- The changes of a thread are in the order of events before they are
sorted. -/
theorem pairwise_filter_layout (threads : List Thread) (i : Nat) :
    ((layout toCycles threads).zipIdx.filter fun p => p.1.thread == i).Pairwise
      (inOrder toCycles threads · ·) := by
  have hprogram := pairwise_changesOf toCycles threads i
  rw [← map_fst_filter_layout, List.pairwise_map] at hprogram
  have hseq := (pairwise_zipIdx (layout toCycles threads)).filter fun p => p.1.thread == i
  refine (hprogram.and hseq).imp_of_mem fun {a b} ha hb hab => ?_
  obtain ⟨ha, hathread⟩ := List.mem_filter.mp ha
  have hbthread := (List.mem_filter.mp hb).2
  have hend := cycle_le_base (List.fst_mem_of_mem_zipIdx ha)
  obtain ⟨hround | ⟨hround, hoffset⟩, hseq⟩ := hab
  all_goals
    simp only [beq_iff_eq] at hathread hbthread
    rw [inOrder, ThreadEvent.le_iff, place, place]
  · have hnext : base toCycles threads (a.1.round + 1) ≤ base toCycles threads b.1.round := base_mono threads hround
    simp only
    omega
  · simp only [hround]
    omega

variable (toCycles) in
theorem filter_layout_sorted (threads : List Thread) (i : Nat) :
    ((((layout toCycles threads).zipIdx.mergeSort (inOrder toCycles threads)).map Prod.fst).filter
      fun c => c.thread == i) = changesOf toCycles threads i := by
  have hsorted : ((layout toCycles threads).zipIdx.mergeSort (inOrder toCycles threads)).filter
      (fun p => p.1.thread == i) = (layout toCycles threads).zipIdx.filter fun p => p.1.thread == i :=
    filter_mergeSort (fun a b c => ThreadEvent.le_trans (place _ _ a) (place _ _ b) (place _ _ c))
      (fun a b => ThreadEvent.le_total (place _ _ a) (place _ _ b)) (pairwise_filter_layout toCycles threads i)
  rw [← map_fst_filter_layout, ← hsorted, List.filter_map]
  rfl

/-- The events of a plan come from what the threads ask for, in order. -/
theorem sources_of_plan {threads : List Thread} {p : ThreadPlan} (h : plan toCycles threads = .ok p) :
    ∃ sources, Sources toCycles threads p sources := by
  rw [plan_eq, converted] at h
  split at h
  · obtain rfl := Except.ok.inj h
    refine ⟨((layout toCycles threads).zipIdx.mergeSort (inOrder toCycles threads)).map Prod.fst, ?_,
      filter_layout_sorted toCycles threads⟩
    have hplace : (((layout toCycles threads).zipIdx.mergeSort (inOrder toCycles threads)).map
        (place toCycles threads)) =
          ((layout toCycles threads).zipIdx.map (place toCycles threads)).mergeSort ThreadEvent.le :=
      List.map_mergeSort fun _ _ _ _ => rfl
    rw [← hplace, List.map_map, List.map_map]
    rfl
  · cases h

theorem pairwise_of_plan {threads : List Thread} {p : ThreadPlan} (h : plan toCycles threads = .ok p) :
    p.events.Pairwise fun a b => a.le b = true := by
  rw [plan_eq, converted] at h
  split at h
  · obtain rfl := Except.ok.inj h
    exact List.pairwise_mergeSort ThreadEvent.le_trans ThreadEvent.le_total _
  · cases h

/-- No event takes place after the end of the plan. -/
theorem cycle_le_total {threads : List Thread} {p : ThreadPlan} (h : plan toCycles threads = .ok p) :
    ∀ e ∈ p.events, e.cycle ≤ p.total := by
  rw [plan_eq, converted] at h
  split at h
  · obtain rfl := Except.ok.inj h
    intro e he
    obtain ⟨⟨c, k⟩, hc, rfl⟩ := List.mem_map.mp (List.mem_mergeSort.mp he)
    have hc : c ∈ layout toCycles threads := List.fst_mem_of_mem_zipIdx hc
    exact Nat.le_trans (cycle_le_base hc) (base_mono threads (bounds_of_mem_layout hc).1)
  · cases h

/-! ## The timeline -/

/-- A plan is the timeline of its threads: it fails at the first wait that has
no length, and otherwise ends with the last round, with the changes that the
threads ask for on their cycles, by cycle and then by thread. -/
theorem plan_timeline (toCycles : Duration → Except Fault Nat) (threads : List Thread) :
    match (waits threads).findSome? (fault? toCycles) with
    | some e => plan toCycles threads = .error e
    | none => ∃ p sources, plan toCycles threads = .ok p ∧
        p.total = base toCycles threads (roundCount threads) ∧ Sources toCycles threads p sources ∧
        p.events.Pairwise fun a b => a.cycle < b.cycle ∨ a.cycle = b.cycle ∧ a.thread ≤ b.thread := by
  have heq := plan_eq toCycles threads
  rw [converted] at heq
  split at heq
  · rename_i hnone
    rw [hnone]
    obtain ⟨sources, hsources⟩ := sources_of_plan heq
    refine ⟨_, sources, heq, rfl, hsources, (pairwise_of_plan heq).imp fun {a b} hab => ?_⟩
    rw [ThreadEvent.le_iff] at hab
    omega
  · rename_i e hsome
    rw [hsome]
    exact heq

/-! ## Barriers -/

namespace Sources

variable {threads : List Thread} {p : ThreadPlan} {sources : List Change} {x : ThreadEvent} {c : Change} {a : Nat}

theorem event_eq (h : Sources toCycles threads p sources) (hx : p.events[a]? = some x) (hc : sources[a]? = some c) :
    x.cycle = base toCycles threads c.round + c.offset ∧ x.thread = c.thread := by
  have heq := congrArg (fun l => l[a]?) h.events
  simp only [List.getElem?_map, hx, hc, Option.map_some, Option.some.injEq, Prod.mk.injEq] at heq
  exact ⟨heq.1, heq.2.1⟩

/-- A change takes place between the barriers that are around it. -/
theorem cycle_bounds (h : Sources toCycles threads p sources) (hx : p.events[a]? = some x)
    (hc : sources[a]? = some c) :
    base toCycles threads c.round ≤ x.cycle ∧ x.cycle ≤ base toCycles threads (c.round + 1) := by
  have hown : c ∈ sources.filter fun d => d.thread == c.thread :=
    List.mem_filter.mpr ⟨List.mem_of_getElem? hc, beq_self_eq_true _⟩
  rw [h.program, ← filter_layout] at hown
  have hend := cycle_le_base (List.mem_filter.mp hown).1
  have hcycle := (h.event_eq hx hc).1
  omega

theorem round_le (h : Sources toCycles threads p sources) {b : Nat} {d : Change} (hc : sources[a]? = some c)
    (hd : sources[b]? = some d) (hab : a < b) (hthread : c.thread = d.thread) : c.round ≤ d.round := by
  have hpair := pairwise_changesOf toCycles threads d.thread
  rw [← h.program, List.pairwise_filter] at hpair
  obtain ⟨ha, rfl⟩ := List.getElem?_eq_some_iff.mp hc
  obtain ⟨hb, rfl⟩ := List.getElem?_eq_some_iff.mp hd
  have := List.pairwise_iff_getElem.mp hpair a b ha hb hab (by simpa using hthread) (by simp)
  omega

end Sources

theorem le_of_plan {threads : List Thread} {p : ThreadPlan} (h : plan toCycles threads = .ok p) {a b : Nat}
    {x y : ThreadEvent} (hx : p.events[a]? = some x) (hy : p.events[b]? = some y) (hab : a < b) :
    x.cycle < y.cycle ∨ x.cycle = y.cycle ∧ x.thread ≤ y.thread := by
  obtain ⟨ha, rfl⟩ := List.getElem?_eq_some_iff.mp hx
  obtain ⟨hb, rfl⟩ := List.getElem?_eq_some_iff.mp hy
  have hle := List.pairwise_iff_getElem.mp (pairwise_of_plan h) a b ha hb hab
  rw [ThreadEvent.le_iff] at hle
  omega

/-- What is changed in front of a sync takes place on no later cycle than
what is changed behind it, and comes first in the plan unless both are on one
cycle and the thread behind the sync is declared before the other. -/
theorem barrier_order {threads : List Thread} {p : ThreadPlan} (h : plan toCycles threads = .ok p) :
    (∃ sources, Sources toCycles threads p sources) ∧ ∀ sources, Sources toCycles threads p sources →
      ∀ (a b k : Nat) {x y : ThreadEvent} {c d : Change}, p.events[a]? = some x → p.events[b]? = some y →
        sources[a]? = some c → sources[b]? = some d → c.round < k → k ≤ d.round →
          x.cycle ≤ base toCycles threads k ∧ base toCycles threads k ≤ y.cycle ∧
            (a < b ↔ ¬(x.cycle = y.cycle ∧ y.thread < x.thread)) := by
  refine ⟨sources_of_plan h, fun sources hs a b k x y c d hx hy hc hd hck hkd => ?_⟩
  have hbefore : x.cycle ≤ base toCycles threads k :=
    Nat.le_trans (hs.cycle_bounds hx hc).2 (base_mono threads hck)
  have hbehind : base toCycles threads k ≤ y.cycle :=
    Nat.le_trans (base_mono threads hkd) (hs.cycle_bounds hy hd).1
  refine ⟨hbefore, hbehind, ?_, ?_⟩
  · intro hab
    have := le_of_plan h hx hy hab
    omega
  · intro hfirst
    rcases Nat.lt_trichotomy a b with hab | rfl | hba
    · exact hab
    · obtain rfl := Option.some.inj (hc.symm.trans hd)
      omega
    · -- Only changes of one thread are left, and these keep their order.
      have hle := le_of_plan h hy hx hba
      have hthread : d.thread = c.thread := by
        have := (hs.event_eq hx hc).2
        have := (hs.event_eq hy hd).2
        omega
      have := hs.round_le hd hc hba hthread
      omega

/-- Sources can be checked thread by thread. -/
theorem sources_of_forall_lt {threads : List Thread} {p : ThreadPlan} {sources : List Change}
    (hevents : (p.events.map fun e => (e.cycle, e.thread, e.pin, e.state)) =
      sources.map fun c => (base toCycles threads c.round + c.offset, c.thread, c.pin, c.state))
    (hthread : ∀ c ∈ sources, c.thread < threads.length)
    (hprogram : ∀ i < threads.length, (sources.filter fun c => c.thread == i) = changesOf toCycles threads i) :
    Sources toCycles threads p sources := by
  refine ⟨hevents, fun i => ?_⟩
  by_cases hi : i < threads.length
  · exact hprogram i hi
  · rw [changesOf, List.getElem?_eq_none (by omega), List.filter_eq_nil_iff]
    intro c hc
    have := hthread c hc
    simp only [beq_iff_eq]
    omega

/-- A wait takes its picoseconds in cycles. -/
def countPicoseconds (d : Duration) : Except Fault Nat := .ok d.picoseconds

def drivenThenCompared : List Thread :=
  [⟨"driver", [.set "tdi" .drive1, .cycles 2, .sync]⟩, ⟨"checker", [.wait ⟨5⟩, .sync, .set "tdo" .compare0]⟩]

def drivenThenComparedPlan : ThreadPlan := ⟨[⟨0, 0, 0, "tdi", .drive1⟩, ⟨5, 1, 1, "tdo", .compare0⟩], 5⟩

theorem driven_before_compared : plan countPicoseconds drivenThenCompared = .ok drivenThenComparedPlan ∧
    0 ≤ base countPicoseconds drivenThenCompared 1 ∧ base countPicoseconds drivenThenCompared 1 ≤ 5 ∧
      ((0 : Nat) < 1 ↔ ¬(0 = 5 ∧ 1 < 0)) := by
  have hplan : plan countPicoseconds drivenThenCompared = .ok drivenThenComparedPlan := by cbv
  have hsources : Sources countPicoseconds drivenThenCompared drivenThenComparedPlan
      [⟨0, 0, 0, "tdi", .drive1⟩, ⟨1, 1, 0, "tdo", .compare0⟩] := by
    apply sources_of_forall_lt <;> decide
  exact ⟨hplan, (barrier_order hplan).2 _ hsources 0 1 1 rfl rfl rfl rfl (by decide) (by decide)⟩

/-- Both changes are on the cycle of the barrier. The one behind it is made by
the thread that is declared first. -/
def crossing : List Thread :=
  [⟨"first", [.sync, .set "a" .drive1]⟩, ⟨"second", [.set "b" .drive0, .sync]⟩]

def crossingPlan : ThreadPlan := ⟨[⟨0, 0, 1, "a", .drive1⟩, ⟨0, 1, 0, "b", .drive0⟩], 0⟩

/-- The order of a plan is not that of its barriers. -/
theorem barrier_crossed : ¬∀ (toCycles : Duration → Except Fault Nat) (threads : List Thread) (p : ThreadPlan),
    plan toCycles threads = .ok p → ∀ sources, Sources toCycles threads p sources →
      ∀ (a b k : Nat) {c d : Change}, sources[a]? = some c → sources[b]? = some d → c.round < k → k ≤ d.round →
        a < b := by
  intro hall
  have hsources : Sources countPicoseconds crossing crossingPlan
      [⟨0, 1, 0, "a", .drive1⟩, ⟨1, 0, 0, "b", .drive0⟩] := by
    apply sources_of_forall_lt <;> decide
  have hlt : 1 < 0 := hall countPicoseconds crossing crossingPlan (by cbv) _ hsources 1 0 1 rfl rfl
    (by decide) (by decide)
  exact absurd hlt (by decide)

end Threads

end TestProgram
