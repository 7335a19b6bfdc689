import Mathlib.Algebra.GroupWithZero.Nat
import Mathlib.Data.List.Forall2
import TestProgram.Proofs.Clock.Edges

/-!
# The partition of a run by its edges

`ClockBank.slices` looks for one edge after the other and moves the clocks that have it on to their next one. What comes
out is said here by the clocks as they are when the run begins, each of which has its edges at its next one and at whole
half periods after it (`Slice.EdgeOn`): slices end at these edges and at the end of the run, and nowhere else
(`Slice.Partition`).

* `partition_whole`: a run without an edge inside is one slice;
* `Partition.cons`: the slice up to the first edge goes before the partition of what is left, for which the clocks have
  been moved on;
* `Cutting.round?_eq_some`, `Cutting.exists_last`: a round cuts off one slice of those that there will be in the end,
  and the rounds come to an end;
* `ClockBank.slices_partition`: hence every run is cut at its edges, in as many rounds as there are edges inside.
-/

namespace TestProgram

namespace Slice

variable {clocks : List Clock} {now stop e e' : Nat} {pin : PinId}

/-- A clock on the pin has an edge at `e`, counted from its next one, which comes after the cycle `now`. -/
def EdgeOn (clocks : List Clock) (now : Nat) (pin : PinId) (e : Nat) : Prop :=
  ∃ c ∈ clocks, c.pin = pin ∧ c.Comes now e

/-- The cycles at which slices end, if the first one begins at the cycle `now`. -/
def ends : (now : Nat) → List Slice → List Nat
  | _, [] => []
  | now, s :: slices => (now + s.count) :: ends (now + s.count) slices

/-- The slice is not empty and has at its end, the cycle `e`, the edges that there are. -/
structure EndsAt (clocks : List Clock) (now : Nat) (s : Slice) (e : Nat) : Prop where
  filled : 1 ≤ s.count
  later : now < e
  ordered : s.toggles.Pairwise (· < ·)
  mem_toggles : ∀ pin, pin ∈ s.toggles ↔ EdgeOn clocks now pin e

/-- Slices of a run from `now` to `stop` that end at the edges inside the run and at its end. -/
structure Partition (clocks : List Clock) (now stop : Nat) (cuts : List Nat) (slices : List Slice) : Prop where
  increasing : cuts.Pairwise (· < ·)
  mem_cuts : ∀ e, e ∈ cuts ↔ e < stop ∧ ∃ pin, EdgeOn clocks now pin e
  ends_eq : ends now slices = cuts ++ [stop]
  endings : List.Forall₂ (EndsAt clocks now) slices (cuts ++ [stop])

/-! ## The lengths of slices -/

/-- A slice is as long as it is from one cut to the next. -/
theorem counts_of_ends : ∀ {now : Nat} {slices : List Slice} {cuts : List Nat}, ends now slices = cuts ++ [stop] →
    slices.map Slice.count = List.zipWith (· - ·) (cuts ++ [stop]) (now :: cuts)
  | now, s :: slices, cut :: cuts, h => by
    obtain ⟨rfl, hends⟩ := List.cons.inj h
    rw [List.map_cons, counts_of_ends hends, List.cons_append, List.zipWith_cons_cons, Nat.add_sub_cancel_left]
  | now, [s], [], h => by
    obtain rfl : now + s.count = stop := (List.cons.inj h).1
    rw [List.map_singleton, List.nil_append, List.zipWith_cons_cons, Nat.add_sub_cancel_left, List.zipWith_nil_left]
  | _, _ :: _ :: _, [], h => nomatch (List.cons.inj h).2
  | _, [], _ :: _, h => nomatch h

theorem getLast?_ends : ∀ (now : Nat) (slices : List Slice),
    (now :: ends now slices).getLast? = some (now + (slices.map Slice.count).sum)
  | _, [] => rfl
  | now, s :: slices => by
    rw [ends, List.getLast?_cons_cons, getLast?_ends, List.map_cons, List.sum_cons, Nat.add_assoc]

namespace Partition

variable {cuts : List Nat} {slices : List Slice}

theorem sum_counts (h : Partition clocks now stop cuts slices) : now + (slices.map Slice.count).sum = stop := by
  have hlast := getLast?_ends now slices
  rw [h.ends_eq, ← List.cons_append, List.getLast?_concat] at hlast
  exact (Option.some.inj hlast).symm

theorem length_eq (h : Partition clocks now stop cuts slices) : slices.length = cuts.length + 1 := by
  rw [h.endings.length_eq, List.length_append, List.length_singleton]

end Partition

/-! ## The first edge -/

theorem EdgeOn.lt (h : EdgeOn clocks now pin e) : now < e := by
  obtain ⟨c, -, -, hcomes⟩ := h
  exact hcomes.lt

section

variable (hwaits : ∀ c ∈ clocks, c.Waits now e) (hnow : now < e)
include hwaits

theorem EdgeOn.le_of_waits (h : EdgeOn clocks now pin e') : e ≤ e' := by
  obtain ⟨c, hc, -, hcomes⟩ := h
  exact (hwaits c hc).le hcomes

include hnow

theorem mem_togglesAt_iff_edgeOn : pin ∈ togglesAt clocks e ↔ EdgeOn clocks now pin e := by
  simp only [EdgeOn, togglesAt, List.mem_map, List.mem_filter, beq_iff_eq]
  constructor
  · rintro ⟨c, ⟨hc, hnext⟩, hpin⟩
    exact ⟨c, hc, hpin, ((hwaits c hc).comes_iff hnow).mpr hnext⟩
  · rintro ⟨c, hc, hpin, hcomes⟩
    exact ⟨c, ⟨hc, ((hwaits c hc).comes_iff hnow).mp hcomes⟩, hpin⟩

/-- The later edges are those of the clocks that have been moved on. -/
theorem edgeOn_pass_iff (he : e < e') : EdgeOn (pass clocks e) e pin e' ↔ EdgeOn clocks now pin e' := by
  constructor
  · rintro ⟨_, hmem, hpin, hcomes⟩
    obtain ⟨c, hc, rfl⟩ := List.mem_map.mp hmem
    exact ⟨c, hc, (c.pin_passed e).symm.trans hpin, ((hwaits c hc).comes_pass hnow he).mp hcomes⟩
  · rintro ⟨c, hc, hpin, hcomes⟩
    exact ⟨_, List.mem_map_of_mem hc, (c.pin_passed e).trans hpin, ((hwaits c hc).comes_pass hnow he).mpr hcomes⟩

theorem endsAt_togglesAt (hclocks : Clock.Ordered clocks) : EndsAt clocks now ⟨e - now, togglesAt clocks e⟩ e where
  filled := Nat.sub_pos_of_lt hnow
  later := hnow
  ordered := List.pairwise_map.mpr (hclocks.filter _)
  mem_toggles _ := mem_togglesAt_iff_edgeOn hwaits hnow

theorem EndsAt.of_pass {s : Slice} (h : EndsAt (pass clocks e) e s e') : EndsAt clocks now s e' where
  filled := h.filled
  later := Nat.lt_trans hnow h.later
  ordered := h.ordered
  mem_toggles pin := (h.mem_toggles pin).trans (edgeOn_pass_iff hwaits hnow h.later)

end

/-! ## The slices of a run -/

theorem partition_whole (hclocks : Clock.Ordered clocks) (hstop : now < stop)
    (hfirst : firstEdge? clocks now stop = none) :
    Partition clocks now stop [] [⟨stop - now, togglesAt clocks stop⟩] := by
  have hwaits : ∀ c ∈ clocks, c.Waits now stop :=
    waits_of_firstEdge (Nat.le_refl stop) fun e he => by rw [hfirst] at he; exact nomatch he
  refine ⟨List.Pairwise.nil, fun e => ⟨nofun, ?_⟩, ?_, .cons (endsAt_togglesAt hwaits hstop hclocks) .nil⟩
  · rintro ⟨hlt, pin, hedge⟩
    exact absurd hlt (Nat.not_lt.mpr (hedge.le_of_waits hwaits))
  · rw [ends, ends, Nat.add_sub_cancel' (Nat.le_of_lt hstop), List.nil_append]

/-- The slice up to the first edge comes before the slices of what is left of the run. -/
theorem Partition.cons {cuts : List Nat} {slices : List Slice} (hclocks : Clock.Ordered clocks)
    (hfirst : firstEdge? clocks now stop = some e) (h : Partition (pass clocks e) e stop cuts slices) :
    Partition clocks now stop (e :: cuts) (⟨e - now, togglesAt clocks e⟩ :: slices) := by
  obtain ⟨hnow, hstop⟩ := firstEdge?_bounds hfirst
  have hwaits : ∀ c ∈ clocks, c.Waits now e := waits_of_firstEdge (Nat.le_of_lt hstop) fun x hx => by
    rw [hfirst] at hx
    exact Nat.le_of_eq (Option.some.inj hx)
  refine ⟨?_, fun x => ?_, ?_, ?_⟩
  · refine List.pairwise_cons.mpr ⟨fun x hx => ?_, h.increasing⟩
    obtain ⟨-, pin, hedge⟩ := (h.mem_cuts x).mp hx
    exact hedge.lt
  · -- an edge inside the run is the first one or inside what is left
    rw [List.mem_cons, h.mem_cuts]
    constructor
    · rintro (rfl | ⟨hlt, pin, hedge⟩)
      · obtain ⟨pin, hpin⟩ := List.exists_mem_of_ne_nil _ (togglesAt_firstEdge hfirst)
        exact ⟨hstop, pin, (mem_togglesAt_iff_edgeOn hwaits hnow).mp hpin⟩
      · exact ⟨hlt, pin, (edgeOn_pass_iff hwaits hnow hedge.lt).mp hedge⟩
    · rintro ⟨hlt, pin, hedge⟩
      rcases Nat.eq_or_lt_of_le (hedge.le_of_waits hwaits) with heq | he
      · exact .inl heq.symm
      · exact .inr ⟨hlt, pin, (edgeOn_pass_iff hwaits hnow he).mpr hedge⟩
  · rw [ends, Nat.add_sub_cancel' (Nat.le_of_lt hnow), h.ends_eq, List.cons_append]
  · exact .cons (endsAt_togglesAt hwaits hnow hclocks) (h.endings.imp fun _ _ => EndsAt.of_pass hwaits hnow)

theorem exists_partition (hclocks : Clock.Ordered clocks) (hstop : now < stop) :
    ∃ cuts, Partition clocks now stop cuts (cut clocks now stop) := by
  fun_induction cut clocks now stop with
  | case1 clocks now e hfirst ih =>
    obtain ⟨cuts, h⟩ := ih (hclocks.pass e) (firstEdge?_bounds hfirst).2
    exact ⟨e :: cuts, h.cons hclocks hfirst⟩
  | case2 clocks now hfirst => exact ⟨[], partition_whole hclocks hstop hfirst⟩

end Slice

/-! ## Round by round -/

/-- A run that is being cut. The copies of the running clocks go on from edge to edge. -/
structure Cutting where
  /-- The clocks that the copies were made of. -/
  bank : ClockBank
  copies : List Clock
  /-- The cycle up to which the run is cut. -/
  now : Nat
  slices : List Slice

namespace Cutting

variable {stop : Nat} {k k' : Cutting}

def start (b : ClockBank) (now : Nat) : Cutting := ⟨b, b.running, now, []⟩

/-- Cuts the run at the first edge inside what is left of it, if there is one. -/
def round? (stop : Nat) (k : Cutting) : Option Cutting :=
  (Slice.firstEdge? k.copies k.now stop).map fun e =>
    { k with
      copies := Slice.pass k.copies e
      now := e
      slices := k.slices ++ [⟨e - k.now, Slice.togglesAt k.copies e⟩] }

/-- The given number of rounds, if there are as many. -/
def rounds? (stop : Nat) : Nat → Cutting → Option Cutting
  | 0, k => some k
  | i + 1, k => (k.round? stop).bind (rounds? stop i)

/-- What is left of the run is the last slice. -/
def finish (stop : Nat) (k : Cutting) : List Slice :=
  k.slices ++ [⟨stop - k.now, Slice.togglesAt k.copies stop⟩]

/-- The slices that there will be in the end. -/
def total (stop : Nat) (k : Cutting) : List Slice := k.slices ++ Slice.cut k.copies k.now stop

theorem round?_eq_some (h : k.round? stop = some k') :
    k.now < k'.now ∧ k'.now < stop ∧ k'.bank = k.bank ∧ k'.slices.length = k.slices.length + 1 ∧
      k'.total stop = k.total stop := by
  obtain ⟨e, hfirst, rfl⟩ := Option.map_eq_some_iff.mp h
  obtain ⟨hnow, hstop⟩ := Slice.firstEdge?_bounds hfirst
  refine ⟨hnow, hstop, rfl, List.length_append, ?_⟩
  rw [total, total, Slice.cut_of_firstEdge_eq_some hfirst, List.append_assoc, List.singleton_append]

theorem round?_eq_none (h : k.round? stop = none) : k.finish stop = k.total stop := by
  rw [finish, total, Slice.cut_of_firstEdge_eq_none (Option.map_eq_none_iff.mp h)]

/-- The rounds come to an end. The bank is then as it was, and every round has made one slice. -/
theorem exists_last (stop : Nat) (k : Cutting) :
    ∃ i last, rounds? stop i k = some last ∧ last.round? stop = none ∧ last.bank = k.bank ∧
      last.slices.length = k.slices.length + i ∧ last.finish stop = k.total stop := by
  cases hround : k.round? stop with
  | none => exact ⟨0, k, rfl, hround, rfl, rfl, round?_eq_none hround⟩
  | some k' =>
    obtain ⟨hnow, hstop, hbank, hlength, htotal⟩ := round?_eq_some hround
    obtain ⟨i, last, hlast, hover, hbank', hlength', htotal'⟩ := exists_last stop k'
    refine ⟨i + 1, last, ?_, hover, hbank'.trans hbank, by omega, htotal'.trans htotal⟩
    rw [rounds?, hround]
    exact hlast
termination_by stop - k.now
decreasing_by omega

end Cutting

namespace ClockBank

/-- A run is cut at the edges inside it and nowhere else. Where a slice ends, the pins toggle that have an edge then.
One round after the other cuts off what comes before an edge, and leaves the bank alone. -/
theorem slices_partition (b : ClockBank) (now : Nat) {n : Nat} (hn : 0 < n) :
    ∃ cuts, Slice.Partition b.running now (now + n) cuts (b.slices n now) ∧
      (b.slices n now).map Slice.count = List.zipWith (· - ·) (cuts ++ [now + n]) (now :: cuts) ∧
      ((b.slices n now).map Slice.count).sum = n ∧
      ∃ last, Cutting.rounds? (now + n) cuts.length (.start b now) = some last ∧ last.round? (now + n) = none ∧
        last.bank = b ∧ last.finish (now + n) = b.slices n now := by
  obtain ⟨cuts, h⟩ := Slice.exists_partition (b.ordered.filter Clock.isRunning) (Nat.lt_add_of_pos_right hn)
  obtain ⟨i, last, hlast, hover, hbank, hlength, hfinish⟩ := Cutting.exists_last (now + n) (.start b now)
  have hi : i = cuts.length := by
    have hslices : (last.finish (now + n)).length = cuts.length + 1 := hfinish ▸ h.length_eq
    rw [Cutting.finish, List.length_append, List.length_singleton, hlength] at hslices
    exact (Nat.zero_add i).symm.trans (Nat.succ.inj hslices)
  exact ⟨cuts, h, Slice.counts_of_ends h.ends_eq, Nat.add_left_cancel h.sum_counts, last, hi ▸ hlast, hover, hbank,
    hfinish⟩

/-- Two clocks whose edges meet, one whose next edge is over, and one that is paused. -/
def beatingClocks : ClockBank where
  clocks := [⟨0, .ofMegahertz 2, 6, .running 6⟩, ⟨1, .ofMegahertz 4, 3, .running 3⟩,
    ⟨2, .ofMegahertz 5, 2, .running 1⟩, ⟨3, .ofMegahertz 3, 4, .paused 2⟩]
  ordered := by unfold Clock.Ordered; decide

/-- From the cycle 1 on the first two clocks have edges at 3, 6 and 9, and at the end of the run; the third has none. -/
theorem beatingClocks_partition :
    0 < 11 ∧ beatingClocks.slices 11 1 = [⟨2, [1]⟩, ⟨3, [0, 1]⟩, ⟨3, [1]⟩, ⟨3, [0, 1]⟩] ∧
      ∃ cuts, Slice.Partition beatingClocks.running 1 12 cuts (beatingClocks.slices 11 1) ∧
        (beatingClocks.slices 11 1).map Slice.count = List.zipWith (· - ·) (cuts ++ [12]) (1 :: cuts) ∧
        ((beatingClocks.slices 11 1).map Slice.count).sum = 11 ∧
        ∃ last, Cutting.rounds? 12 cuts.length (.start beatingClocks 1) = some last ∧ last.round? 12 = none ∧
          last.bank = beatingClocks ∧ last.finish 12 = beatingClocks.slices 11 1 := by
  refine ⟨by decide, ?_, slices_partition beatingClocks 1 (n := 11) (by decide)⟩
  decide +kernel

end ClockBank

end TestProgram
