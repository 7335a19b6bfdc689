import TestProgram.Proofs.Bench.Togglings
import TestProgram.Proofs.Sequencer.Tiling

/-!
# Running clocks never fall silent

Whatever operations a program consists of and whichever of them fail, the
clocks of its sequencer have their next edges before them
(`Moment.Ticking`, `Move.ticking`). Every vector that is recorded therefore
toggles the pins of the running clocks at all their edges up to its end, and at
each of them once (`running_never_silent`).
-/

namespace TestProgram

namespace Moment

/-- All clocks are on declared pins and have their next edges before them. -/
structure Ticking (s : Moment) : Prop where
  ahead : s.clocks.Ahead s.cycle
  declared : ∀ k ∈ s.clocks.clocks, k.pin < s.pins.pins.length

variable {s : Moment}

theorem Ticking.next (h : s.Ticking) : s.next.Ticking := by
  have hlength : s.next.pins.pins.length = s.pins.pins.length := Pinout.length_of_names (s.names_iterate 1)
  refine ⟨h.ahead.edges, fun k hk => ?_⟩
  rw [clocks_next] at hk
  obtain ⟨d, hd, hpin, -, -⟩ := Slice.exists_of_mem_pass hk
  rw [hlength, ← hpin]
  exact h.declared d hd

theorem Ticking.iterate (h : s.Ticking) : ∀ n : Nat, (Moment.next^[n] s).Ticking
  | 0 => h
  | n + 1 => by
    rw [Function.iterate_succ_apply']
    exact (h.iterate n).next

/-- A change to the pins that keeps their names. -/
theorem Ticking.pins (h : s.Ticking) {p : Pinout} (hp : p.names = s.pins.names) : Ticking { s with pins := p } := by
  refine ⟨h.ahead, fun k hk => ?_⟩
  have hlength : p.pins.length = s.pins.pins.length := Pinout.length_of_names hp
  rw [hlength]
  exact h.declared k hk

/-- A clock put in its place on a declared pin. -/
theorem Ticking.put (h : s.Ticking) {i : PinId} (hi : i < s.pins.pins.length) {k : Clock} {clocks : ClockBank}
    (hput : clocks = s.clocks.put k) (hpin : k.pin = i) (hahead : clocks.Ahead s.cycle) :
    Ticking { s with clocks } := by
  refine ⟨hahead, ?_⟩
  rw [hput]
  exact ClockBank.forall_put h.declared (hpin ▸ hi)

end Moment

/-! ## Runs -/

namespace Bench

/-- From `b` to `b'` the pin of the clock `k`, which has its next edge at `first`,
toggles at the cycles `edges`. -/
structure Toggled (k : Clock) (first : Nat) (edges : List Nat) (b b' : Bench) : Prop where
  /-- It does so at no cycle twice, -/
  once : edges.Pairwise (· < ·)
  /-- and at those of the clock's edges that fall into the cycles in between. -/
  cycles : ∀ e, e ∈ edges ↔ b.tape.cycle < e ∧ e ≤ b'.tape.cycle ∧ ∃ i, e = first + i * k.half
  /-- The clock runs on to the edge after them. -/
  clock : b'.clocks.find? k.pin = some { k with status := .running (first + edges.length * k.half) }
  state : b'.pins.state k.pin = PinState.toggled^[edges.length] (b.pins.state k.pin)
  /-- In each cycle the pin shows its state after the edges that are over. -/
  shown : ∀ r ∈ b'.tape.records, ∀ x, b.tape.cycle ≤ x → r.start ≤ x → x < r.start + r.count →
    r.states[k.pin]? = some (PinState.under
      (PinState.toggled^[edges.countP fun e => decide (e ≤ x)] (b.pins.state k.pin)) (b.pins.masks k.pin))

variable {b b' : Bench} {k : Clock} {first width : Nat}

/-- Where nothing is recorded no pin toggles. -/
theorem Toggled.refl (hb : b.Tiled width) (hk : k ∈ b.clocks.clocks) (hstatus : k.status = .running first) :
    Toggled k first [] b b := by
  refine ⟨List.Pairwise.nil, fun e => ?_, ?_, rfl, fun r hr x h₁ h₂ h₃ => ?_⟩
  · constructor
    · exact fun h => absurd h List.not_mem_nil
    · rintro ⟨h₁, h₂, -⟩
      omega
  · rw [ClockBank.find?_of_mem hk, List.length_nil, Nat.zero_mul, Nat.add_zero, ← hstatus]
  · have hend := (hb.consecutive.end_le r hr).2
    rw [hb.total] at hend
    omega

/-- A run toggles the pin of a running clock at all edges of the clock. -/
theorem toggled_of_hold (hb : b.Tiled width) (hticking : b.moment.Ticking) (hk : k ∈ b.clocks.clocks)
    (hstatus : k.status = .running first) {t : Timeset} {n : Nat} {m : Marks} (h : b.hold t n m = .ok b') :
    Toggled k first (Slice.togglings k.pin b.tape.cycle (b.clocks.slices n b.tape.cycle)) b b' := by
  obtain ⟨hn, hmoment, -⟩ := hold_eq_ok h
  have hclock : b.moment.clocks.find? k.pin = some k := ClockBank.find?_of_mem hk
  have hahead := hticking.ahead k hk
  have hpin : k.pin < b.moment.pins.pins.length := hticking.declared k hk
  have hedges : Slice.togglings k.pin b.tape.cycle (b.clocks.slices n b.tape.cycle) = b.moment.togglings k.pin n :=
    Moment.togglings_slices k.pin b.moment hn
  rw [hedges]
  refine ⟨Moment.pairwise_togglings k.pin n b.moment, fun e => ?_, ?_, ?_, fun r hr x h₁ h₂ h₃ => ?_⟩
  · have hcomes : k.Comes b.tape.cycle e ↔ ∃ i, e = first + i * k.half := hahead.comes_iff hstatus
    rw [cycle_of_hold h, Moment.mem_togglings hclock, ← hcomes]
    exact ⟨fun ⟨he, hle⟩ => ⟨he.lt, hle, he⟩, fun ⟨_, hle, he⟩ => ⟨he, hle⟩⟩
  · have hafter := Moment.find?_iterate (n := n) hclock hstatus
    rwa [← hmoment] at hafter
  · have hafter := Moment.state_iterate (n := n) hpin
    rwa [← hmoment] at hafter
  · obtain ⟨new, hrecords, hfilm⟩ := film_of_hold h
    rw [hrecords] at hr
    rcases List.mem_append.mp hr with hr | hr
    · -- the records of before are over when the run begins
      have hend := (hb.consecutive.end_le r hr).2
      rw [hb.total] at hend
      omega
    · have hcycle : (⟨x, r.states, r.timeset, r.group⟩ : TesterCycle) ∈ b.moment.film t.name m.group n := by
        rw [← hfilm]
        exact List.mem_flatMap.mpr ⟨r, hr, r.mem_cycles h₂ h₃⟩
      obtain ⟨i, hi, hshot⟩ := List.mem_map.mp hcycle
      obtain ⟨hx, hstates, -, -⟩ := TesterCycle.mk.inj hshot
      rw [Moment.cycle_iterate] at hx
      rw [← hx, ← hstates]
      exact Moment.shown_iterate hpin (Nat.le_of_lt (List.mem_range.mp hi))

end Bench

namespace Sequencer

variable {c c' : Sequencer}

/-! ## Moves -/

/-- No move leaves a clock behind the present cycle. -/
theorem Move.ticking {a : Act} (hm : Move c c' a) (h : c.bench.moment.Ticking) : c'.bench.moment.Ticking := by
  have hdeclared {pin : String} {i : PinId} (hi : c.pins.id pin = .ok i) : i < c.bench.moment.pins.pins.length :=
    Pinout.lt_of_id_eq_ok hi
  have hnames : c'.pins.names = c.pins.names := hm.names
  cases hm with
  | note hb =>
    rw [hb.bench]
    exact h
  | setPin s hi hb | mask ids hb | unmask ids hb =>
    rw [pins, hb.bench] at hnames
    rw [hb.bench]
    exact h.pins hnames
  | enable hi he hb =>
    obtain ⟨k, hpin, -, -, hput⟩ := ClockBank.enable_eq_ok he
    rw [hb.bench]
    exact h.put (hdeclared hi) hput hpin (h.ahead.enable he)
  | start hi hg hs hb =>
    obtain ⟨k, hk, hput⟩ := ClockBank.start_eq_ok hs
    have hpin := (c.clocks.find?_eq_some_iff.mp hk).2
    rw [pins, hb.bench] at hnames
    rw [hb.bench]
    exact (h.put (hdeclared hi) hput hpin (h.ahead.start hs)).pins hnames
  | stop hi hs hb =>
    obtain ⟨k, hk, hput⟩ := ClockBank.stop_eq_ok hs
    have hpin := (c.clocks.find?_eq_some_iff.mp hk).2
    rw [hb.bench]
    exact h.put (hdeclared hi) hput hpin (h.ahead.stop hs)
  | pause hi hp hb =>
    obtain ⟨k, _, hk, -, hput⟩ := ClockBank.pause_eq_ok hp
    have hpin := (c.clocks.find?_eq_some_iff.mp hk).2
    rw [hb.bench]
    exact h.put (hdeclared hi) hput hpin (h.ahead.pause hp)
  | resume hi hr hb =>
    have hahead := h.ahead.resume hr
    rw [hb.bench]
    obtain ⟨k, hk, ⟨-, _, -, hput⟩ | ⟨-, d, hpin, -, -, hput⟩⟩ := ClockBank.resume_eq_ok hr
    · have hpin := (c.clocks.find?_eq_some_iff.mp hk).2
      exact h.put (hdeclared hi) hput hpin hahead
    · exact h.put (hdeclared hi) hput hpin hahead
  | group hpos hg hb hcfg =>
    rw [hb]
    exact h
  | emit hi hb hafter =>
    rw [hafter.bench, (Bench.hold_eq_ok hb).2.1]
    exact h.iterate _
  | store ht hb =>
    rw [hb.bench, Bench.moment, (Tape.records_markStore ht).1]
    exact h
  | item i hi hb =>
    rw [hb.bench]
    exact h
  | finish hb =>
    rw [hb.bench]
    exact ⟨List.forall_mem_nil _, List.forall_mem_nil _⟩

theorem ticking_new (name : String) (pins : Pinout) (config : Config) :
    (new name pins config).bench.moment.Ticking := ⟨List.forall_mem_nil _, List.forall_mem_nil _⟩

/-! ## Emissions -/

/-- The slices that an emission goes through. While vectors are inhibited there
are none. -/
def emittedSlices (c : Sequencer) (count : Nat) : List Slice :=
  if c.inhibitVectors = 0 then c.clocks.slices count c.cycle else []

theorem toggled_of_emit {width : Nat} (hb : c.bench.Tiled width) (hticking : c.bench.moment.Ticking) {count : Nat}
    {timeset call : Option String} (h : c.emit count timeset call = (.ok (), c')) {k : Clock}
    (hk : k ∈ c.clocks.clocks) {first : Nat} (hstatus : k.status = .running first) :
    Bench.Toggled k first (Slice.togglings k.pin c.cycle (c.emittedSlices count)) c.bench c'.bench := by
  rw [emittedSlices]
  rcases c.emit_cases count timeset call with ⟨hsame, hok⟩ | ⟨hi, t, b, hhold, hafter, -⟩
  · rw [h] at hsame hok
    rw [if_neg (fun hi => hok hi rfl), hsame.bench]
    exact .refl hb hk hstatus
  · rw [h] at hafter
    rw [if_pos hi, hafter.bench]
    exact Bench.toggled_of_hold hb hticking hk hstatus hhold

/-- In every reachable state a clock has a half period of at least one cycle;
while it runs its next edge comes after the present cycle, and while it is
paused at least one cycle is left until then. So whatever is done from there
on, every emission toggles the pin of every running clock at each edge of the
clock up to the emission's end, and at each of them once. -/
theorem running_never_silent {name : String} {pins : Pinout} {config : Config} {c : Sequencer}
    (h : Reachable name pins config c) :
    (∀ k ∈ c.clocks.clocks, k.Ahead c.cycle) ∧
      ∀ c₁ c₂ count timeset call, Moves (fun _ => True) c c₁ → c₁.emit count timeset call = (.ok (), c₂) →
        (c₁.inhibitVectors = 0 → c₂.cycle = c₁.cycle + count) ∧
          ∀ k ∈ c₁.clocks.clocks, ∀ first, k.status = .running first → c₁.cycle < first ∧
            Bench.Toggled k first (Slice.togglings k.pin c₁.cycle (c₁.emittedSlices count)) c₁.bench c₂.bench := by
  have hticking : c.bench.moment.Ticking :=
    h.keep (P := fun c => c.bench.moment.Ticking) (fun hm => hm.ticking) (ticking_new name pins config)
  refine ⟨hticking.ahead, fun c₁ c₂ count timeset call hmoves hemit => ⟨fun hi => cycle_of_emit hi hemit, ?_⟩⟩
  intro k hk first hstatus
  have hticking₁ : c₁.bench.moment.Ticking :=
    hmoves.keep (P := fun c => c.bench.moment.Ticking) (fun _ hm => hm.ticking) hticking
  have htiled₁ : c₁.bench.Tiled pins.pins.length :=
    hmoves.keep (P := fun c => c.bench.Tiled pins.pins.length) (fun _ hm => hm.tiled) h.tiled
  exact ⟨(hticking₁.ahead k hk).next first hstatus, toggled_of_emit htiled₁ hticking₁ hemit hk hstatus⟩

/-- A clock with six cycles between its edges that is started, runs for eight
cycles and has its next edge after the twelfth. Starting it where there is no
pin fails and changes nothing of that. -/
def tickingProgram : List Operation :=
  [.setTimeset "tp" (some ⟨40000⟩), .enableClock "clk" (.ofMegahertz 2), .startClock "clk", .hold (some 8) none,
    .startClock "missing"]

def dataAndClock : Pinout := ⟨[⟨"data", .compare1, 1⟩, ⟨"clk", .dontCare, 0⟩]⟩

def tickingClock : Sequencer := (Operation.performAll tickingProgram (new "ticking" dataAndClock (.standard .v93k))).2

/-- Fourteen more cycles have the edges at 12 and 18, and the clock goes on to
the one at 24. -/
theorem ticking_toggles :
    Reachable "ticking" dataAndClock (.standard .v93k) tickingClock ∧
      tickingClock.emit 14 none none = (.ok (), (tickingClock.emit 14 none none).2) ∧
      ∃ k ∈ tickingClock.clocks.clocks, k.pin = 1 ∧ k.half = 6 ∧ k.status = .running 12 ∧ tickingClock.cycle < 12 ∧
        Bench.Toggled k 12 [12, 18] tickingClock.bench (tickingClock.emit 14 none none).2.bench := by
  have hreach : Reachable "ticking" dataAndClock (.standard .v93k) tickingClock := .performAll tickingProgram
  have hok : tickingClock.emit 14 none none = (.ok (), (tickingClock.emit 14 none none).2) :=
    Prod.ext (by decide +kernel) (by dsimp only)
  have hk : (⟨1, .ofMegahertz 2, 6, .running 12⟩ : Clock) ∈ tickingClock.clocks.clocks := by decide +kernel
  have hedges : Slice.togglings 1 tickingClock.cycle (tickingClock.emittedSlices 14) = [12, 18] := by decide +kernel
  obtain ⟨-, hemissions⟩ := running_never_silent hreach
  obtain ⟨-, hclocks⟩ := hemissions tickingClock _ 14 none none .refl hok
  obtain ⟨hlt, htoggled⟩ := hclocks _ hk 12 rfl
  rw [hedges] at htoggled
  exact ⟨hreach, hok, ⟨1, .ofMegahertz 2, 6, .running 12⟩, hk, rfl, rfl, rfl, hlt, htoggled⟩

end Sequencer

end TestProgram
