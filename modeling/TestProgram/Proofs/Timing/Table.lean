import TestProgram.Proofs.Timing.Consistency

/-!
# Tables of timesets

A table keeps the positions of names in a hash map, and is changed in place, one part after the other. Its changes are
the operations on timings, and a change that fails has not begun (`TimesetTable.Answers`): the hash map stays an index
of the names (`TimesetTable.Indexed`).

`TimesetTable.consistent_after` is about all that can be done with a table, where positions that were saved are
restored later on, in any order and any number of times.
-/

namespace TestProgram

/-- The timesets in order of first mention, the positions of their names, and the active position. -/
structure TimesetTable where
  sets : List Timeset
  index : Std.HashMap String Nat
  active : Option Nat

namespace TimesetTable

def empty : TimesetTable := ⟨[], ∅, none⟩

def timing (r : TimesetTable) : Timing := ⟨r.sets, r.active⟩

def get? (r : TimesetTable) (name : String) : Option Timeset := r.index[name]?.bind fun i => r.sets[i]?

/-! ## Changes -/

abbrev Change := ExceptT Fault (StateM TimesetTable)

/-- The position of the timeset of this name, which is added if there is none. -/
def define (name : String) : Change Nat := do
  let r ← get
  match r.index[name]? with
  | some i => pure i
  | none =>
    let i := r.sets.length
    modify fun r => { r with sets := r.sets ++ [⟨name, none, []⟩] }
    modify fun r => { r with index := r.index.insert name i }
    pure i

def modifySet (i : Nat) (f : Timeset → Timeset) : Change Unit := modify fun r => { r with sets := r.sets.modify i f }

def setTimeset (name : String) (period : Option Duration) : Change Unit := do
  if (period.map Duration.isZero).getD false then throw (.zeroPeriod name)
  let inherited := (← get).timing.currentPeriod?
  let i ← define name
  match period with
  | some p => modifySet i fun s => { s with period := some p }
  | none => modifySet i fun s => if s.period.isNone then { s with period := inherited } else s
  modify fun r => { r with active := some i }

def addWave (name : String) (w : Wave) : Change Unit := do
  discard <| ofExcept (edgeTime? Timing.trialPeriod w.drive)
  discard <| ofExcept (edgeTime? Timing.trialPeriod w.compare)
  let i ← define name
  modifySet i fun s => { s with waves := s.waves.filter fun v => v.pin ≠ w.pin }
  modifySet i fun s => { s with waves := s.waves ++ [w] }

/-- The hash map has the positions of the names. -/
def Indexed (r : TimesetTable) : Prop := ∀ name, r.index[name]? = r.timing.index? name

/-- What a change does to a table: what the operation does to its timing, and nothing if that fails. -/
inductive Answers (r : TimesetTable) : Except Fault Timing → Except Fault Unit × TimesetTable → Prop
  | done {r' : TimesetTable} (h : r'.Indexed) : Answers r (.ok r'.timing) (.ok (), r')
  | refused (e : Fault) : Answers r (.error e) (.error e, r)

end TimesetTable

namespace Timing

theorem index?_eq (t : Timing) (name : String) : t.index? name = t.names.findIdx? (· == name) := by
  rw [names, List.findIdx?_map]
  rfl

theorem get?_eq (t : Timing) (name : String) : t.get? name = (t.index? name).bind fun i => t.sets[i]? :=
  List.find?_eq_bind_findIdx?_getElem?

end Timing

namespace TimesetTable

variable {r : TimesetTable}

theorem indexed_empty : empty.Indexed := fun _ => Std.HashMap.getElem?_empty

theorem Indexed.get? (h : r.Indexed) (name : String) : r.get? name = r.timing.get? name := by
  rw [TimesetTable.get?, h name, Timing.get?_eq]
  rfl

theorem Indexed.of_names {r' : TimesetTable} (h : r.Indexed) (hindex : r'.index = r.index)
    (hnames : r'.timing.names = r.timing.names) : r'.Indexed := by
  intro name
  rw [hindex, h name, Timing.index?_eq, Timing.index?_eq, hnames]

/-- A name that is new goes to the end. -/
theorem Indexed.append (h : r.Indexed) {name : String} (hnew : r.index[name]? = none) :
    Indexed ⟨r.sets ++ [⟨name, none, []⟩], r.index.insert name r.sets.length, r.active⟩ := by
  intro other
  have hindex : Timing.index? ⟨r.sets ++ [⟨name, none, []⟩], r.active⟩ other =
      (r.timing.index? other).or (([name].findIdx? (· == other)).map (· + r.sets.length)) := by
    rw [Timing.index?_eq, Timing.index?_eq, Timing.names, List.map_append, List.findIdx?_append, List.length_map]
    rfl
  rw [h name] at hnew
  rw [timing, hindex, Std.HashMap.getElem?_insert, h other, List.findIdx?_singleton]
  by_cases heq : name = other
  · subst heq
    rw [hnew, beq_self_eq_true, if_pos rfl, if_pos rfl, Option.map_some, Nat.zero_add, Option.none_or]
  · have hne : ¬(name == other) = true := by rwa [beq_iff_eq]
    rw [if_neg hne, if_neg hne, Option.map_none, Option.or_none]

theorem define_spec (h : r.Indexed) (name : String) : ∃ r' : TimesetTable,
    (define name).run.run r = (.ok (r.timing.mention name).1, r') ∧ r'.Indexed ∧
      r'.timing = (r.timing.mention name).2 := by
  unfold define Timing.mention
  rw [run_bind, run_get]
  dsimp only
  cases hname : r.index[name]? with
  | some i =>
    rw [← h name, hname]
    exact ⟨r, rfl, h, rfl⟩
  | none =>
    have hnew := h.append hname
    rw [← h name, hname]
    exact ⟨_, rfl, hnew, rfl⟩

/-- A timeset that keeps its name keeps its position. -/
theorem Indexed.modifySet (h : r.Indexed) (i : Nat) {f : Timeset → Timeset} (hf : ∀ s, (f s).name = s.name)
    (active : Option Nat) : Indexed ⟨r.sets.modify i f, r.index, active⟩ :=
  h.of_names rfl (Timing.names_modify r.sets i hf)

theorem setTimeset_answers (h : r.Indexed) (name : String) (period : Option Duration) :
    r.Answers (r.timing.select name period) ((setTimeset name period).run.run r) := by
  unfold setTimeset Timing.select
  by_cases hzero : (period.map Duration.isZero).getD false = true
  · rw [if_pos hzero, if_pos hzero]
    exact .refused _
  · rw [if_neg hzero, if_neg hzero]
    obtain ⟨r', hdefine, hindexed, htiming⟩ := define_spec h name
    rw [run_bind, run_get]
    dsimp only
    rw [run_bind, hdefine, ← htiming]
    cases period with
    | some p =>
      have hdone := hindexed.modifySet (r.timing.mention name).1 (f := fun s => { s with period := some p })
        (fun _ => rfl) (some (r.timing.mention name).1)
      exact .done hdone
    | none =>
      have hkeep : (fun s : Timeset => { s with period := (none.or s.period).or r.timing.currentPeriod? }) =
          fun s => if s.period.isNone then { s with period := r.timing.currentPeriod? } else s := by
        funext ⟨_, own, _⟩
        cases own <;> rfl
      have hdone := hindexed.modifySet (r.timing.mention name).1
        (f := fun s => if s.period.isNone then { s with period := r.timing.currentPeriod? } else s)
        (fun s => by split <;> rfl) (some (r.timing.mention name).1)
      rw [hkeep]
      exact .done hdone

/-- A wave is added when the one before it is gone. -/
theorem modify_modify_wave (sets : List Timeset) (i : Nat) (w : Wave) :
    ((sets.modify i fun s => { s with waves := s.waves.filter fun v => v.pin ≠ w.pin }).modify i fun s =>
      { s with waves := s.waves ++ [w] }) = sets.modify i fun s => s.withWave w := by
  rw [List.modify_modify_eq]
  rfl

theorem addWave_answers (h : r.Indexed) (name : String) (w : Wave) :
    r.Answers (r.timing.addWave name w) ((addWave name w).run.run r) := by
  unfold addWave Timing.addWave
  rw [run_bind]
  cases edgeTime? Timing.trialPeriod w.drive with
  | error e => exact .refused e
  | ok drive =>
    have hdrive : (discard (ofExcept (Except.ok drive)) : Change Unit).run.run r = (.ok (), r) := rfl
    rw [hdrive]
    dsimp only
    rw [run_bind]
    cases edgeTime? Timing.trialPeriod w.compare with
    | error e => exact .refused e
    | ok compare =>
      have hcompare : (discard (ofExcept (Except.ok compare)) : Change Unit).run.run r = (.ok (), r) := rfl
      obtain ⟨r', hdefine, hindexed, htiming⟩ := define_spec h name
      have hdone := hindexed.modifySet (r.timing.mention name).1 (f := fun s => s.withWave w) (fun _ => rfl) r'.active
      rw [hcompare]
      dsimp only
      rw [run_bind, hdefine, ← htiming]
      show r.Answers (.ok ⟨r'.sets.modify _ fun s => s.withWave w, r'.active⟩) (.ok (), ⟨_, r'.index, r'.active⟩)
      rw [← modify_modify_wave] at hdone ⊢
      exact .done hdone

/-! ## Operations -/

/-- What can be done with a table. The position to be restored is one of those that were saved. -/
inductive Operation where
  | setTimeset (name : String) (period : Option Duration)
  | addWave (name : String) (w : Wave)
  | save
  | restore (k : Nat)

/-- A table, and the positions that were saved. -/
structure Session where
  table : TimesetTable
  saved : List (Option Nat)

namespace Session

def carryOut (s : Session) (change : Change Unit) : Except Fault Unit × Session :=
  ((change.run.run s.table).1, { s with table := (change.run.run s.table).2 })

def perform (s : Session) : Operation → Except Fault Unit × Session
  | .setTimeset name period => s.carryOut (setTimeset name period)
  | .addWave name w => s.carryOut (addWave name w)
  | .save => (.ok (), { s with saved := s.saved ++ [s.table.active] })
  | .restore k => match s.saved[k]? with
    | some active => (.ok (), { s with table := { s.table with active } })
    | none => (.ok (), s)

/-- The operation on timings. -/
def outcome (s : Session) : Operation → Except Fault Timing
  | .setTimeset name period => s.table.timing.select name period
  | .addWave name w => s.table.timing.addWave name w
  | .save => .ok s.table.timing
  | .restore k => .ok ((s.saved[k]?.map s.table.timing.restore).getD s.table.timing)

/-- The session after some operations, whether they fail or not. -/
def runAll (s : Session) (ops : List Operation) : Session := ops.foldl (fun s op => (s.perform op).2) s

/-- The hash map is an index of a consistent timing, and what was saved is a position of a timeset, or none. -/
structure Sound (s : Session) : Prop where
  indexed : s.table.Indexed
  consistent : s.table.timing.Consistent
  saved : ∀ active ∈ s.saved, ∀ i ∈ active, i < s.table.sets.length

variable {s : Session}

theorem perform_answers (h : s.table.Indexed) (op : Operation) :
    s.table.Answers (s.outcome op) ((s.perform op).1, (s.perform op).2.table) := by
  cases op with
  | setTimeset name period => exact setTimeset_answers h name period
  | addWave name w => exact addWave_answers h name w
  | save => exact .done h
  | restore k =>
    unfold outcome perform
    dsimp only
    cases s.saved[k]? with
    | none => exact .done h
    | some active =>
      have hindexed : Indexed { s.table with active } := h.of_names rfl rfl
      exact .done hindexed

/-- A change that is an operation on timings keeps a session sound if the operation keeps timings consistent. -/
theorem carryOut_spec (h : s.Sound) {change : Change Unit} {outcome : Except Fault Timing}
    (hanswers : s.table.Answers outcome (change.run.run s.table))
    (hoperation : ∀ t', outcome = .ok t' → t'.Consistent ∧ s.table.timing.Grows t') :
    (s.carryOut change).2.Sound ∧ s.table.timing.Grows (s.carryOut change).2.table.timing ∧
      ∀ e, (s.carryOut change).1 = .error e → (s.carryOut change).2 = s := by
  unfold carryOut
  generalize change.run.run s.table = result at hanswers
  cases hanswers with
  | refused e => exact ⟨h, .refl _, fun _ _ => rfl⟩
  | done hindexed =>
    obtain ⟨hconsistent, hgrows⟩ := hoperation _ rfl
    refine ⟨⟨hindexed, hconsistent, fun active hmem i hi => ?_⟩, hgrows, nofun⟩
    have hlength := hgrows.names.length_le
    rw [Timing.length_names, Timing.length_names] at hlength
    exact Nat.lt_of_lt_of_le (h.saved active hmem i hi) hlength

theorem perform_spec (h : s.Sound) (op : Operation) :
    (s.perform op).2.Sound ∧ s.table.timing.Grows (s.perform op).2.table.timing ∧
      ∀ e, (s.perform op).1 = .error e → (s.perform op).2 = s := by
  cases op with
  | setTimeset name period =>
    exact carryOut_spec h (setTimeset_answers h.indexed name period) fun t' ht' =>
      ⟨h.consistent.select ht', Timing.grows_select ht'⟩
  | addWave name w =>
    exact carryOut_spec h (addWave_answers h.indexed name w) fun t' ht' =>
      ⟨h.consistent.addWave ht', Timing.grows_addWave ht'⟩
  | save =>
    refine ⟨⟨h.indexed, h.consistent, ?_⟩, .refl _, nofun⟩
    exact List.forall_mem_append.mpr ⟨h.saved, List.forall_mem_singleton.mpr h.consistent.active⟩
  | restore k =>
    unfold perform
    dsimp only
    split
    · rename_i active hk
      have hactive := h.saved active (List.mem_of_getElem? hk)
      exact ⟨⟨h.indexed.of_names rfl rfl, h.consistent.restore hactive, h.saved⟩,
        s.table.timing.grows_restore hactive, nofun⟩
    · exact ⟨h, .refl _, nofun⟩

theorem runAll_spec (h : s.Sound) (ops : List Operation) :
    (s.runAll ops).Sound ∧ s.table.timing.Grows (s.runAll ops).table.timing := by
  induction ops generalizing s with
  | nil => exact ⟨h, .refl _⟩
  | cons op ops ih =>
    obtain ⟨hsound, hgrows, -⟩ := perform_spec h op
    obtain ⟨hafter, hlater⟩ := ih hsound
    exact ⟨hafter, hgrows.trans hlater⟩

end Session

/-- The session after some operations on an empty table. -/
def after (ops : List Operation) : Session := Session.runAll ⟨empty, []⟩ ops

theorem sound_empty : Session.Sound ⟨empty, []⟩ := ⟨indexed_empty, Timing.consistent_empty, List.forall_mem_nil _⟩

theorem sound_after (ops : List Operation) : (after ops).Sound := (Session.runAll_spec sound_empty ops).1

/-! ## Consistency -/

structure Consistent (r : TimesetTable) : Prop where
  names : (r.sets.map Timeset.name).Nodup
  /-- A name has the position of its own timeset, and only that. -/
  index : ∀ (name : String) (i : Nat), r.index[name]? = some i ↔ ∃ s, r.sets[i]? = some s ∧ s.name = name
  get : ∀ s ∈ r.sets, r.get? s.name = some s
  active : ∀ i ∈ r.active, i < r.sets.length
  periods : ∀ s ∈ r.sets, ∀ p ∈ s.period, 0 < p.picoseconds
  waves : ∀ s ∈ r.sets, (s.waves.map Wave.pin).Nodup

theorem Session.Sound.table_consistent {s : Session} (h : s.Sound) : s.table.Consistent where
  names := h.consistent.names
  index name i := by
    rw [h.indexed name]
    exact Timing.index?_eq_some_iff h.consistent.names
  get q hq := by
    rw [h.indexed.get?]
    exact Timing.get?_of_mem s.table.active h.consistent.names hq
  active := h.consistent.active
  periods q hq := (h.consistent.sets q hq).period
  waves q hq := (h.consistent.sets q hq).waves

/-- Whatever was done with a table, it is consistent, it does what the operations on timings do, what fails leaves it as
it is, periods that are set stay so, and cycles can be counted if there is an active period. -/
theorem consistent_after (ops : List Operation) :
    (after ops).table.Consistent ∧
      (∀ op : Operation, (after ops).table.Answers ((after ops).outcome op)
        (((after ops).perform op).1, ((after ops).perform op).2.table)) ∧
      (∀ (op : Operation) (e : Fault), ((after ops).perform op).1 = .error e →
        ((after ops).perform op).2 = after ops) ∧
      (∀ (more : List Operation) (i : Nat) (s : Timeset), (after ops).table.sets[i]? = some s → s.period.isSome →
        ∃ s', (after (ops ++ more)).table.sets[i]? = some s' ∧ s'.name = s.name ∧ s'.period.isSome) ∧
      ∀ (d : Duration) (rounding : Rounding),
        (after ops).table.timing.Measures d rounding ((after ops).table.timing.cyclesFor d rounding) := by
  have hsound := sound_after ops
  refine ⟨hsound.table_consistent, Session.perform_answers hsound.indexed,
    fun op => (Session.perform_spec hsound op).2.2, fun more i s hs hperiod => ?_, hsound.consistent.cyclesFor⟩
  have hgrows := (Session.runAll_spec hsound more).2
  have hafter : after (ops ++ more) = (after ops).runAll more := List.foldl_append
  rw [hafter]
  exact hgrows.period hsound.consistent.names hs hperiod

end TimesetTable

end TestProgram
