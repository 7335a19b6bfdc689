import TestProgram.Text.Quoted
import TestProgram.Timing.Formula

/-!
# Faults

The conditions that end the generation of a pattern or a flow. Each is a
constructor that carries what is to blame; `Fault.message` words it.
-/

namespace TestProgram

/-- How messages name a token of a wave formula. -/
def FormulaToken.label : FormulaToken → String
  | .number x => "Number(" ++ Layout.data.text x ++ ")"
  | .name s => "Ident(" ++ Text.Quoted.visible s.toList ++ ")"
  | .plus => "Plus"
  | .minus => "Minus"
  | .star => "Star"
  | .slash => "Slash"
  | .opening => "LParen"
  | .closing => "RParen"

def FormulaFault.message : FormulaFault → String
  | .unexpectedCharacter c => "unexpected character " ++ Text.Quoted.visible [c]
  | .unexpectedToken token => "unexpected token " ++ token.label
  | .unknownVariable name =>
    "unknown variable '" ++ name ++ "' (only period and period_in_ns are allowed)"
  | .unclosed => "missing ')'"
  | .unexpectedEnd => "unexpected end of formula"
  | .trailingInput => "unexpected trailing input"
  | .notFinite => "result is not a finite number"

/-- Why a pattern cannot be written for a platform. -/
inductive RenderFault where
  /-- A vector cannot be timed: its timeset has no period. -/
  | noPeriod (timeset : String)
  | repeatTooLong (count limit : Nat)
  /-- A vector ends inside a vector group. -/
  | brokenGroup (count cycle group : Nat)
  deriving DecidableEq

def RenderFault.message : RenderFault → String
  | .noPeriod timeset => "timeset '" ++ timeset ++ "' has no period"
  | .repeatTooLong count limit => s!"repeat {count} exceeds the limit of {limit}"
  | .brokenGroup count cycle group =>
    s!"repeat {count} at cycle {cycle} is not a multiple of vector group size {group}"

/-- Why a pattern or a flow cannot be generated. -/
inductive Fault where
  /-- An operation needs the period of a timeset and there is none. -/
  | noActiveTimeset (operation : String)
  | unknownTimeset (name : String)
  | zeroPeriod (timeset : String)
  | invalidRepeat (count : Nat)
  | invalidFormula (text : String) (cause : FormulaFault)
  | unknownPin (name : String)
  | duplicatePin (name : String)
  | clockNotEnabled (pin : String)
  | clockNotRunning (pin : String)
  | clockNotPaused (pin : String)
  | invalidFrequency (pin : String) (hertz : Float)
  /-- A store mark reaches back beyond the first vector. -/
  | storeOffset (offset available : Nat)
  | invalidGroupSize (size : Nat)
  /-- A clock would toggle inside vector groups. -/
  | clockGroupMismatch (pin : String) (halfPeriod group : Nat)
  | clockInsideGroup (cycle group : Nat)
  /-- A flow line has both kinds of job gates. -/
  | jobConflict (line : String)
  | duplicateName (sheet name : String)
  | unresolvedReference (line target : String)
  | tooManyConditions (line : String)
  | unrenderable (platform : String) (cause : RenderFault)
  deriving DecidableEq

def Fault.message : Fault → String
  | .noActiveTimeset operation =>
    "no active timeset: " ++ operation ++ " needs a timeset with a period"
  | .unknownTimeset name => "timeset '" ++ name ++ "' has not been defined"
  | .zeroPeriod timeset => "timeset '" ++ timeset ++ "' must have a non-zero period"
  | .invalidRepeat count => s!"repeat count must be at least 1, got {count}"
  | .invalidFormula text cause => "invalid wave formula '" ++ text ++ "': " ++ cause.message
  | .unknownPin name => "pin '" ++ name ++ "' has not been defined"
  | .duplicatePin name => "pin '" ++ name ++ "' is already defined"
  | .clockNotEnabled pin =>
    "clock on pin '" ++ pin ++ "' must be enabled before it is started or resumed"
  | .clockNotRunning pin => "clock on pin '" ++ pin ++ "' is not running"
  | .clockNotPaused pin => "clock on pin '" ++ pin ++ "' is not paused"
  | .invalidFrequency pin hertz =>
    "invalid clock frequency " ++ Layout.plain.text hertz ++ "Hz for pin '" ++ pin ++ "'"
  | .storeOffset offset available =>
    s!"store offset {offset} is out of range: only {available} vectors have been emitted"
  | .invalidGroupSize size => s!"vector group size must be at least 1, got {size}"
  | .clockGroupMismatch pin halfPeriod group =>
    s!"clock on pin '{pin}' toggles every {halfPeriod} cycles, "
      ++ s!"which is not a multiple of vector group size {group}"
  | .clockInsideGroup cycle group =>
    s!"clock edge at cycle {cycle} falls inside a vector group of size {group}"
  | .jobConflict line =>
    "both if_job and unless_job have been defined for flow line '" ++ line ++ "'"
  | .duplicateName sheet name =>
    "duplicate name '" ++ name ++ "' generated in sheet '" ++ sheet ++ "'"
  | .unresolvedReference line target =>
    s!"flow line '{line}' references '{target}', which is not defined earlier in the flow"
  | .tooManyConditions line =>
    "flow line '" ++ line ++ "' has more than two pass/fail/ran conditions"
  | .unrenderable platform cause => platform ++ " cannot render this pattern: " ++ cause.message

/-- A computation in two steps gives a result if both do. -/
theorem bind_eq_ok {α β ε : Type} {x : Except ε α} {f : α → Except ε β} {b : β} :
    x >>= f = .ok b ↔ ∃ a, x = .ok a ∧ f a = .ok b := by
  cases x with
  | error e => exact ⟨nofun, fun ⟨_, h, _⟩ => nomatch h⟩
  | ok a => exact ⟨fun h => ⟨a, rfl, h⟩, fun ⟨_, h, hf⟩ => by obtain rfl := Except.ok.inj h; exact hf⟩

/-- Where a state is changed step by step, and nothing takes back what was done before a fault, the second part begins
in the state that the first one leaves, if that one does not fail. -/
theorem run_bind {State α β : Type} (x : ExceptT Fault (StateM State) α) (f : α → ExceptT Fault (StateM State) β)
    (s : State) : (x >>= f).run.run s = match x.run.run s with
      | (.ok a, s') => (f a).run.run s'
      | (.error e, s') => (.error e, s') := by
  have hbind : (x >>= f).run.run s = match x.run.run s with
      | (r, s') => (ExceptT.bindCont f r).run s' := rfl
  rw [hbind]
  obtain ⟨r, s'⟩ := x.run.run s
  cases r <;> rfl

theorem run_get {State : Type} (s : State) : (get : ExceptT Fault (StateM State) State).run.run s = (.ok s, s) := rfl

theorem run_modify {State : Type} (f : State → State) (s : State) :
    (modify f : ExceptT Fault (StateM State) Unit).run.run s = (.ok (), f s) := rfl

/-- Either all computations of a list give a result, or the first fault among
them is that of the list. -/
theorem mapM_cases {α β ε : Type} (f : α → Except ε β) : ∀ xs : List α,
    (∃ ys, xs.mapM f = .ok ys ∧ ∀ x ∈ xs, ∃ y, f x = .ok y) ∨ ∃ x ∈ xs, ∃ e, f x = .error e ∧ xs.mapM f = .error e
  | [] => .inl ⟨[], rfl, List.forall_mem_nil _⟩
  | x :: xs => by
    rw [List.mapM_cons]
    cases hx : f x with
    | error e => exact .inr ⟨x, List.mem_cons_self, e, hx, rfl⟩
    | ok y =>
      rcases mapM_cases f xs with ⟨ys, hys, hall⟩ | ⟨x', hx', e, he, hxs⟩
      · refine .inl ⟨y :: ys, ?_, List.forall_mem_cons.mpr ⟨⟨y, hx⟩, hall⟩⟩
        rw [hys]
        rfl
      · refine .inr ⟨x', List.mem_cons_of_mem x hx', e, he, ?_⟩
        rw [hxs]
        rfl

end TestProgram
