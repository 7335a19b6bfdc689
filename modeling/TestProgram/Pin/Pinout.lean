import TestProgram.Fault
import TestProgram.Pin.State

/-!
# The pinout

The declared pins of a pattern in order of declaration, each with its present
state. A pin is addressed by its position, which is also its column in every
vector (`Pinout.snapshot`). Pins can be masked, any number of times over:
while a mask is on, comparisons on the pin show as don't-care.
-/

namespace TestProgram

/-- A pin's position in the pinout. -/
abbrev PinId := Nat

structure Pin where
  name : String
  state : PinState
  /-- How many masks are on the pin. -/
  masks : Nat
  deriving DecidableEq, Repr

/-- What a vector shows of a pin. -/
def Pin.shown (p : Pin) : PinState := if p.masks = 0 then p.state else p.state.masked

structure Pinout where
  pins : List Pin
  deriving DecidableEq, Repr

namespace Pinout

def empty : Pinout := ⟨[]⟩

def names (p : Pinout) : List String := p.pins.map Pin.name

def id? (p : Pinout) (name : String) : Option PinId := p.pins.findIdx? fun q => q.name == name

/-- The position of a declared pin. -/
def id (p : Pinout) (name : String) : Except Fault PinId :=
  match p.id? name with
  | some i => .ok i
  | none => .error (.unknownPin name)

/-- Declares a pin, at first without a state to drive or compare. -/
def add (p : Pinout) (name : String) : Except Fault (PinId × Pinout) :=
  match p.id? name with
  | some _ => .error (.duplicatePin name)
  | none => .ok (p.pins.length, ⟨p.pins ++ [⟨name, .dontCare, 0⟩]⟩)

def name (p : Pinout) (i : PinId) : String := (p.pins[i]?.map Pin.name).getD ""

def state (p : Pinout) (i : PinId) : PinState := (p.pins[i]?.map Pin.state).getD .dontCare

def masks (p : Pinout) (i : PinId) : Nat := (p.pins[i]?.map Pin.masks).getD 0

def set (p : Pinout) (i : PinId) (s : PinState) : Pinout :=
  ⟨p.pins.modify i fun q => { q with state := s }⟩

def toggle (p : Pinout) (i : PinId) : Pinout :=
  ⟨p.pins.modify i fun q => { q with state := q.state.toggled }⟩

/-- Puts one more mask on a pin. -/
def mask (p : Pinout) (i : PinId) : Pinout :=
  ⟨p.pins.modify i fun q => { q with masks := q.masks + 1 }⟩

/-- Takes one mask off a pin. -/
def unmask (p : Pinout) (i : PinId) : Pinout :=
  ⟨p.pins.modify i fun q => { q with masks := q.masks - 1 }⟩

/-- The present vector, masked pins without their comparisons. -/
def snapshot (p : Pinout) : List PinState := p.pins.map Pin.shown

/-- The pins of a list of names. -/
def ids (p : Pinout) : List String → Except Fault (List PinId)
  | [] => .ok []
  | name :: names => do
    let i ← p.id name
    let is ← p.ids names
    pure (i :: is)

end Pinout

end TestProgram
