import Keyscan.Chip.Pins
import Keyscan.Event

namespace Keyscan

structure Reaction where
  chip : Chip
  events : List Event := []

def Reaction.after (es : List Event) (r : Reaction) : Reaction := { r with events := es ++ r.events }

namespace Chip

/-- The pin of port B that is the light pen input; the fire button of joystick one is on it too. -/
def penLine : Fin 8 := ⟨4, by decide⟩

def sampleB (c : Chip) (i : Inputs) (value : Byte) : Reaction where
  chip := { c with portB.sampled := value }
  events :=
    if penLine ∈ c.portB.sampled ^^^ value then [.penEdge ⟨penLine ∉ value, i.clock⟩] else []

def checkPen (c : Chip) (i : Inputs) : Reaction := c.sampleB i (c.pinsB i)

def peek (c : Chip) (i : Inputs) : Register → Byte
  | .pra => c.pinsA i
  | .prb => c.pinsB i
  | .ddra => c.portA.ddr
  | .ddrb => c.portB.ddr

def read (c : Chip) (i : Inputs) : Register → Reaction
  | .pra => .after [.flushAlarms] (checkPen { c with portA.sampled := c.pinsA i } i)
  | .prb => .after [.flushAlarms] (c.checkPen i)
  | .ddra | .ddrb => { chip := c, events := [.flushAlarms] }

/-- Follows a change of port A: its paddle selection is always passed on, and the rows it drives may
reach the light pen line. -/
def portAChanged (c : Chip) (i : Inputs) : Reaction :=
  let mask := paddleMask c.portA.level
  let note := if mask = c.paddles then [] else [.paddlesChanged c.paddles mask]
  .after (note ++ [.selectPaddles mask]) (checkPen { c with paddles := mask } i)

def write (c : Chip) (i : Inputs) (r : Register) (value : Byte) : Reaction :=
  .after [.flushAlarms, .wrote r value] <|
    match r with
    | .pra => portAChanged { c with portA.data := value } i
    | .prb => checkPen { c with portB.data := value } i
    | .ddra => portAChanged { c with portA.ddr := value } i
    | .ddrb => checkPen { c with portB.ddr := value } i

def peekAt (c : Chip) (i : Inputs) (o : BitVec 16) : Byte :=
  match Register.ofOffset? o with
  | some r => c.peek i r
  | none => 0xFF

def readAt (c : Chip) (i : Inputs) (o : BitVec 16) : Reaction :=
  match Register.ofOffset? o with
  | some r => c.read i r
  | none => { chip := c }

def writeAt (c : Chip) (i : Inputs) (o : BitVec 16) (value : Byte) : Reaction :=
  match Register.ofOffset? o with
  | some r => c.write i r value
  | none => { chip := c }

/-- Samples survive a reset, so only an edge that the reset causes is told. -/
def reset (c : Chip) (i : Inputs) : Reaction :=
  portAChanged { c with portA := c.portA.reset, portB := c.portB.reset, alarm := false } i

end Chip

end Keyscan
