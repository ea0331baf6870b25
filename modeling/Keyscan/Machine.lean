import Keyscan.Event
import Keyscan.Inputs

namespace Keyscan

/-- What a monitored machine has heard: pen edges, oldest first, the last paddle selection and the
number of alarm flushes, however large it gets. -/
structure Monitor where
  penEdges : List PenEdge := []
  paddles : Byte := 0
  alarmFlushes : Nat := 0
  deriving DecidableEq

def Monitor.hear (m : Monitor) : Event → Monitor
  | .flushAlarms => { m with alarmFlushes := m.alarmFlushes + 1 }
  | .selectPaddles mask => { m with paddles := mask }
  | .penEdge e => { m with penEdges := m.penEdges ++ [e] }
  | _ => m

/-- A bare machine has no clock and hears nothing. -/
inductive Machine
  | monitored (inputs : Inputs) (monitor : Monitor)
  | bare (keyboard : Keyboard) (joysticks : Joysticks)

namespace Machine

def inputs : Machine → Inputs
  | monitored i _ => i
  | bare keyboard joysticks => { keyboard, joysticks }

def withInputs (i : Inputs) : Machine → Machine
  | monitored _ m => monitored i m
  | bare _ _ => bare i.keyboard i.joysticks

def monitor? : Machine → Option Monitor
  | monitored _ m => some m
  | bare _ _ => none

def hear (es : List Event) : Machine → Machine
  | monitored i m => monitored i (es.foldl .hear m)
  | bare keyboard joysticks => bare keyboard joysticks

end Machine

end Keyscan
