import Keyscan.Joysticks
import Keyscan.Keyboard.Change
import Keyscan.Keyboard.Reach

namespace Keyscan

structure Inputs where
  keyboard : Keyboard := {}
  joysticks : Joysticks := {}
  clock : UInt64 := 0

namespace Inputs

inductive Change
  | keyboard : Keyboard.Change → Change
  | joysticks : Joysticks.Change → Change

def change (i : Inputs) : Change → Except Fault Inputs
  | .keyboard c => (i.keyboard.change c).map ({ i with keyboard := · })
  | .joysticks c => .ok { i with joysticks := i.joysticks.change c }

end Inputs

end Keyscan
