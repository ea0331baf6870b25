import Keyscan.Model
import Keyscan.Port

namespace Keyscan

def paddleMask (level : Byte) : Byte := (level >>> 6) &&& 3

/-- The port half of a chip. The alarm flag belongs to the timers and is only kept here. -/
structure Chip where
  model : Model := .mos6526
  portA : Port := {}
  portB : Port := {}
  paddles : Byte := paddleMask (Port.level {})
  alarm : Bool := false
  deriving DecidableEq

end Keyscan
