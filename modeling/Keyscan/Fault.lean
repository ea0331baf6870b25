import Keyscan.Byte

namespace Keyscan

/-- Refused operands: a key position or a line index that lies off the eight by eight matrix. -/
inductive Fault
  | position (row col : Byte) | line (index : Byte)
  deriving DecidableEq

def Fault.message? : Fault → Option String
  | .position _ _ => some "Matrix position out of range"
  | .line _ => none

end Keyscan
