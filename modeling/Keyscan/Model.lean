import Keyscan.Byte

namespace Keyscan

/-- Revisions of the chip. They differ in name alone; a snapshot tells which one it was taken from. -/
inductive Model
  | mos6526 | mos8521
  deriving DecidableEq

namespace Model

def selector : Model → Byte
  | mos6526 => 0
  | mos8521 => 1

def ofSelector? (b : Byte) : Option Model :=
  if b = 0 then some mos6526 else if b = 1 then some mos8521 else none

@[simp] theorem ofSelector?_selector (m : Model) : ofSelector? m.selector = some m := by
  cases m <;> rfl

def name : Model → String
  | mos6526 => "Mos6526"
  | mos8521 => "Mos8521"

end Model

end Keyscan
