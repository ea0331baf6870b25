import Keyscan.Keyboard.Packed

namespace Keyscan.Keyboard

variable {m m' : Keyboard}

/-- Ways to change a keyboard. Only `set` can be refused, and then nothing changes. -/
inductive Change
  | set (row col : Byte) (on : Bool)
  | releaseAll
  | shiftLock (on : Bool)
  | load (bits : BitVec 64)

def change (m : Keyboard) : Change → Except Fault Keyboard
  | .set row col on => m.setKey row col on
  | .releaseAll => .ok m.releaseAll
  | .shiftLock on => .ok (m.setShiftLock on)
  | .load bits => .ok (ofBits bits)

theorem Consistent.change {c : Change} (h : m.Consistent) (hc : m.change c = .ok m') :
    m'.Consistent := by
  cases c with
  | set row col on =>
    rw [Keyboard.change, setKey] at hc
    cases hk : Key.ofBytes row col with
    | error e => simp [hk, Except.map] at hc
    | ok k => simp only [hk, Except.map, Except.ok.injEq] at hc; exact hc ▸ h.set
  | releaseAll => cases hc; exact consistent_releaseAll
  | shiftLock on => cases hc; exact h.setShiftLock
  | load bits => cases hc; exact consistent_ofBits

end Keyscan.Keyboard
