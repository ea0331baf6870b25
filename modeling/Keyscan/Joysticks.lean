import Keyscan.Byte

namespace Keyscan

structure Joystick where
  pressed : Byte := 0
  deriving DecidableEq

namespace Joystick

def up : Byte := 0x01
def down : Byte := 0x02
def left : Byte := 0x04
def right : Byte := 0x08
def fire : Byte := 0x10

def hold (state : Byte) : Joystick := ⟨state &&& 0x1F⟩

def pins (j : Joystick) : Byte := ~~~j.pressed ||| 0xE0

end Joystick

inductive Socket
  | one | two
  deriving DecidableEq

namespace Socket

def ofByte? (b : Byte) : Option Socket :=
  if b = 1 then some .one else if b = 2 then some .two else none

def other : Socket → Socket
  | one => two
  | two => one

@[simp] theorem other_other (s : Socket) : s.other.other = s := by cases s <;> rfl

end Socket

/-- Socket one is wired to port B, socket two to port A. The keyboard is cut off while an adapter
takes its place. -/
structure Joysticks where
  one : Joystick := {}
  two : Joystick := {}
  swapped : Bool := false
  keyboardOn : Bool := true
  deriving DecidableEq

namespace Joysticks

def stick (j : Joysticks) : Socket → Joystick
  | .one => j.one
  | .two => j.two

def plug (j : Joysticks) (k : Joystick) : Socket → Joysticks
  | .one => { j with one := k }
  | .two => { j with two := k }

@[simp] theorem stick_plug (j : Joysticks) (k : Joystick) (s : Socket) :
    (j.plug k s).stick s = k := by cases s <;> rfl

@[simp] theorem stick_plug_other (j : Joysticks) (k : Joystick) (s : Socket) :
    (j.plug k s).stick s.other = j.stick s.other := by cases s <;> rfl

def route (j : Joysticks) (port : Byte) : Option Socket :=
  (Socket.ofByte? port).map fun s => if j.swapped then s.other else s

def set (j : Joysticks) (port state : Byte) : Joysticks :=
  match j.route port with
  | some s => j.plug (.hold state) s
  | none => j

def releaseAll (j : Joysticks) : Joysticks := { j with one := {}, two := {} }

def pins (j : Joysticks) (port : Byte) : Byte :=
  match Socket.ofByte? port with
  | some s => (j.stick s).pins
  | none => 0xFF

inductive Change
  | set (port state : Byte)
  | swap (on : Bool)
  | keyboard (on : Bool)
  | releaseAll

def change (j : Joysticks) : Change → Joysticks
  | .set port state => j.set port state
  | .swap on => { j with swapped := on }
  | .keyboard on => { j with keyboardOn := on }
  | .releaseAll => j.releaseAll

end Joysticks

end Keyscan
