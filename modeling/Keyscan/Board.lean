import Keyscan.Chip.Action

namespace Keyscan

structure Board where
  chip : Chip := {}
  inputs : Inputs := {}

namespace Board

/-- The clock is set from a float, which is cut to a whole number and held in range. -/
inductive Action
  | input (c : Inputs.Change)
  | clock (t : Float)
  | read (offset : BitVec 16)
  | write (offset : BitVec 16) (value : Byte)
  | reset
  | load (bytes : List Byte)

def react (b : Board) (r : Reaction) : Board := { b with chip := r.chip }

/-- A key off the matrix is ignored, and then nothing is looked at either. -/
def change (b : Board) (c : Inputs.Change) : Board :=
  match b.inputs.change c with
  | .ok i => { chip := (b.chip.checkPen i).chip, inputs := i }
  | .error _ => b

def perform (b : Board) : Action → Answer × Board
  | .input c => (.done, b.change c)
  | .clock t => (.done, { b with inputs.clock := t.toUInt64 })
  | .read o => (.byte (b.chip.peekAt b.inputs o), b.react (b.chip.readAt b.inputs o))
  | .write o v => (.done, b.react (b.chip.writeAt b.inputs o v))
  | .reset => (.done, b.react (b.chip.reset b.inputs))
  | .load bytes =>
    match b.chip.restore bytes with
    | .ok r => (.done, b.react r)
    | .error e => (.refused e, b)

end Board

end Keyscan
