import Keyscan.Chip.Access
import Keyscan.Snapshot.Record

namespace Keyscan.Chip

open Snapshot

def registers (c : Chip) : RegisterBlock where
  pra := c.portA.data
  prb := c.portB.data
  ddra := c.portA.ddr
  ddrb := c.portB.ddr
  sampledA := c.portA.sampled
  sampledB := c.portB.sampled

def setRegisters (c : Chip) (b : RegisterBlock) : Chip :=
  { c with
    portA := { data := b.pra, ddr := b.ddra, sampled := b.sampledA }
    portB := { data := b.prb, ddr := b.ddrb, sampled := b.sampledB } }

def capture (c : Chip) : Record where
  version := .current
  model := c.model.selector
  outputBank := c.paddles
  alarm := c.alarm
  registers := some c.registers

def save (c : Chip) : List Byte := c.capture.encode

/-- The chip stays the model it is; a record of another one is only told. -/
def modelNotes (c : Chip) (selector : Byte) : List Event :=
  match Model.ofSelector? selector with
  | some m => if m = c.model then [] else [.modelDiffers m c.model]
  | none => [.modelUnknown selector c.model]

def apply (c : Chip) (r : Record) : Reaction :=
  let c' := { c with paddles := r.outputBank &&& 3, alarm := r.alarm }
  { chip := (r.registers.map c'.setRegisters).getD c'
    events := c.modelNotes r.model ++ [.selectPaddles c'.paddles] }

def restore (c : Chip) (bytes : List Byte) : Except Error Reaction :=
  (Record.decode bytes).map c.apply

end Keyscan.Chip
