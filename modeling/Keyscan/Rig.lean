import Keyscan.Chip.Action
import Keyscan.Machine

namespace Keyscan

structure Rig where
  chip : Chip := {}
  machine : Machine := .monitored {} {}

namespace Rig

inductive Action
  | chip : Chip.Action → Action
  | input : Inputs.Change → Action
  | clock : UInt64 → Action

/-- Answer, events and rig after an action. An input change alone does not reach the chip. -/
def perform (r : Rig) : Action → Answer × List Event × Rig
  | .chip a =>
    let (answer, reaction) := r.chip.perform r.machine.inputs a
    (answer, reaction.events, ⟨reaction.chip, r.machine.hear reaction.events⟩)
  | .input c =>
    match r.machine.inputs.change c with
    | .ok i => (.done, [], { r with machine := r.machine.withInputs i })
    | .error e => (.fault e, [], r)
  | .clock t =>
    (.done, [], { r with machine := r.machine.withInputs { r.machine.inputs with clock := t } })

end Rig

end Keyscan
