import Keyscan.Proofs.Checked.Pins
import Keyscan.Proofs.Checked.Snapshot
import Keyscan.Proofs.Pen.Freshness

namespace Keyscan.Checked

def paddleMask (level : Byte) : Except Trap Byte := do return (← shiftRight level 6) &&& 3

def checkPen (c : Chip) (i : Inputs) : Except Trap Reaction := do return c.sampleB i (← pinsB c i)

def portAChanged (c : Chip) (i : Inputs) : Except Trap Reaction := do
  let mask ← paddleMask c.portA.level
  let note := if mask = c.paddles then [] else [.paddlesChanged c.paddles mask]
  return .after (note ++ [.selectPaddles mask]) (← checkPen { c with paddles := mask } i)

def read (c : Chip) (i : Inputs) : Register → Except Trap (Byte × Reaction)
  | .pra => do
    let value ← pinsA c i
    return (value, .after [.flushAlarms] (← checkPen { c with portA.sampled := value } i))
  | .prb => do
    let value ← pinsB c i
    return (value, .after [.flushAlarms] (c.sampleB i value))
  | .ddra => .ok (c.portA.ddr, { chip := c, events := [.flushAlarms] })
  | .ddrb => .ok (c.portB.ddr, { chip := c, events := [.flushAlarms] })

def write (c : Chip) (i : Inputs) (r : Register) (value : Byte) : Except Trap Reaction :=
  .after [.flushAlarms, .wrote r value] <$>
    match r with
    | .pra => portAChanged { c with portA.data := value } i
    | .prb => checkPen { c with portB.data := value } i
    | .ddra => portAChanged { c with portA.ddr := value } i
    | .ddrb => checkPen { c with portB.ddr := value } i

def readAt (c : Chip) (i : Inputs) (o : BitVec 16) : Except Trap (Byte × Reaction) :=
  match Register.ofOffset? o with
  | some r => read c i r
  | none => .ok (0xFF, { chip := c })

def writeAt (c : Chip) (i : Inputs) (o : BitVec 16) (value : Byte) : Except Trap Reaction :=
  match Register.ofOffset? o with
  | some r => write c i r value
  | none => .ok { chip := c }

def reset (c : Chip) (i : Inputs) : Except Trap Reaction :=
  portAChanged { c with portA := c.portA.reset, portB := c.portB.reset, alarm := false } i

def restore (c : Chip) (bytes : List Byte) : Except Trap (Answer × Reaction) :=
  match (record bytes).run' 0 with
  | .ok r => .ok (.done, c.apply r)
  | .error (.refused e) => .ok (.refused e, { chip := c })
  | .error (.trap t) => .error t

def perform (c : Chip) (i : Inputs) : Chip.Action → Except Trap (Answer × Reaction)
  | .read r => do let (value, reaction) ← read c i r; return (.byte value, reaction)
  | .write r v => do return (.done, ← write c i r v)
  | .readAt o => do let (value, reaction) ← readAt c i o; return (.byte value, reaction)
  | .writeAt o v => do return (.done, ← writeAt c i o v)
  | .checkPen => do return (.done, ← checkPen c i)
  | .reset => do return (.done, ← reset c i)
  | .setAlarm on => .ok (.done, { chip := { c with alarm := on } })
  | .apply r => .ok (.done, c.apply r)
  | .restore bytes => restore c bytes

variable {c : Chip} {i : Inputs}

theorem paddleMask_eq (level : Byte) : paddleMask level = .ok (Keyscan.paddleMask level) := rfl

theorem checkPen_eq (c : Chip) (i : Inputs) : checkPen c i = .ok (c.checkPen i) := by
  rw [checkPen, pinsB_eq]
  rfl

theorem portAChanged_eq (c : Chip) (i : Inputs) : portAChanged c i = .ok (c.portAChanged i) := by
  simp only [portAChanged, paddleMask_eq, checkPen_eq, bind, Except.bind]
  rfl

theorem read_eq (c : Chip) (i : Inputs) (r : Register) : read c i r = .ok (c.peek i r, c.read i r) := by
  cases r with
  | pra =>
    simp only [read, pinsA_eq, checkPen_eq, bind, Except.bind]
    rfl
  | prb =>
    simp only [read, pinsB_eq, bind, Except.bind]
    rfl
  | ddra => rfl
  | ddrb => rfl

theorem write_eq (c : Chip) (i : Inputs) (r : Register) (value : Byte) :
    write c i r value = .ok (c.write i r value) := by
  cases r <;> simp only [write, portAChanged_eq, checkPen_eq] <;> rfl

theorem readAt_eq (c : Chip) (i : Inputs) (o : BitVec 16) :
    readAt c i o = .ok (c.peekAt i o, c.readAt i o) := by
  rw [readAt, Chip.peekAt, Chip.readAt]
  cases Register.ofOffset? o with
  | some r => exact read_eq c i r
  | none => rfl

theorem writeAt_eq (c : Chip) (i : Inputs) (o : BitVec 16) (value : Byte) :
    writeAt c i o value = .ok (c.writeAt i o value) := by
  rw [writeAt, Chip.writeAt]
  cases Register.ofOffset? o with
  | some r => exact write_eq c i r value
  | none => rfl

theorem restore_eq (c : Chip) (i : Inputs) (bytes : List Byte) :
    restore c bytes = .ok (c.perform i (.restore bytes)) := by
  rw [restore, read_record, Chip.perform, Chip.restore]
  cases Snapshot.Record.decode bytes <;> rfl

theorem perform_eq (c : Chip) (i : Inputs) (a : Chip.Action) :
    perform c i a = .ok (c.perform i a) := by
  cases a with
  | read r => rw [perform, read_eq]; rfl
  | write r v => rw [perform, write_eq]; rfl
  | readAt o => rw [perform, readAt_eq]; rfl
  | writeAt o v => rw [perform, writeAt_eq]; rfl
  | checkPen => rw [perform, checkPen_eq]; rfl
  | reset => rw [perform, reset, portAChanged_eq]; rfl
  | setAlarm on => rfl
  | apply r => rfl
  | restore bytes => exact restore_eq c i bytes

namespace Board

def look (b : Board) (i : Inputs) : Except Trap Board := do
  return { chip := (← checkPen b.chip i).chip, inputs := i }

def change (b : Board) : Inputs.Change → Except Trap Board
  | .keyboard c =>
    if onMatrix c then do
      look b { b.inputs with keyboard := ← exec (Checked.change c) b.inputs.keyboard }
    else
      .ok b
  | .joysticks c => look b { b.inputs with joysticks := b.inputs.joysticks.change c }

def access (b : Board) (a : Chip.Action) : Except Trap (Answer × Board) := do
  let (answer, r) ← Checked.perform b.chip b.inputs a
  return (answer, b.react r)

def perform (b : Board) : Board.Action → Except Trap (Answer × Board)
  | .input c => do return (.done, ← change b c)
  | .clock t => .ok (.done, { b with inputs.clock := t.toUInt64 })
  | .read o => access b (.readAt o)
  | .write o v => access b (.writeAt o v)
  | .reset => access b .reset
  | .load bytes => access b (.restore bytes)

def run (b : Board) (as : List Board.Action) : Except Trap Board :=
  as.foldlM (fun b a => do return (← perform b a).2) b

theorem look_eq (b : Board) (i : Inputs) :
    look b i = .ok { chip := (b.chip.checkPen i).chip, inputs := i } := by
  rw [look, checkPen_eq]
  rfl

theorem change_eq (b : Board) (c : Inputs.Change) : change b c = .ok (b.change c) := by
  cases c with
  | keyboard c =>
    rw [change, onMatrix_eq b.inputs.keyboard, exec, run_change, Keyscan.Board.change, Inputs.change]
    cases b.inputs.keyboard.change c with
    | ok m => exact look_eq b { b.inputs with keyboard := m }
    | error e => rfl
  | joysticks c => exact look_eq b _

theorem perform_eq (b : Board) (a : Board.Action) : perform b a = .ok (b.perform a) := by
  have accessed {x : Chip.Action} (hx : a.access? = some x) : access b x = .ok (b.perform a) := by
    rw [access, Checked.perform_eq, Board.perform_access hx]
    rfl
  cases a with
  | input c =>
    rw [perform, change_eq]
    rfl
  | clock t => rfl
  | read o => exact accessed rfl
  | write o v => exact accessed rfl
  | reset => exact accessed rfl
  | load bytes => exact accessed rfl

theorem run_eq (b : Board) (as : List Board.Action) : run b as = .ok (b.run as) := by
  induction as generalizing b with
  | nil => rfl
  | cons a as ih =>
    rw [run, List.foldlM_cons, perform_eq]
    exact ih _

end Board

/-- No check fails in a run of a board, in an access to a chip under any inputs, or in a call of a keyboard
that stays on the matrix. -/
theorem no_check_fails :
    (∀ (b : Board) (as : List Board.Action), Board.run b as = .ok (b.run as)) ∧
    (∀ (b : Board) (a : Board.Action), Board.perform b a = .ok (b.perform a)) ∧
    (∀ (c : Chip) (i : Inputs) (a : Chip.Action), perform c i a = .ok (c.perform i a)) ∧
    (∀ (c : Chip) (i : Inputs), pinsA c i = .ok (c.pinsA i) ∧ pinsB c i = .ok (c.pinsB i)) ∧
    ∀ m : Keyboard, Sound m :=
  ⟨Board.run_eq, Board.perform_eq, perform_eq, fun c i => ⟨pinsA_eq c i, pinsB_eq c i⟩, sound⟩

end Keyscan.Checked
