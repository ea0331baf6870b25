import Keyscan.Chip.Action

namespace Keyscan.Chip

/-- Actions after a look-up of the offset or the bytes. -/
inductive Deed
  | read (r : Register)
  | write (r : Register) (value : Byte)
  | checkPen
  | reset
  | setAlarm (on : Bool)
  | apply (r : Snapshot.Record)
  | nothing (answer : Answer)

variable {c : Chip} {i : Inputs} {a : Action} {r : Register}

def Action.deed : Action → Deed
  | .read r => .read r
  | .write r v => .write r v
  | .readAt o =>
    match Register.ofOffset? o with
    | some r => .read r
    | none => .nothing (.byte 0xFF)
  | .writeAt o v =>
    match Register.ofOffset? o with
    | some r => .write r v
    | none => .nothing .done
  | .checkPen => .checkPen
  | .reset => .reset
  | .setAlarm on => .setAlarm on
  | .apply r => .apply r
  | .restore bytes =>
    match Snapshot.Record.decode bytes with
    | .ok r => .apply r
    | .error e => .nothing (.refused e)

def Deed.answer (c : Chip) (i : Inputs) : Deed → Answer
  | .read r => .byte (c.peek i r)
  | .nothing answer => answer
  | _ => .done

def Deed.reaction (c : Chip) (i : Inputs) : Deed → Reaction
  | .read r => c.read i r
  | .write r v => c.write i r v
  | .checkPen => c.checkPen i
  | .reset => c.reset i
  | .setAlarm on => { chip := { c with alarm := on } }
  | .apply r => c.apply r
  | .nothing _ => { chip := c }

theorem perform_eq (c : Chip) (i : Inputs) (a : Action) :
    c.perform i a = (a.deed.answer c i, a.deed.reaction c i) := by
  cases a with
  | readAt o =>
    simp only [perform, peekAt, readAt, Action.deed]
    cases Register.ofOffset? o <;> rfl
  | writeAt o v =>
    simp only [perform, writeAt, Action.deed]
    cases Register.ofOffset? o <;> rfl
  | restore bytes =>
    simp only [perform, Chip.restore, Action.deed]
    cases Snapshot.Record.decode bytes <;> rfl
  | _ => rfl

def Deed.flushes : Deed → Nat
  | .read _ | .write _ _ => 1
  | _ => 0

theorem flushes_checkPen (c : Chip) (i : Inputs) : (c.checkPen i).events.count .flushAlarms = 0 := by
  simp only [checkPen, sampleB]
  split <;> rfl

theorem flushes_portAChanged (c : Chip) (i : Inputs) :
    (c.portAChanged i).events.count .flushAlarms = 0 := by
  simp only [portAChanged, Reaction.after, List.count_append, flushes_checkPen]
  split <;> rfl

theorem flushes_reaction (c : Chip) (i : Inputs) (d : Deed) :
    (d.reaction c i).events.count .flushAlarms = d.flushes := by
  have after (es : List Event) {es' : List Event} (h : es'.count .flushAlarms = 0) :
      (es ++ es').count .flushAlarms = es.count .flushAlarms := by
    rw [List.count_append, h, Nat.add_zero]
  cases d with
  | read r =>
    cases r with
    | pra => exact after [.flushAlarms] (flushes_checkPen _ i)
    | prb => exact after [.flushAlarms] (flushes_checkPen _ i)
    | ddra => rfl
    | ddrb => rfl
  | write r v =>
    cases r with
    | pra => exact after [.flushAlarms, .wrote .pra v] (flushes_portAChanged _ i)
    | prb => exact after [.flushAlarms, .wrote .prb v] (flushes_checkPen _ i)
    | ddra => exact after [.flushAlarms, .wrote .ddra v] (flushes_portAChanged _ i)
    | ddrb => exact after [.flushAlarms, .wrote .ddrb v] (flushes_checkPen _ i)
  | checkPen => exact flushes_checkPen c i
  | reset => exact flushes_portAChanged _ i
  | setAlarm on => rfl
  | apply r =>
    refine (List.count_append ..).trans ?_
    rw [modelNotes]
    split
    · split <;> rfl
    · rfl
  | nothing answer => rfl

def Action.Reads (r : Register) : Action → Prop
  | .read r' => r' = r
  | .readAt o => o.toNat % 16 = r.offset.toNat
  | _ => False

def Action.Writes (r : Register) : Action → Prop
  | .write r' _ => r' = r
  | .writeAt o _ => o.toNat % 16 = r.offset.toNat
  | _ => False

def Action.TakesRecord : Action → Prop
  | .apply _ => True
  | .restore bytes => ∃ r, Snapshot.Record.decode bytes = .ok r
  | _ => False

theorem Action.reads_iff : a.Reads r ↔ a.deed = .read r := by
  cases a with
  | read r' => simp [Reads, deed]
  | readAt o =>
    simp only [Reads, ← Register.ofOffset?_eq_some, deed]
    cases Register.ofOffset? o <;> simp
  | writeAt o v =>
    simp only [Reads, deed]
    cases Register.ofOffset? o <;> simp
  | restore bytes =>
    simp only [Reads, deed]
    cases Snapshot.Record.decode bytes <;> simp
  | _ => simp [Reads, deed]

theorem Action.writes_iff : a.Writes r ↔ ∃ v, a.deed = .write r v := by
  cases a with
  | write r' v => simp [Writes, deed]
  | readAt o =>
    simp only [Writes, deed]
    cases Register.ofOffset? o <;> simp
  | writeAt o v =>
    simp only [Writes, ← Register.ofOffset?_eq_some, deed]
    cases Register.ofOffset? o <;> simp
  | restore bytes =>
    simp only [Writes, deed]
    cases Snapshot.Record.decode bytes <;> simp
  | _ => simp [Writes, deed]

theorem Action.takesRecord_iff : a.TakesRecord ↔ ∃ r, a.deed = .apply r := by
  cases a with
  | readAt o =>
    simp only [TakesRecord, deed]
    cases Register.ofOffset? o <;> simp
  | writeAt o v =>
    simp only [TakesRecord, deed]
    cases Register.ofOffset? o <;> simp
  | restore bytes =>
    simp only [TakesRecord, deed]
    cases Snapshot.Record.decode bytes <;> simp
  | _ => simp [TakesRecord, deed]

theorem Action.deed_eq_reset : a.deed = .reset ↔ a = .reset := by
  cases a with
  | readAt o =>
    simp only [deed]
    cases Register.ofOffset? o <;> simp
  | writeAt o v =>
    simp only [deed]
    cases Register.ofOffset? o <;> simp
  | restore bytes =>
    simp only [deed]
    cases Snapshot.Record.decode bytes <;> simp
  | _ => simp [deed]

end Keyscan.Chip
