import Keyscan.Chip.Action
import Keyscan.Proofs.Pen.Edges

/-! What each access makes of the light pen line. An access either looks at port B, and then takes the
pins as they are and tells an edge of the line, or it is quiet and moves nothing of this. Only a register
block that is restored puts a sample in place without a look at the pins. -/

namespace Keyscan

def Snapshot.BringsRegisters (bytes : List Byte) : Prop :=
  ∃ r, Record.decode bytes = .ok r ∧ r.registers.isSome = true

namespace Chip

variable {c c' : Chip} {i : Inputs} {r : Reaction} {a : Action}

def Action.LoadsRegisters : Action → Prop
  | .apply r => r.registers.isSome = true
  | .restore bytes => Snapshot.BringsRegisters bytes
  | _ => False

/-- Accesses that look at port B: reads of either port, all writes of port registers, light pen checks
and resets. -/
def Action.Looks : Action → Prop
  | .read r => r = .pra ∨ r = .prb
  | .write _ _ => True
  | .readAt o => o.toNat % 16 < 2
  | .writeAt o _ => o.toNat % 16 < 4
  | .checkPen => True
  | .reset => True
  | .setAlarm _ | .apply _ | .restore _ => False

def penSeen (c : Chip) : Bool := penLine ∈ c.portB.sampled

theorem penSeen_iff : c.penSeen = true ↔ penLine ∈ c.portB.sampled := decide_eq_true_iff

def penLevel (c : Chip) (i : Inputs) : Bool := penLine ∈ c.pinsB i

def Fresh (c : Chip) (i : Inputs) : Prop := c.portB.sampled = c.pinsB i

theorem Fresh.penSeen (h : c.Fresh i) : c.penSeen = c.penLevel i := by
  rw [Chip.penSeen, penLevel, h]

structure Looked (c : Chip) (i : Inputs) (r : Reaction) : Prop where
  fresh : r.chip.Fresh i
  edges : Event.penEdges r.events = PenEdge.between c.penSeen r.chip.penSeen i.clock

structure Quiet (c : Chip) (r : Reaction) : Prop where
  sampled : r.chip.portB.sampled = c.portB.sampled
  pins : ∀ i, r.chip.pinsB i = c.pinsB i
  edges : Event.penEdges r.events = []

theorem penEdges_sampleB (c : Chip) (i : Inputs) (value : Byte) :
    Event.penEdges (c.sampleB i value).events =
      PenEdge.between c.penSeen (penLine ∈ value) i.clock := by
  rw [sampleB, PenEdge.between, penSeen]
  by_cases before : penLine ∈ c.portB.sampled <;> by_cases now : penLine ∈ value <;>
    simp [before, now, Event.penEdges, Event.penEdge?]

theorem looked_checkPen (kept : c'.portB.sampled = c.portB.sampled) :
    Looked c i (c'.checkPen i) where
  fresh := rfl
  edges := by
    rw [checkPen, penEdges_sampleB, penSeen, kept]
    rfl

theorem Looked.after (es : List Event) (quiet : Event.penEdges es = []) (h : Looked c i r) :
    Looked c i (.after es r) where
  fresh := h.fresh
  edges := by rw [Reaction.after, Event.penEdges_append, quiet, List.nil_append, h.edges]

theorem looked_portAChanged (kept : c'.portB.sampled = c.portB.sampled) :
    Looked c i (c'.portAChanged i) := by
  apply Looked.after
  · split <;> rfl
  · exact looked_checkPen kept

theorem looked_read {reg : Register} (h : reg = .pra ∨ reg = .prb) : Looked c i (c.read i reg) := by
  rcases h with rfl | rfl
  · exact Looked.after [.flushAlarms] rfl (looked_checkPen rfl)
  · exact Looked.after [.flushAlarms] rfl (looked_checkPen rfl)

theorem looked_write (c : Chip) (i : Inputs) (reg : Register) (value : Byte) :
    Looked c i (c.write i reg value) := by
  refine Looked.after [.flushAlarms, .wrote reg value] rfl ?_
  cases reg with
  | pra => exact looked_portAChanged rfl
  | prb => exact looked_checkPen rfl
  | ddra => exact looked_portAChanged rfl
  | ddrb => exact looked_checkPen rfl

theorem quiet_read {reg : Register} (h : ¬(reg = .pra ∨ reg = .prb)) : Quiet c (c.read i reg) := by
  cases reg with
  | pra => exact absurd (.inl rfl) h
  | prb => exact absurd (.inr rfl) h
  | ddra => exact ⟨rfl, fun _ => rfl, rfl⟩
  | ddrb => exact ⟨rfl, fun _ => rfl, rfl⟩

theorem penEdges_modelNotes (c : Chip) (selector : Byte) :
    Event.penEdges (c.modelNotes selector) = [] := by
  rw [modelNotes]
  split
  · split <;> rfl
  · rfl

theorem quiet_apply {rec : Snapshot.Record} (h : rec.registers = none) : Quiet c (c.apply rec) where
  sampled := by rw [apply, h]; rfl
  pins _ := by rw [apply, h]; rfl
  edges := by
    rw [apply, Event.penEdges_append, penEdges_modelNotes]
    rfl

theorem place_lt_two {o : BitVec 16} {reg : Register} (h : Register.ofOffset? o = some reg) :
    o.toNat % 16 < 2 ↔ reg = .pra ∨ reg = .prb := by
  rw [Register.ofOffset?_eq_some.1 h]
  cases reg <;> decide

theorem looked_perform (h : a.Looks) : Looked c i (c.perform i a).2 := by
  cases a with
  | read reg => exact looked_read h
  | write reg v => exact looked_write c i reg v
  | readAt o =>
    simp only [perform, readAt]
    cases hr : Register.ofOffset? o with
    | none =>
      have off := Register.ofOffset?_eq_none.1 hr
      simp only [Action.Looks] at h
      omega
    | some reg => exact looked_read ((place_lt_two hr).1 h)
  | writeAt o v =>
    simp only [perform, writeAt]
    cases hr : Register.ofOffset? o with
    | none => exact absurd h (Nat.not_lt.2 (Register.ofOffset?_eq_none.1 hr))
    | some reg => exact looked_write c i reg v
  | checkPen => exact looked_checkPen rfl
  | reset => exact looked_portAChanged rfl
  | setAlarm on => exact h.elim
  | apply rec => exact h.elim
  | restore bytes => exact h.elim

theorem quiet_perform (h : ¬a.Looks) (h' : ¬a.LoadsRegisters) : Quiet c (c.perform i a).2 := by
  have still : Quiet c { chip := c } := ⟨rfl, fun _ => rfl, rfl⟩
  cases a with
  | read reg => exact quiet_read h
  | write reg v => exact absurd trivial h
  | readAt o =>
    simp only [perform, readAt]
    cases hr : Register.ofOffset? o with
    | none => exact still
    | some reg => exact quiet_read fun pins => h ((place_lt_two hr).2 pins)
  | writeAt o v =>
    simp only [perform, writeAt]
    cases hr : Register.ofOffset? o with
    | none => exact still
    | some reg =>
      apply absurd _ h
      rw [Action.Looks, ← Nat.not_le, ← Register.ofOffset?_eq_none, hr]
      simp
  | checkPen => exact absurd trivial h
  | reset => exact absurd trivial h
  | setAlarm on => exact ⟨rfl, fun _ => rfl, rfl⟩
  | apply rec => exact quiet_apply (Option.not_isSome_iff_eq_none.1 h')
  | restore bytes =>
    simp only [perform, Chip.restore]
    cases hd : Snapshot.Record.decode bytes with
    | error e => exact still
    | ok rec => exact quiet_apply (Option.not_isSome_iff_eq_none.1 fun brings => h' ⟨rec, hd, brings⟩)

theorem Fresh.perform (h : c.Fresh i) (ha : ¬a.LoadsRegisters) : (c.perform i a).2.chip.Fresh i := by
  by_cases looks : a.Looks
  · exact (looked_perform looks).fresh
  · have quiet : Quiet c (c.perform i a).2 := quiet_perform looks ha
    rw [Fresh, quiet.sampled, quiet.pins, h]

theorem penEdges_perform (c : Chip) (i : Inputs) (ha : ¬a.LoadsRegisters) :
    Event.penEdges (c.perform i a).2.events =
      PenEdge.between c.penSeen (c.perform i a).2.chip.penSeen i.clock := by
  by_cases looks : a.Looks
  · exact (looked_perform looks).edges
  · have quiet : Quiet c (c.perform i a).2 := quiet_perform looks ha
    rw [quiet.edges, penSeen, penSeen, quiet.sampled, PenEdge.between_self]

end Chip

end Keyscan
