import Keyscan.Board
import Keyscan.Proofs.Pen.Alternation

namespace Keyscan

namespace Chip

variable {c : Chip} {i : Inputs}

theorem fresh_new (model : Model) (clock : UInt64) : Fresh { model } { clock } := by
  have idle : pinsB {} {} = 0xFF := by decide
  exact idle.symm

theorem getLast?_save (c : Chip) : c.save.getLast? = some c.portB.sampled := rfl

theorem Fresh.checkPen (h : c.Fresh i) : c.checkPen i = { chip := c } := by
  have unchanged : penLine ∉ c.portB.sampled ^^^ c.portB.sampled := by
    rw [BitVec.xor_self]
    exact Byte.not_mem_zero
  rw [Chip.checkPen, ← h, sampleB, if_neg unchanged]

theorem Fresh.read_prb (h : c.Fresh i) : (c.read i .prb).chip = c := by
  rw [read, h.checkPen]
  rfl

theorem Fresh.readAt (h : c.Fresh i) {o : BitVec 16} (ho : o.toNat % 16 = 1) :
    c.peekAt i o = c.pinsB i ∧ (c.readAt i o).chip = c ∧
      Event.penEdges (c.readAt i o).events = [] := by
  have prb : Register.ofOffset? o = some .prb := Register.ofOffset?_eq_some.2 ho
  have edges := (looked_read (c := c) (i := i) (.inr rfl : Register.prb = .pra ∨ _)).edges
  rw [h.read_prb, PenEdge.between_self] at edges
  rw [peekAt, Chip.readAt, prb]
  exact ⟨rfl, h.read_prb, edges⟩

end Chip

namespace Board

variable {b : Board} {a : Action} {as : List Action}

def Action.access? : Action → Option Chip.Action
  | .read o => some (.readAt o)
  | .write o v => some (.writeAt o v)
  | .reset => some .reset
  | .load bytes => some (.restore bytes)
  | .input _ | .clock _ => none

def Action.LoadsRegisters : Action → Prop
  | .load bytes => Snapshot.BringsRegisters bytes
  | _ => False

/-- Actions with which the board looks at port B: changes of its inputs other than by a key off the
matrix, reads of either port, writes of port registers and resets. -/
def Action.Looks : Action → Prop
  | .input (.keyboard (.set row col _)) => row.toNat < 8 ∧ col.toNat < 8
  | .input _ => True
  | .read o => o.toNat % 16 < 2
  | .write o _ => o.toNat % 16 < 4
  | .reset => True
  | .clock _ | .load _ => False

def run (b : Board) : List Action → Board
  | [] => b
  | a :: as => run (b.perform a).2 as

theorem run_append (b : Board) (as bs : List Action) : b.run (as ++ bs) = (b.run as).run bs := by
  induction as generalizing b with
  | nil => rfl
  | cons a as ih => exact ih _

theorem perform_access {x : Chip.Action} (h : a.access? = some x) :
    b.perform a =
      ((b.chip.perform b.inputs x).1, { b with chip := (b.chip.perform b.inputs x).2.chip }) := by
  cases a with
  | input c => cases h
  | clock t => cases h
  | read o => cases h; rfl
  | write o v => cases h; rfl
  | reset => cases h; rfl
  | load bytes =>
    cases h
    simp only [perform, Chip.perform]
    cases b.chip.restore bytes <;> rfl

theorem accepted_of_looks {c : Inputs.Change} (h : (Action.input c).Looks) (i : Inputs) :
    ∃ i', i.change c = .ok i' := by
  match c with
  | .keyboard (.set row col on) =>
    have key : Key.ofBytes row col = .ok ⟨⟨row.toNat, h.1⟩, ⟨col.toNat, h.2⟩⟩ := dif_pos h
    exact ⟨_, by rw [Inputs.change, Keyboard.change, Keyboard.setKey, key]; rfl⟩
  | .keyboard .releaseAll => exact ⟨_, rfl⟩
  | .keyboard (.shiftLock on) => exact ⟨_, rfl⟩
  | .keyboard (.load bits) => exact ⟨_, rfl⟩
  | .joysticks c => exact ⟨_, rfl⟩

def Fresh (b : Board) : Prop := b.chip.Fresh b.inputs

theorem fresh_perform (b : Board) (h : a.Looks) : (b.perform a).2.Fresh := by
  have looked {x : Chip.Action} (hx : a.access? = some x) (h : x.Looks) : (b.perform a).2.Fresh := by
    rw [perform_access hx]
    exact (Chip.looked_perform h).fresh
  cases a with
  | input c =>
    obtain ⟨i, accepted⟩ := accepted_of_looks h b.inputs
    simp only [perform, change, accepted]
    exact (Chip.looked_checkPen (c := b.chip) rfl).fresh
  | clock t => exact h.elim
  | read o => exact looked rfl h
  | write o v => exact looked rfl h
  | reset => exact looked rfl h
  | load bytes => exact h.elim

theorem Fresh.perform (hb : b.Fresh) (ha : ¬a.LoadsRegisters) : (b.perform a).2.Fresh := by
  have kept {x : Chip.Action} (hx : a.access? = some x) (h : ¬x.LoadsRegisters) :
      (b.perform a).2.Fresh := by
    rw [perform_access hx]
    exact Chip.Fresh.perform hb h
  cases a with
  | input c =>
    simp only [Board.perform, change]
    split
    · exact (Chip.looked_checkPen (c := b.chip) rfl).fresh
    · exact hb
  | clock t => exact hb
  | read o => exact kept rfl id
  | write o v => exact kept rfl id
  | reset => exact kept rfl id
  | load bytes => exact kept rfl ha

theorem Fresh.run (hb : b.Fresh) (has : ∀ a ∈ as, ¬a.LoadsRegisters) : (b.run as).Fresh := by
  induction as generalizing b with
  | nil => exact hb
  | cons a as ih =>
    obtain ⟨ha, has⟩ := List.forall_mem_cons.1 has
    exact ih (hb.perform ha) has

end Board

namespace Rig

/-- Moves of a machine that checks the light pen line at once when it changes the inputs. -/
inductive Move
  | access (a : Chip.Action)
  | input (c : Inputs.Change)
  | clock (t : UInt64)

variable {r : Rig} {m : Move} {ms : List Move}

def Move.actions : Move → List Action
  | .access a => [.chip a]
  | .input c => [.input c, .chip .checkPen]
  | .clock t => [.clock t]

def Move.LoadsRegisters : Move → Prop
  | .access a => a.LoadsRegisters
  | .input _ | .clock _ => False

def play (r : Rig) (ms : List Move) : Rig := r.run (ms.flatMap Move.actions)

def settled (r : Rig) : List Move → List Rig
  | [] => []
  | m :: ms => r.run m.actions :: settled (r.run m.actions) ms

def level (r : Rig) : Bool × UInt64 := (r.chip.penLevel r.machine.inputs, r.machine.inputs.clock)

def Fresh (r : Rig) : Prop := r.chip.Fresh r.machine.inputs

theorem Fresh.sighting (h : r.Fresh) : r.sighting = r.level := by
  rw [Rig.sighting, level, Chip.Fresh.penSeen h]

theorem Move.loadless (h : ¬m.LoadsRegisters) : ∀ a ∈ m.actions, ¬a.LoadsRegisters := by
  cases m with
  | access a => exact List.forall_mem_singleton.2 h
  | input c => simp [actions, Action.LoadsRegisters, Chip.Action.LoadsRegisters]
  | clock t => simp [actions, Action.LoadsRegisters]

theorem fresh_chip {a : Chip.Action} (h : (r.chip.perform r.machine.inputs a).2.chip.Fresh
    r.machine.inputs) : (r.perform (.chip a)).2.2.Fresh := by
  rw [Fresh, perform, Machine.inputs_hear]
  exact h

theorem Fresh.move (hr : r.Fresh) (hm : ¬m.LoadsRegisters) : (r.run m.actions).Fresh := by
  cases m with
  | access a => exact fresh_chip (Chip.Fresh.perform hr hm)
  | input c => exact fresh_chip (Chip.looked_checkPen rfl).fresh
  | clock t =>
    obtain ⟨c, machine⟩ := r
    cases machine <;> exact hr

theorem penEdges_move (hm : ¬m.LoadsRegisters) :
    r.penEdges m.actions =
      PenEdge.between r.chip.penSeen (r.run m.actions).sighting.1 (r.run m.actions).sighting.2 := by
  rw [penEdges_eq_along (Move.loadless hm)]
  cases m with
  | access a => exact List.append_nil _
  | input c =>
    -- The chip sees nothing of the input until the check after it.
    simp only [Move.actions, trace, List.map_cons, List.map_nil, PenEdge.along, run, sighting,
      chip_perform_input, PenEdge.between_self, List.nil_append, List.append_nil]
  | clock t => exact List.append_nil _

theorem penEdges_play (hr : r.Fresh) (hms : ∀ m ∈ ms, ¬m.LoadsRegisters) :
    r.penEdges (ms.flatMap Move.actions) =
      PenEdge.along r.level.1 ((r.settled ms).map level) := by
  induction ms generalizing r with
  | nil => rfl
  | cons m ms ih =>
    obtain ⟨hm, hms⟩ := List.forall_mem_cons.1 hms
    have fresh : (r.run m.actions).Fresh := hr.move hm
    rw [List.flatMap_cons, penEdges_append, ih fresh hms, penEdges_move hm, fresh.sighting,
      Chip.Fresh.penSeen hr]
    rfl

end Rig

theorem sample_follows_pins :
    (∀ (model : Model) (as : List Board.Action), (∀ a ∈ as, ¬a.LoadsRegisters) →
      let b := Board.run { chip := { model } } as
      b.chip.portB.sampled = b.chip.pinsB b.inputs ∧
      b.chip.save.getLast? = some (b.chip.pinsB b.inputs) ∧
      ∀ o : BitVec 16, o.toNat % 16 = 1 →
        b.perform (.read o) = (.byte (b.chip.pinsB b.inputs), b) ∧
        Event.penEdges (b.chip.readAt b.inputs o).events = []) ∧
    (∀ (b : Board) (a : Board.Action) (as : List Board.Action), a.Looks →
      (∀ x ∈ as, ¬x.LoadsRegisters) →
      let b' := (b.perform a).2.run as
      b'.chip.portB.sampled = b'.chip.pinsB b'.inputs) ∧
    (∀ (model : Model) (clock : UInt64), Chip.Fresh { model } { clock }) ∧
    (∀ (c : Chip) (i : Inputs) (m : Monitor) (ms : List Rig.Move), c.Fresh i →
      (∀ x ∈ ms, ¬x.LoadsRegisters) →
      let r : Rig := ⟨c, .monitored i m⟩
      (r.play ms).machine.recorded =
        some (m.penEdges ++ PenEdge.along (c.penLevel i) ((r.settled ms).map Rig.level))) := by
  refine ⟨?_, ?_, Chip.fresh_new, ?_⟩
  · intro model as has b
    have fresh : b.Fresh := Board.Fresh.run (Chip.fresh_new model 0) has
    refine ⟨fresh, by rw [b.chip.getLast?_save, fresh], ?_⟩
    intro o ho
    obtain ⟨value, chip, edges⟩ := Chip.Fresh.readAt fresh ho
    refine ⟨?_, edges⟩
    rw [Board.perform, value, Board.react, chip]
  · intro b a as looks has b'
    exact (b.fresh_perform looks).run has
  · intro c i m ms fresh hms r
    have fresh : r.Fresh := fresh
    rw [Rig.play, Rig.recorded_run, Rig.penEdges_play fresh hms]
    rfl

def Board.held : List Board.Action := [.input (.joysticks (.set 1 0x10)), .load [1, 0, 7, 2, 1]]

def Board.stale : Board := Board.run {} [.load [1, 1, 0, 3, 0, 0, 0, 0, 0, 0xFF, 0x00]]

def Rig.pressed : List Rig.Move :=
  [.clock 3, .input (.joysticks (.set 1 0x10)), .access (.readAt 0x11), .access .reset, .clock 9,
    .input (.joysticks .releaseAll)]

theorem sample_follows_pins_fire :
    (∀ a ∈ Board.held, ¬a.LoadsRegisters) ∧
    ((Board.run {} Board.held).perform (.read 0x11)).1 = .byte 0xEF ∧
    ¬Board.stale.Fresh ∧ (Board.stale.perform (.read 0x10)).2.Fresh ∧
    (Rig.play ⟨{}, .monitored {} {}⟩ Rig.pressed).machine.recorded = some [⟨true, 3⟩, ⟨false, 9⟩] := by
  have loadless : ∀ a ∈ Board.held, ¬a.LoadsRegisters := by
    simp only [Board.held, List.forall_mem_cons, Board.Action.LoadsRegisters]
    refine ⟨id, ?_, by simp⟩
    rintro ⟨rec, decoded, brings⟩
    cases decoded
    cases brings
  obtain ⟨held, looks, start, moves⟩ := sample_follows_pins
  refine ⟨loadless, ?_, by unfold Board.Fresh Chip.Fresh; decide +kernel,
    looks Board.stale (.read 0x10) [] (Nat.zero_lt_two : 0 < 2) (by simp), ?_⟩
  · have pins : (Board.run {} Board.held).chip.pinsB (Board.run {} Board.held).inputs = 0xEF := by
      decide +kernel
    obtain ⟨-, -, reads⟩ := held .mos6526 Board.held loadless
    have read := (reads 0x11 rfl).1
    rw [read, pins]
  · rw [moves {} {} {} Rig.pressed (start .mos6526 0)
      (by simp [Rig.pressed, Rig.Move.LoadsRegisters, Chip.Action.LoadsRegisters])]
    decide +kernel

end Keyscan
