import Keyscan.Proofs.Deed
import Keyscan.Proofs.Pins.Joined
import Keyscan.Proofs.Run

namespace Keyscan

namespace Inputs

variable {i i' : Inputs} {k : Key} {on : Bool}

structure WiredAlike (i i' : Inputs) : Prop where
  joysticks : i.joysticks = i'.joysticks
  clock : i.clock = i'.clock
  latch : i.keyboard.shiftLock = i'.keyboard.shiftLock
  joined : ∀ l l', i.keyboard.Joined l l' ↔ i'.keyboard.Joined l l'

theorem change_key {row col : Byte} (hk : Key.ofBytes row col = .ok k) (i : Inputs) :
    i.change (.keyboard (.set row col on)) = .ok { i with keyboard := i.keyboard.set k on } := by
  rw [change, Keyboard.change, Keyboard.setKey, hk]
  rfl

theorem wiredAlike_set (hm : i.keyboard.Consistent) (hk : (i.keyboard.set k false).Bridged k) :
    WiredAlike { i with keyboard := i.keyboard.set k on } i where
  joysticks := rfl
  clock := rfl
  latch := rfl
  joined _ _ := hm.joined_set hk on

end Inputs

namespace Inputs.WiredAlike

variable {i i' : Inputs}

theorem pinsA (h : i.WiredAlike i') (c : Chip) : c.pinsA i = c.pinsA i' :=
  Chip.pinsA_congr h.joysticks h.joined

theorem pinsB (h : i.WiredAlike i') (c : Chip) : c.pinsB i = c.pinsB i' :=
  Chip.pinsB_congr h.joysticks h.latch h.joined

theorem checkPen (h : i.WiredAlike i') (c : Chip) : c.checkPen i = c.checkPen i' := by
  rw [Chip.checkPen, Chip.checkPen, Chip.sampleB, Chip.sampleB, h.clock, h.pinsB]

theorem portAChanged (h : i.WiredAlike i') (c : Chip) : c.portAChanged i = c.portAChanged i' := by
  rw [Chip.portAChanged, Chip.portAChanged, h.checkPen]

theorem peek (h : i.WiredAlike i') (c : Chip) (reg : Register) : c.peek i reg = c.peek i' reg := by
  cases reg with
  | pra => exact h.pinsA c
  | prb => exact h.pinsB c
  | ddra => rfl
  | ddrb => rfl

theorem read (h : i.WiredAlike i') (c : Chip) (reg : Register) : c.read i reg = c.read i' reg := by
  cases reg with
  | pra => rw [Chip.read, Chip.read, h.pinsA, h.checkPen]
  | prb => rw [Chip.read, Chip.read, h.checkPen]
  | ddra => rfl
  | ddrb => rfl

theorem write (h : i.WiredAlike i') (c : Chip) (reg : Register) (v : Byte) :
    c.write i reg v = c.write i' reg v := by
  cases reg <;> simp only [Chip.write, h.checkPen, h.portAChanged]

theorem perform (h : i.WiredAlike i') (c : Chip) (a : Chip.Action) :
    c.perform i a = c.perform i' a := by
  rw [Chip.perform_eq, Chip.perform_eq]
  cases a.deed with
  | read reg => simp only [Chip.Deed.answer, Chip.Deed.reaction, h.peek, h.read]
  | write reg v => simp only [Chip.Deed.answer, Chip.Deed.reaction, h.write]
  | checkPen => simp only [Chip.Deed.answer, Chip.Deed.reaction, h.checkPen]
  | reset => simp only [Chip.Deed.answer, Chip.Deed.reaction, Chip.reset, h.portAChanged]
  | _ => rfl

end Inputs.WiredAlike

namespace Rig

def account (s : Answer × List Event × Rig) : Answer × List Event × Chip := (s.1, s.2.1, s.2.2.chip)

theorem trace_congr {m m' : Machine} (h : m.inputs.WiredAlike m'.inputs) (c : Chip)
    (as : List Chip.Action) :
    (trace ⟨c, m⟩ (as.map .chip)).map account = (trace ⟨c, m'⟩ (as.map .chip)).map account := by
  induction as generalizing c m m' with
  | nil => rfl
  | cons a as ih =>
    simp only [List.map_cons, trace, perform, account, h.perform c a]
    congr 1
    apply ih
    rw [Machine.inputs_hear, Machine.inputs_hear]
    exact h

theorem wiredAlike_perform_key {r : Rig} {row col : Byte} {on : Bool} {k : Key}
    (hm : r.machine.inputs.keyboard.Consistent) (hk : Key.ofBytes row col = .ok k)
    (bridged : (r.machine.inputs.keyboard.set k false).Bridged k) :
    let r' := (r.perform (.input (.keyboard (.set row col on)))).2.2
    r'.chip = r.chip ∧ r'.machine.inputs.WiredAlike r.machine.inputs := by
  have taken : (r.machine.withInputs
      { r.machine.inputs with keyboard := r.machine.inputs.keyboard.set k on }).inputs =
      { r.machine.inputs with keyboard := r.machine.inputs.keyboard.set k on } :=
    Machine.inputs_withInputs rfl
  simp only [perform, Inputs.change_key hk, taken, true_and]
  exact Inputs.wiredAlike_set hm bridged

end Rig

/-- All accesses, in machines that join the same lines; then a key whose lines are joined while it is up, as
they are by the other corners of a rectangle. -/
theorem joined_lines_are_all_seen :
    (∀ (c : Chip) (m m' : Machine) (as : List Chip.Action), m.inputs.WiredAlike m'.inputs →
      (Rig.trace ⟨c, m⟩ (as.map .chip)).map Rig.account =
        (Rig.trace ⟨c, m'⟩ (as.map .chip)).map Rig.account) ∧
    (∀ (r : Rig) (row col : Byte) (on : Bool) (k : Key), r.machine.inputs.keyboard.Reachable →
      Key.ofBytes row col = .ok k →
      (r.machine.inputs.keyboard.set k false).Joined (.row k.row) (.col k.col) →
      let r' := (r.perform (.input (.keyboard (.set row col on)))).2.2
      r'.chip.pinsA r'.machine.inputs = r.chip.pinsA r.machine.inputs ∧
      r'.chip.pinsB r'.machine.inputs = r.chip.pinsB r.machine.inputs ∧
      (r'.perform (.chip .checkPen)).2.1 = (r.perform (.chip .checkPen)).2.1) ∧
    ∀ (m : Keyboard) (r r' c c' : Fin 8), m.Reachable → r ≠ r' → c ≠ c' →
      m.Closed ⟨r, c⟩ → m.Closed ⟨r, c'⟩ → m.Closed ⟨r', c⟩ →
      (m.set ⟨r', c'⟩ false).Joined (.row r') (.col c') := by
  refine ⟨?_, ?_, ?_⟩
  · intro c m m' as h
    exact Rig.trace_congr h c as
  · intro r row col on k hm hk bridged r'
    obtain ⟨chip, alike⟩ : r'.chip = r.chip ∧ r'.machine.inputs.WiredAlike r.machine.inputs :=
      Rig.wiredAlike_perform_key hm.consistent hk bridged
    refine ⟨?_, ?_, ?_⟩
    · rw [chip, alike.pinsA]
    · rw [chip, alike.pinsB]
    · simp only [Rig.perform, chip, alike.perform]
  · intro m r r' c c' hm rows cols h h₁ h₂
    exact hm.consistent.bridged_corner rows cols h h₁ h₂

def Rig.threeCorners : Rig where
  machine := .monitored { keyboard := .replay [.set 0 0 true, .set 0 4 true, .set 1 0 true] } {}

def Rig.rowProbe : List Chip.Action :=
  [.write .ddra 0xFF, .writeAt 0x20 0xFD, .readAt 0x11, .checkPen, .reset]

theorem joined_lines_are_all_seen_threeCorners :
    let i := Rig.threeCorners.machine.inputs
    let four := i.keyboard.set ⟨1, 4⟩ true
    let r' := (Rig.threeCorners.perform (.input (.keyboard (.set 1 4 true)))).2.2
    i.keyboard.Reachable ∧ (Machine.bare four {}).inputs.WiredAlike i ∧
    (Rig.trace ⟨{}, .bare four {}⟩ (Rig.rowProbe.map .chip)).map Rig.account =
      (Rig.trace Rig.threeCorners (Rig.rowProbe.map .chip)).map Rig.account ∧
    Key.ofBytes 1 4 = .ok ⟨1, 4⟩ ∧ (i.keyboard.set ⟨1, 4⟩ false).Joined (.row 1) (.col 4) ∧
    r'.machine.inputs.keyboard ≠ i.keyboard ∧
    r'.chip.pinsA r'.machine.inputs = Rig.threeCorners.chip.pinsA i ∧
    r'.chip.pinsB r'.machine.inputs = Rig.threeCorners.chip.pinsB i ∧
    (r'.perform (.chip .checkPen)).2.1 = (Rig.threeCorners.perform (.chip .checkPen)).2.1 := by
  intro i four r'
  obtain ⟨runs, unseen, corner⟩ := joined_lines_are_all_seen
  have reachable : i.keyboard.Reachable := ⟨_, rfl⟩
  have bridged : (i.keyboard.set ⟨1, 4⟩ false).Joined (.row 1) (.col 4) :=
    corner _ 0 1 0 4 reachable (by decide) (by decide) (by decide) (by decide) (by decide)
  have alike : (Machine.bare four {}).inputs.WiredAlike i :=
    Inputs.wiredAlike_set reachable.consistent bridged
  exact ⟨reachable, alike, runs {} _ _ Rig.rowProbe alike, rfl, bridged, by decide +kernel,
    unseen Rig.threeCorners 1 4 true ⟨1, 4⟩ reachable rfl bridged⟩

end Keyscan
