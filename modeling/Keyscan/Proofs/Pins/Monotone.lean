import Keyscan.Proofs.Keyboard.Merge
import Keyscan.Proofs.Pins.Joined

namespace Keyscan

namespace Byte

instance : HasSubset Byte := ⟨fun a b => ∀ i, i ∈ a → i ∈ b⟩

instance (a b : Byte) : Decidable (a ⊆ b) :=
  inferInstanceAs (Decidable (∀ i, i ∈ a → i ∈ b))

theorem count_mono {a b : Byte} (h : a ⊆ b) : a.count ≤ b.count := by
  apply List.Sublist.length_le
  apply List.monotone_filter_right
  intro i hi
  rw [decide_eq_true_iff] at hi ⊢
  exact h i hi

end Byte

namespace Chip

variable {c c' : Chip} {i i' : Inputs}

/-- From one state of chip and inputs to another, contacts close and lines are pulled, and none lets
go. The pins of a joystick are low where it is pressed. -/
structure Tightens (c : Chip) (i : Inputs) (c' : Chip) (i' : Inputs) : Prop where
  keys : ∀ k ∈ i.keyboard, k ∈ i'.keyboard
  latch : i.keyboard.shiftLock = true → i'.keyboard.shiftLock = true
  stickOne : i'.joysticks.one.pins ⊆ i.joysticks.one.pins
  stickTwo : i'.joysticks.two.pins ⊆ i.joysticks.two.pins
  keyboardOn : i.joysticks.keyboardOn = true → i'.joysticks.keyboardOn = true
  drivenLow : c.portA.drivenLow ⊆ c'.portA.drivenLow
  levelA : c'.portA.level ⊆ c.portA.level
  levelB : c'.portB.level ⊆ c.portB.level
  drivenHigh : c'.portB.drivenHigh ⊆ c.portB.drivenHigh

namespace Tightens

theorem lowRows (h : Tightens c i c' i') : c.lowRows i ⊆ c'.lowRows i' := by
  intro row low
  rw [mem_lowRows] at low ⊢
  intro level pins
  exact low (h.levelA row level) (h.stickTwo row pins)

theorem lowCols (h : Tightens c i c' i') : c.lowCols i ⊆ c'.lowCols i' := by
  intro col low
  rw [mem_lowCols] at low ⊢
  intro level pins
  exact low (h.levelB col level) (h.stickOne col pins)

theorem joined (h : Tightens c i c' i') (hk : i.keyboard.Consistent) (hk' : i'.keyboard.Consistent)
    {l l' : Line} (hj : i.keyboard.Joined l l') : i'.keyboard.Joined l l' := by
  apply hj.mono
  intro _ _ hc
  exact Keyboard.contacts_mono hk hk' (fun _ closed => closed.mono h.keys h.latch) hc

theorem reach (h : Tightens c i c' i') (hk : i.keyboard.Consistent) (hk' : i'.keyboard.Consistent)
    {l l' : Line} (hr : l' ∈ i.keyboard.reach l) : l' ∈ i'.keyboard.reach l :=
  Keyboard.mem_reach.2 (h.joined hk hk' (Keyboard.mem_reach.1 hr))

theorem overpowers (h : Tightens c i c' i') (hk : i.keyboard.Consistent)
    (hk' : i'.keyboard.Consistent) {row col : Fin 8} (wins : c.overpowers i row col = true) :
    c'.overpowers i' row col = true := by
  rw [Chip.overpowers, decide_eq_true_iff] at wins ⊢
  apply wins.imp
  · intro locked
    exact ⟨locked.1, h.latch locked.2⟩
  · intro two
    apply two.trans
    apply Byte.count_mono
    intro row' drives
    rw [Byte.mem_and, ← LineSet.row_mem] at drives ⊢
    exact ⟨h.reach hk hk' drives.1, h.drivenLow row' drives.2⟩

theorem pulledRows (h : Tightens c i c' i') (hk : i.keyboard.Consistent)
    (hk' : i'.keyboard.Consistent) : c.pulledRows i ⊆ c'.pulledRows i' := by
  intro row pulled
  rw [mem_pulledRows] at pulled ⊢
  rcases pulled with ⟨col, ⟨low, input⟩, joined⟩ | ⟨row', low, joined⟩
  · left
    refine ⟨col, ⟨h.lowCols col low, ?_⟩, h.reach hk hk' joined⟩
    exact fun driven => input (h.drivenHigh col driven)
  · right
    exact ⟨row', h.lowRows row' low, h.reach hk hk' joined⟩

theorem pulledCols (h : Tightens c i c' i') (hk : i.keyboard.Consistent)
    (hk' : i'.keyboard.Consistent) : c.pulledCols i ⊆ c'.pulledCols i' := by
  intro col pulled
  rw [mem_pulledCols] at pulled ⊢
  rcases pulled with ⟨row, low, joined, contended⟩ | ⟨col', low, joined, input⟩
  · left
    refine ⟨row, h.lowRows row low, h.reach hk hk' joined, ?_⟩
    -- A column still driven high was driven high before, so it was contended then too.
    intro driven
    exact h.overpowers hk hk' (contended (h.drivenHigh col driven))
  · right
    refine ⟨col', h.lowCols col' low, h.reach hk hk' joined, ?_⟩
    exact fun driven => input (h.drivenHigh col driven)

theorem pinsA (h : Tightens c i c' i') (hk : i.keyboard.Consistent) (hk' : i'.keyboard.Consistent) :
    c'.pinsA i' ⊆ c.pinsA i := by
  intro row high
  rw [mem_pinsA] at high ⊢
  constructor
  · exact fun low => high.1 (h.lowRows row low)
  · exact fun on pulled => high.2 (h.keyboardOn on) (h.pulledRows hk hk' row pulled)

theorem pinsB (h : Tightens c i c' i') (hk : i.keyboard.Consistent) (hk' : i'.keyboard.Consistent) :
    c'.pinsB i' ⊆ c.pinsB i := by
  intro col high
  rw [mem_pinsB] at high ⊢
  constructor
  · exact fun low => high.1 (h.lowCols col low)
  · exact fun on pulled => high.2 (h.keyboardOn on) (h.pulledCols hk hk' col pulled)

end Tightens

theorem pins_antitone (c c' : Chip) (i i' : Inputs) (hk : i.keyboard.Reachable)
    (hk' : i'.keyboard.Reachable) (h : Tightens c i c' i') :
    c'.pinsA i' ⊆ c.pinsA i ∧ c'.pinsB i' ⊆ c.pinsB i := by
  constructor
  · exact h.pinsA hk.consistent hk'.consistent
  · exact h.pinsB hk.consistent hk'.consistent

/-- Row zero and column seven are driven against each other through a pressed key, and the output wins.
Then a second row is driven low, a key and the latch join it to the column, and fire is pressed. -/
theorem pins_antitone_contention :
    let c : Chip := { portA := { data := 0xFE, ddr := 0x01 }, portB := { data := 0x80, ddr := 0x80 } }
    let c' : Chip := { c with portA := { data := 0xFC, ddr := 0x03 } }
    let i : Inputs := { keyboard := .replay [.set 0 7 true] }
    let i' : Inputs :=
      { keyboard := .replay [.set 0 7 true, .set 1 0 true, .shiftLock true]
        joysticks := { one := .hold Joystick.fire } }
    i.keyboard.Reachable ∧ i'.keyboard.Reachable ∧ Tightens c i c' i' ∧
    c'.pinsA i' ⊆ c.pinsA i ∧ c'.pinsB i' ⊆ c.pinsB i ∧
    7 ∈ c.pinsB i ∧ 7 ∉ c'.pinsB i' := by
  intro c c' i i'
  have before : i.keyboard.Reachable := ⟨_, rfl⟩
  have after : i'.keyboard.Reachable := ⟨_, rfl⟩
  have tightens : Tightens c i c' i' := by
    constructor
    · intro k hk
      rw [Keyboard.mem_replay] at hk ⊢
      revert k
      decide
    all_goals decide
  obtain ⟨portA, portB⟩ := pins_antitone c c' i i' before after tightens
  exact ⟨before, after, tightens, portA, portB, by decide, by decide⟩

end Chip

end Keyscan
