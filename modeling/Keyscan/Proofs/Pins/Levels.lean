import Keyscan.Chip.Action
import Keyscan.Proofs.Pins.Contention

namespace Keyscan

theorem Byte.two_le_count {b : Byte} : 2 ≤ b.count ↔ ∃ j j', j ≠ j' ∧ j ∈ b ∧ j' ∈ b := by
  have card : b.indices.toFinset.card = b.count := List.toFinset_card_of_nodup b.nodup_indices
  rw [← card, Nat.succ_le_iff, Finset.one_lt_card]
  simp only [List.mem_toFinset, mem_indices]
  tauto

namespace Chip

variable {c : Chip} {i : Inputs} {row col : Fin 8} {l : Line}

def Low (c : Chip) (i : Inputs) : Line → Prop
  | .row row => row ∉ c.portA.level &&& i.joysticks.two.pins
  | .col col => col ∉ c.portB.level &&& i.joysticks.one.pins

/-- Port A drives the row low, and the column is joined to it. A row that only joystick two grounds does not
count. -/
def Drives (c : Chip) (i : Inputs) (row col : Fin 8) : Prop :=
  row ∈ c.portA.drivenLow ∧ i.keyboard.Joined (.col col) (.row row)

def Outnumbered (c : Chip) (i : Inputs) (col : Fin 8) : Prop :=
  ∃ row row', row ≠ row' ∧ c.Drives i row col ∧ c.Drives i row' col

def Locked (c : Chip) (i : Inputs) (col : Fin 8) : Prop :=
  i.keyboard.shiftLock = true ∧ c.Low i (.row Key.shiftLock.row) ∧
    i.keyboard.Joined (.row Key.shiftLock.row) (.col col)

theorem low_iff : c.Low i l ↔ l ∈ c.lowLines i := by
  cases l with
  | row row => exact Byte.mem_not.symm
  | col col => exact Byte.mem_not.symm

theorem low_of_driven (h : row ∈ c.portA.drivenLow) : c.Low i (.row row) := fun high =>
  Port.not_mem_level.2 h (Byte.mem_and.1 high).1

theorem overpowers_iff : c.overpowers i row col = true ↔
    (row = Key.shiftLock.row ∧ i.keyboard.shiftLock = true) ∨ c.Outnumbered i col := by
  rw [overpowers, decide_eq_true_iff, Byte.two_le_count]
  simp only [Byte.mem_and, ← LineSet.row_mem, Keyboard.mem_reach, Outnumbered, Drives, and_comm]

theorem overpowered_iff : c.Overpowered i col ↔
    (c.Outnumbered i col ∧ ∃ row, c.Low i (.row row) ∧ i.keyboard.Joined (.row row) (.col col)) ∨
      c.Locked i col := by
  simp only [Overpowered, overpowers_iff, low_iff, Locked, lowLines, LineSet.row_mem]
  constructor
  · rintro ⟨row, low, joined, ⟨rfl, latch⟩ | two⟩
    · exact .inr ⟨latch, low, joined⟩
    · exact .inl ⟨two, row, low, joined⟩
  · rintro (⟨two, row, low, joined⟩ | ⟨latch, low, joined⟩)
    · exact ⟨row, low, joined, .inr two⟩
    · exact ⟨_, low, joined, .inl ⟨rfl, latch⟩⟩

theorem overpowered_iff_of_consistent (hk : i.keyboard.Consistent) :
    c.Overpowered i col ↔ c.Outnumbered i col ∨ c.Locked i col := by
  rw [overpowered_iff, and_iff_left_of_imp]
  rintro ⟨row, -, -, ⟨driven, joined⟩, -⟩
  exact ⟨row, low_of_driven driven, joined.symm hk⟩

theorem not_mem_pinsB_iff : col ∉ c.pinsB i ↔
    c.Low i (.col col) ∨
    (i.joysticks.keyboardOn = true ∧ col ∉ c.portB.drivenHigh ∧
      ∃ l, c.Low i l ∧ i.keyboard.Joined l (.col col)) ∨
    i.joysticks.keyboardOn = true ∧ col ∈ c.portB.drivenHigh ∧ c.Overpowered i col := by
  by_cases on : i.joysticks.keyboardOn = true
  · by_cases driven : col ∈ c.portB.drivenHigh
    · simp [not_mem_pinsB_of_driven on driven, low_iff, lowLines, on, driven]
    · have itself : c.Low i (.col col) → ∃ l, c.Low i l ∧ i.keyboard.Joined l (.col col) :=
        fun low => ⟨_, low, .refl⟩
      simp only [not_mem_pinsB on driven, ← low_iff, on, driven, true_and, false_and, and_false,
        not_false_eq_true, or_false, or_iff_right_of_imp itself]
  · simp [mem_pinsB, on, low_iff, lowLines]

theorem mem_pinsB_stickTwo (hk : i.keyboard.Consistent) (driven : col ∈ c.portB.drivenHigh)
    (unlocked : ¬(i.keyboard.shiftLock = true ∧
      i.keyboard.Joined (.row Key.shiftLock.row) (.col col))) (stick : Joystick) :
    col ∈ c.pinsB { i with joysticks.two := stick } ↔ col ∈ c.pinsB i := by
  have free (i' : Inputs) (same : i'.keyboard = i.keyboard) : ¬c.Locked i' col := by
    rintro ⟨latch, -, joined⟩
    exact unlocked (same ▸ ⟨latch, joined⟩)
  rw [← not_iff_not, not_mem_pinsB_iff, not_mem_pinsB_iff, overpowered_iff_of_consistent hk,
    overpowered_iff_of_consistent (i := { i with joysticks.two := stick }) hk]
  simp only [driven, not_true_eq_false, false_and, and_false, false_or, true_and, or_false,
    free i rfl, free { i with joysticks.two := stick } rfl]
  rfl

theorem not_mem_pinsA_iff : row ∉ c.pinsA i ↔
    c.Low i (.row row) ∨
    i.joysticks.keyboardOn = true ∧
      ((∃ col, c.Low i (.col col) ∧ col ∉ c.portB.drivenHigh ∧
          i.keyboard.Joined (.col col) (.row row)) ∨
        ∃ row', c.Low i (.row row') ∧ i.keyboard.Joined (.row row') (.row row)) := by
  simp only [mem_pinsA, mem_pulledRows, Keyboard.mem_reach, not_and_or, not_not, Classical.not_imp,
    and_assoc]
  simp only [low_iff, lowLines, LineSet.row_mem, LineSet.col_mem]

/-- Port A reads a row low when the row is low of itself, or closed contacts link it to a low line that the
outputs of port B do not keep off the matrix. -/
theorem portA_low_iff (c : Chip) (i : Inputs) (hk : i.keyboard.Reachable) :
    (c.perform i (.read .pra)).1 = .byte (c.pinsA i) ∧
    ∀ row, row ∉ c.pinsA i ↔
      c.Low i (.row row) ∨
      i.joysticks.keyboardOn = true ∧
        ((∃ col, c.Low i (.col col) ∧ col ∉ c.portB.drivenHigh ∧
            i.keyboard.Linked (.col col) (.row row)) ∨
          ∃ row', c.Low i (.row row') ∧ i.keyboard.Linked (.row row') (.row row)) := by
  refine ⟨rfl, ?_⟩
  intro row
  simp only [not_mem_pinsA_iff, hk.consistent.joined_iff]

def threeRows : Inputs where
  keyboard := .replay [.set 3 2 true, .set 0 2 true, .set 0 7 true, .shiftLock true]

theorem portA_low_iff_threeRows :
    let c : Chip := { portA := { data := 0xF7, ddr := 0xFF } }
    threeRows.keyboard.Reachable ∧ c.Low threeRows (.row 3) ∧
    threeRows.keyboard.Linked (.row 3) (.row 1) ∧ 1 ∉ c.pinsA threeRows ∧
    5 ∈ c.pinsA threeRows ∧ ¬threeRows.keyboard.Linked (.row 3) (.row 5) := by
  intro c
  have reachable : threeRows.keyboard.Reachable := ⟨_, rfl⟩
  have driven : c.Low threeRows (.row 3) := low_of_driven (by decide)
  obtain ⟨-, low_iff⟩ := portA_low_iff c threeRows reachable
  have near : threeRows.keyboard.Linked (.row 3) (.row 0) :=
    .toRow (k := ⟨0, 2⟩) (.toCol (k := ⟨3, 2⟩) .refl (by decide)) (by decide)
  have far : threeRows.keyboard.Linked (.row 3) (.row 1) :=
    .toRow (k := .shiftLock) (.toCol (k := ⟨0, 7⟩) near (by decide)) (by decide)
  have high : 5 ∈ c.pinsA threeRows := by decide
  refine ⟨reachable, driven, far, (low_iff 1).2 (.inr ⟨rfl, .inr ⟨3, driven, far⟩⟩), high, ?_⟩
  intro linked
  exact (low_iff 5).2 (.inr ⟨rfl, .inr ⟨3, driven, linked⟩⟩) high

/-- Port B, for all registers and inputs, and that joystick two cannot help to outnumber an output. -/
theorem portB_low_iff (c : Chip) (i : Inputs) (hk : i.keyboard.Reachable) :
    (c.perform i (.read .prb)).1 = .byte (c.pinsB i) ∧
    (∀ col, col ∉ c.pinsB i ↔
      c.Low i (.col col) ∨
      (i.joysticks.keyboardOn = true ∧ col ∉ c.portB.drivenHigh ∧
        ∃ l, c.Low i l ∧ i.keyboard.Joined l (.col col)) ∨
      i.joysticks.keyboardOn = true ∧ col ∈ c.portB.drivenHigh ∧
        (c.Outnumbered i col ∨ c.Locked i col)) ∧
    ∀ col, col ∈ c.portB.drivenHigh →
      ¬(i.keyboard.shiftLock = true ∧ i.keyboard.Joined (.row Key.shiftLock.row) (.col col)) →
      ∀ stick, col ∈ c.pinsB { i with joysticks.two := stick } ↔ col ∈ c.pinsB i := by
  refine ⟨rfl, ?_, ?_⟩
  · intro col
    rw [not_mem_pinsB_iff, overpowered_iff_of_consistent hk.consistent]
  · intro col driven unlocked stick
    exact mem_pinsB_stickTwo hk.consistent driven unlocked stick

def columnOfThree : Inputs where
  keyboard := .replay [.set 2 3 true, .set 4 3 true, .set 6 3 true]
  joysticks := { two := .hold Joystick.fire }

def drivingRows (rows : Byte) : Chip where
  portA := { data := ~~~rows, ddr := 0xFF }
  portB := { data := 0x08, ddr := 0x08 }

theorem portB_low_iff_columnOfThree :
    columnOfThree.keyboard.Reachable ∧
    3 ∈ (drivingRows 0x04).portB.drivenHigh ∧
    ¬columnOfThree.keyboard.shiftLock = true ∧
    4 ∉ columnOfThree.joysticks.two.pins ∧
    3 ∈ (drivingRows 0x04).pinsB columnOfThree ∧ 3 ∉ (drivingRows 0x44).pinsB columnOfThree := by
  have reachable : columnOfThree.keyboard.Reachable := ⟨_, rfl⟩
  have driven : 3 ∈ (drivingRows 0x04).portB.drivenHigh := by decide
  have unlocked : ¬columnOfThree.keyboard.shiftLock = true := by decide
  refine ⟨reachable, driven, unlocked, by decide, ?_, ?_⟩
  · obtain ⟨-, -, stickTwo⟩ := portB_low_iff (drivingRows 0x04) columnOfThree reachable
    have idle : 3 ∈ (drivingRows 0x04).pinsB { columnOfThree with joysticks.two := {} } := by decide
    exact (stickTwo 3 driven (fun h => unlocked h.1) {}).1 idle
  · obtain ⟨-, low_iff, -⟩ := portB_low_iff (drivingRows 0x44) columnOfThree reachable
    have second : (drivingRows 0x44).Drives columnOfThree 2 3 :=
      ⟨by decide, Keyboard.mem_reach.1 (by decide)⟩
    have sixth : (drivingRows 0x44).Drives columnOfThree 6 3 :=
      ⟨by decide, Keyboard.mem_reach.1 (by decide)⟩
    exact (low_iff 3).2 (.inr (.inr ⟨rfl, driven, .inl ⟨2, 6, by decide, second, sixth⟩⟩))

end Chip

end Keyscan
