import Keyscan.Chip.Basic
import Keyscan.Inputs

/-! Values on the pins. A line is low when its port or the joystick on it holds it low, and a low line
pulls down all that closed contacts join to it. Columns that port B drives high resist the pull. -/

namespace Keyscan.Chip

variable {c : Chip} {i : Inputs} {row col : Fin 8}

def lowRows (c : Chip) (i : Inputs) : Byte := ~~~(c.portA.level &&& i.joysticks.two.pins)

def lowCols (c : Chip) (i : Inputs) : Byte := ~~~(c.portB.level &&& i.joysticks.one.pins)

theorem mem_lowRows : row ∈ c.lowRows i ↔ row ∈ c.portA.level → row ∉ i.joysticks.two.pins := by
  rw [lowRows, Byte.mem_not, Byte.mem_and, not_and]

theorem mem_lowCols : col ∈ c.lowCols i ↔ col ∈ c.portB.level → col ∉ i.joysticks.one.pins := by
  rw [lowCols, Byte.mem_not, Byte.mem_and, not_and]

/-- Rows pulled down through the matrix. A column that port B drives high reads low only because of
the joystick, and the output keeps it off the matrix. -/
def pulledRows (c : Chip) (i : Inputs) : Byte :=
  Byte.gather (c.lowCols i &&& ~~~c.portB.drivenHigh) (fun col => (i.keyboard.reach (.col col)).rows)
    ||| Byte.gather (c.lowRows i) fun row => (i.keyboard.reach (.row row)).rows

/-- A column driven high gives way to a low row with SHIFT LOCK on it, or to two driven rows. -/
def overpowers (c : Chip) (i : Inputs) (row col : Fin 8) : Bool :=
  (row = Key.shiftLock.row ∧ i.keyboard.shiftLock)
    ∨ 2 ≤ Byte.count ((i.keyboard.reach (.col col)).rows &&& c.portA.drivenLow)

def pulledCols (c : Chip) (i : Inputs) : Byte :=
  let held := c.portB.drivenHigh
  (Byte.gather (c.lowRows i) fun row =>
      let cols := (i.keyboard.reach (.row row)).cols
      cols &&& ~~~held ||| Byte.filter (cols &&& held) (c.overpowers i row))
    ||| Byte.gather (c.lowCols i) fun col => (i.keyboard.reach (.col col)).cols &&& ~~~held

def pinsA (c : Chip) (i : Inputs) : Byte :=
  ~~~(c.lowRows i ||| if i.joysticks.keyboardOn then c.pulledRows i else 0)

def pinsB (c : Chip) (i : Inputs) : Byte :=
  ~~~(c.lowCols i ||| if i.joysticks.keyboardOn then c.pulledCols i else 0)

theorem mem_pulledRows : row ∈ c.pulledRows i ↔
    (∃ col, (col ∈ c.lowCols i ∧ col ∉ c.portB.drivenHigh) ∧
      .row row ∈ i.keyboard.reach (.col col)) ∨
    ∃ row' ∈ c.lowRows i, .row row ∈ i.keyboard.reach (.row row') := by
  simp only [pulledRows, Byte.mem_or, Byte.mem_gather, Byte.mem_and, Byte.mem_not, LineSet.row_mem]

theorem mem_pulledCols : col ∈ c.pulledCols i ↔
    (∃ row ∈ c.lowRows i, .col col ∈ i.keyboard.reach (.row row) ∧
      (col ∈ c.portB.drivenHigh → c.overpowers i row col = true)) ∨
    ∃ col' ∈ c.lowCols i, .col col ∈ i.keyboard.reach (.col col') ∧ col ∉ c.portB.drivenHigh := by
  simp only [pulledCols, Byte.mem_or, Byte.mem_gather, Byte.mem_and, Byte.mem_not, Byte.mem_filter,
    LineSet.col_mem]
  refine or_congr (exists_congr fun row => and_congr_right fun _ => ?_) .rfl
  by_cases h : col ∈ c.portB.drivenHigh <;> simp [h]

theorem mem_pinsA : row ∈ c.pinsA i ↔
    row ∉ c.lowRows i ∧ (i.joysticks.keyboardOn = true → row ∉ c.pulledRows i) := by
  cases h : i.joysticks.keyboardOn <;> simp [pinsA, h]

theorem mem_pinsB : col ∈ c.pinsB i ↔
    col ∉ c.lowCols i ∧ (i.joysticks.keyboardOn = true → col ∉ c.pulledCols i) := by
  cases h : i.joysticks.keyboardOn <;> simp [pinsB, h]

end Keyscan.Chip
