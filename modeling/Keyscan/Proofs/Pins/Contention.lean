import Keyscan.Proofs.Pins.Joined

namespace Keyscan.Chip

variable {c : Chip} {i : Inputs} {col : Fin 8}

def Overpowered (c : Chip) (i : Inputs) (col : Fin 8) : Prop :=
  ∃ row ∈ c.lowRows i, i.keyboard.Joined (.row row) (.col col) ∧ c.overpowers i row col = true

theorem not_mem_pinsB_of_driven (on : i.joysticks.keyboardOn = true)
    (driven : col ∈ c.portB.drivenHigh) :
    col ∉ c.pinsB i ↔ col ∈ c.lowCols i ∨ c.Overpowered i col := by
  simp only [mem_pinsB, mem_pulledCols, Keyboard.mem_reach, on, driven, true_imp_iff, not_true_eq_false,
    and_false, exists_false, or_false, not_and_or, not_not, Overpowered]

/-- A low column pulls down all columns joined to it but the outputs that port B drives high. These read
low when they are held low themselves, by joystick one, or when they are overpowered. -/
theorem low_column_pulls_inputs (c : Chip) (i : Inputs) (on : i.joysticks.keyboardOn = true)
    (col col' : Fin 8) (low : col ∉ c.portB.level &&& i.joysticks.one.pins)
    (joined : i.keyboard.Joined (.col col) (.col col')) :
    col' ∉ c.pinsB i ↔
      col' ∉ c.portB.drivenHigh ∨ col' ∉ c.portB.level &&& i.joysticks.one.pins ∨
        c.Overpowered i col' := by
  have low : col ∈ c.lowCols i := Byte.mem_not.2 low
  by_cases driven : col' ∈ c.portB.drivenHigh
  · rw [not_mem_pinsB_of_driven on driven, or_iff_right (not_not_intro driven), lowCols, Byte.mem_not]
  · apply iff_of_true
    · rw [not_mem_pinsB on driven]
      exact ⟨.col col, low, joined⟩
    · exact .inl driven

def rowOfThree : Inputs where
  keyboard := .replay [.set 0 0 true, .set 0 1 true, .set 0 2 true]

def drivingApart : Chip where
  portB := { data := 0x01, ddr := 0x03 }

theorem low_column_pulls_inputs_apart :
    rowOfThree.joysticks.keyboardOn = true ∧
    1 ∉ drivingApart.portB.level &&& rowOfThree.joysticks.one.pins ∧
    rowOfThree.keyboard.Joined (.col 1) (.col 0) ∧ rowOfThree.keyboard.Joined (.col 1) (.col 2) ∧
    0 ∈ drivingApart.pinsB rowOfThree ∧ 2 ∉ drivingApart.pinsB rowOfThree := by
  have low : 1 ∉ drivingApart.portB.level &&& rowOfThree.joysticks.one.pins := by decide
  have output : rowOfThree.keyboard.Joined (.col 1) (.col 0) := Keyboard.mem_reach.1 (by decide)
  have input : rowOfThree.keyboard.Joined (.col 1) (.col 2) := Keyboard.mem_reach.1 (by decide)
  have idle : ∀ row, row ∉ drivingApart.lowRows rowOfThree := by decide
  refine ⟨rfl, low, output, input, ?_, ?_⟩
  · by_contra pulled
    rcases (low_column_pulls_inputs _ _ rfl 1 0 low output).1 pulled with driven | held | ⟨row, h, -⟩
    · exact driven (by decide)
    · exact held (by decide)
    · exact idle row h
  · exact (low_column_pulls_inputs _ _ rfl 1 2 low input).2 (.inl (by decide))

theorem low_column_spares_output :
    ¬∀ (c : Chip) (i : Inputs), i.joysticks.keyboardOn = true →
      ∀ col col', col ∉ c.portB.level &&& i.joysticks.one.pins →
        i.keyboard.Joined (.col col) (.col col') → col' ∉ c.pinsB i := by
  intro h
  have joined : rowOfThree.keyboard.Joined (.col 1) (.col 0) := Keyboard.mem_reach.1 (by decide)
  have pulled : 0 ∉ drivingApart.pinsB rowOfThree :=
    h drivingApart rowOfThree rfl 1 0 (by decide) joined
  revert pulled
  decide

end Keyscan.Chip
