import Keyscan.Proofs.Pins.Joined

namespace Keyscan

def Inputs.ground (i : Inputs) (line : Fin 8) (on : Bool) : Inputs :=
  { i with joysticks.one.pressed := i.joysticks.one.pressed.put line on }

namespace Chip

variable {c : Chip} {i : Inputs} {col col' : Fin 8} {on : Bool}

theorem mem_lowCols_ground (hne : col' ≠ col) :
    col' ∈ c.lowCols (i.ground col on) ↔ col' ∈ c.lowCols i := by
  simp only [mem_lowCols, Inputs.ground, Joystick.pins, Byte.mem_or, Byte.mem_not, Byte.mem_put, hne,
    if_false]

theorem pinsA_ground (driven : col ∈ c.portB.drivenHigh) :
    c.pinsA (i.ground col on) = c.pinsA i := by
  have pulling : c.lowCols (i.ground col on) &&& ~~~c.portB.drivenHigh =
      c.lowCols i &&& ~~~c.portB.drivenHigh := by
    apply Byte.ext
    intro col'
    rw [Byte.mem_and, Byte.mem_and, Byte.mem_not]
    by_cases hne : col' = col
    · subst hne
      simp [driven]
    · rw [mem_lowCols_ground hne]
  rw [pinsA, pulledRows, pulling]
  rfl

theorem mem_pinsB_ground (hne : col' ≠ col)
    (apart : ¬(i.joysticks.keyboardOn = true ∧ i.keyboard.Joined (.col col) (.col col') ∧
      col' ∉ c.portB.drivenHigh)) :
    col' ∈ c.pinsB (i.ground col on) ↔ col' ∈ c.pinsB i := by
  rw [mem_pinsB, mem_pinsB, mem_lowCols_ground hne]
  apply and_congr_right
  intro _
  apply imp_congr_right
  intro keyboardOn
  rw [mem_pulledCols, mem_pulledCols]
  apply not_congr
  apply or_congr .rfl
  apply exists_congr
  intro d
  by_cases hd : d = col
  · subst hd
    have unpulled : ¬(.col col' ∈ i.keyboard.reach (.col d) ∧ col' ∉ c.portB.drivenHigh) := by
      rw [Keyboard.mem_reach]
      exact fun h => apart ⟨keyboardOn, h⟩
    exact iff_of_false (fun h => unpulled h.2) (fun h => unpulled h.2)
  · rw [mem_lowCols_ground hd]
    rfl

theorem not_mem_pinsB_of_grounded (grounded : col ∉ i.joysticks.one.pins)
    (keyboardOn : i.joysticks.keyboardOn = true)
    (joined : i.keyboard.Joined (.col col) (.col col')) (input : col' ∉ c.portB.drivenHigh) :
    col' ∉ c.pinsB i := by
  rw [not_mem_pinsB keyboardOn input]
  refine ⟨.col col, ?_, joined⟩
  exact mem_lowCols.2 fun _ => grounded

theorem ground_driven_column (c : Chip) (i : Inputs) (col : Fin 8) (on : Bool)
    (driven : col ∈ c.portB.drivenHigh) :
    c.pinsA (i.ground col on) = c.pinsA i ∧
    (∀ col' ≠ col,
      ¬(i.joysticks.keyboardOn = true ∧ i.keyboard.Joined (.col col) (.col col') ∧
        col' ∉ c.portB.drivenHigh) →
      (col' ∈ c.pinsB (i.ground col on) ↔ col' ∈ c.pinsB i)) ∧
    (∀ col', i.joysticks.keyboardOn = true → i.keyboard.Joined (.col col) (.col col') →
      col' ∉ c.portB.drivenHigh → col ∉ i.joysticks.one.pins → col' ∉ c.pinsB i) := by
  refine ⟨pinsA_ground driven, ?_, ?_⟩
  · intro col' hne apart
    exact mem_pinsB_ground hne apart
  · intro col' keyboardOn joined input grounded
    exact not_mem_pinsB_of_grounded grounded keyboardOn joined input

def bridged : Inputs where
  keyboard := .replay [.set 0 0 true, .set 0 1 true]

def drivingColumnZero : Chip where
  portB := { data := 1, ddr := 1 }

theorem ground_driven_column_bridged :
    (0 : Fin 8) ∈ drivingColumnZero.portB.drivenHigh ∧
    drivingColumnZero.pinsA ((bridged.ground 0 true).ground 0 false) =
      drivingColumnZero.pinsA (bridged.ground 0 true) ∧
    (2 ∈ drivingColumnZero.pinsB ((bridged.ground 0 true).ground 0 false) ↔
      2 ∈ drivingColumnZero.pinsB (bridged.ground 0 true)) ∧
    1 ∉ drivingColumnZero.pinsB (bridged.ground 0 true) := by
  obtain ⟨portA, apart, pulled⟩ := ground_driven_column drivingColumnZero
    (bridged.ground 0 true) 0 false (by decide)
  refine ⟨by decide, portA, apart 2 (by decide) ?_, ?_⟩
  · rw [← Keyboard.mem_reach]
    decide
  · exact pulled 1 rfl (Keyboard.mem_reach.1 (by decide)) (by decide) (by decide)

theorem grounded_output_pulls_input :
    ¬∀ (c : Chip) (i : Inputs) (col : Fin 8) (on : Bool), col ∈ c.portB.drivenHigh →
      c.pinsA (i.ground col on) = c.pinsA i ∧
      ∀ col' ≠ col, (col' ∈ c.pinsB (i.ground col on) ↔ col' ∈ c.pinsB i) := by
  intro h
  have portB := (h drivingColumnZero bridged 0 true (by decide)).2 1 (by decide)
  revert portB
  decide

end Chip

end Keyscan
