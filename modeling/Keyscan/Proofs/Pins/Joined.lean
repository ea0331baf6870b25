import Keyscan.Chip.Pins
import Keyscan.Proofs.Keyboard.Merge

namespace Keyscan

theorem Keyboard.Joined.reached_iff {m : Keyboard} {l l' : Line} (h : m.Joined l l')
    (hm : m.Consistent) (s : LineSet) :
    (∃ k ∈ s, m.Joined k l) ↔ ∃ k ∈ s, m.Joined k l' := by
  constructor
  · rintro ⟨k, hk, hj⟩
    exact ⟨k, hk, hj.trans h⟩
  · rintro ⟨k, hk, hj⟩
    exact ⟨k, hk, hj.trans (h.symm hm)⟩

namespace Chip

variable {c : Chip} {i i' : Inputs} {row col : Fin 8}

theorem pinsA_congr (sticks : i.joysticks = i'.joysticks)
    (joined : ∀ l l', i.keyboard.Joined l l' ↔ i'.keyboard.Joined l l') : c.pinsA i = c.pinsA i' := by
  simp only [pinsA, pulledRows, lowRows, lowCols, sticks, Keyboard.reach_congr joined]

theorem pinsB_congr (sticks : i.joysticks = i'.joysticks)
    (latch : i.keyboard.shiftLock = i'.keyboard.shiftLock)
    (joined : ∀ l l', i.keyboard.Joined l l' ↔ i'.keyboard.Joined l l') : c.pinsB i = c.pinsB i' := by
  have overpowers : c.overpowers i = c.overpowers i' := by
    funext row col
    simp only [Chip.overpowers, latch, Keyboard.reach_congr joined]
  simp only [pinsB, pulledCols, lowRows, lowCols, sticks, overpowers, Keyboard.reach_congr joined]

def lowLines (c : Chip) (i : Inputs) : LineSet := ⟨c.lowRows i, c.lowCols i⟩

/-- Low lines that pull rows down; an output kept high does not let its column pull. -/
def rowPullers (c : Chip) (i : Inputs) : LineSet :=
  ⟨c.lowRows i, c.lowCols i &&& ~~~c.portB.drivenHigh⟩

theorem not_mem_pinsA (on : i.joysticks.keyboardOn = true) :
    row ∉ c.pinsA i ↔ ∃ l ∈ c.rowPullers i, i.keyboard.Joined l (.row row) := by
  simp only [mem_pinsA, mem_pulledRows, Keyboard.mem_reach, on, true_imp_iff, not_and_or, not_not]
  simp only [Line.exists_iff, rowPullers, LineSet.row_mem, LineSet.col_mem, Byte.mem_and,
    Byte.mem_not]
  constructor
  · rintro (low | cols | rows)
    · exact .inl ⟨row, low, .refl⟩
    · exact .inr cols
    · exact .inl rows
  · rintro (rows | cols)
    · exact .inr (.inr rows)
    · exact .inr (.inl cols)

theorem not_mem_pinsB (on : i.joysticks.keyboardOn = true) (input : col ∉ c.portB.drivenHigh) :
    col ∉ c.pinsB i ↔ ∃ l ∈ c.lowLines i, i.keyboard.Joined l (.col col) := by
  simp only [mem_pinsB, mem_pulledCols, Keyboard.mem_reach, on, input, true_imp_iff, false_imp_iff,
    not_false_eq_true, and_true, not_and_or, not_not]
  simp only [Line.exists_iff, lowLines, LineSet.row_mem, LineSet.col_mem]
  constructor
  · rintro (low | rows | cols)
    · exact .inr ⟨col, low, .refl⟩
    · exact .inl rows
    · exact .inr cols
  · rintro (rows | cols)
    · exact .inr (.inl rows)
    · exact .inr (.inr cols)

theorem mem_lowLines_of_rowPullers {l : Line} (h : l ∈ c.rowPullers i) : l ∈ c.lowLines i := by
  cases l with
  | row r => exact h
  | col d => exact (Byte.mem_and.1 h).1

theorem mem_lowCols_of_driven (driven : col ∈ c.portB.drivenHigh) :
    col ∈ c.lowCols i ↔ col ∉ i.joysticks.one.pins := by
  have level : col ∈ c.portB.level := Port.mem_level.2 (.inl (Port.mem_drivenHigh.1 driven).1)
  rw [mem_lowCols, forall_prop_of_true level]

theorem mem_rowPullers_of_lowLines {l : Line} (h : l ∈ c.lowLines i)
    (free : ∀ d, l = .col d → d ∈ c.portB.drivenHigh → d ∈ i.joysticks.one.pins) :
    l ∈ c.rowPullers i := by
  cases l with
  | row r => exact h
  | col d =>
    apply Byte.mem_and.2
    refine ⟨h, Byte.mem_not.2 ?_⟩
    intro driven
    exact (mem_lowCols_of_driven driven).1 h (free d rfl driven)

theorem joined_lines_agree (c : Chip) (i : Inputs) (hk : i.keyboard.Reachable)
    (on : i.joysticks.keyboardOn = true) :
    (∀ row row', i.keyboard.Joined (.row row) (.row row') →
      (row ∈ c.pinsA i ↔ row' ∈ c.pinsA i)) ∧
    (∀ col col', i.keyboard.Joined (.col col) (.col col') →
      col ∉ c.portB.drivenHigh → col' ∉ c.portB.drivenHigh →
      (col ∈ c.pinsB i ↔ col' ∈ c.pinsB i)) ∧
    (∀ row col, i.keyboard.Joined (.row row) (.col col) → col ∉ c.portB.drivenHigh →
      (row ∉ c.pinsA i → col ∉ c.pinsB i) ∧
      ((¬∃ col', i.keyboard.Joined (.col col) (.col col') ∧ col' ∈ c.portB.drivenHigh ∧
          col' ∉ i.joysticks.one.pins) →
        col ∉ c.pinsB i → row ∉ c.pinsA i)) := by
  have consistent : i.keyboard.Consistent := hk.consistent
  refine ⟨?_, ?_, ?_⟩
  · intro row row' h
    rw [← not_iff_not, not_mem_pinsA on, not_mem_pinsA on]
    exact h.reached_iff consistent _
  · intro col col' h input input'
    rw [← not_iff_not, not_mem_pinsB on input, not_mem_pinsB on input']
    exact h.reached_iff consistent _
  · intro row col h input
    rw [not_mem_pinsA on, not_mem_pinsB on input, h.reached_iff consistent]
    constructor
    · rintro ⟨l, hl, hj⟩
      exact ⟨l, mem_lowLines_of_rowPullers hl, hj⟩
    · rintro free ⟨l, hl, hj⟩
      refine ⟨l, mem_rowPullers_of_lowLines hl ?_, hj⟩
      rintro d rfl driven
      by_contra grounded
      exact free ⟨d, hj.symm consistent, driven, grounded⟩

/-- Three keys join two rows, and one of the rows is driven low. Fire grounds an output that they do not
join. -/
theorem joined_lines_agree_ghost :
    let c : Chip := { portA := { data := 0xFD, ddr := 0xFF }, portB := { data := 0x10, ddr := 0x10 } }
    let i : Inputs :=
      { keyboard := .replay [.set 0 0 true, .set 0 1 true, .set 1 1 true]
        joysticks := { one := .hold Joystick.fire } }
    i.keyboard.Reachable ∧ i.joysticks.keyboardOn = true ∧
    (0 ∈ c.pinsA i ↔ 1 ∈ c.pinsA i) ∧
    (0 ∈ c.pinsB i ↔ 1 ∈ c.pinsB i) ∧
    0 ∉ c.pinsB i ∧
    (∃ col, col ∈ c.portB.drivenHigh ∧ col ∉ i.joysticks.one.pins) ∧ 0 ∉ c.pinsA i := by
  intro c i
  have reachable : i.keyboard.Reachable := ⟨_, rfl⟩
  obtain ⟨rows, cols, both⟩ := joined_lines_agree c i reachable rfl
  have low : 0 ∉ c.pinsB i := (both 1 _ (Keyboard.mem_reach.1 (by decide)) (by decide)).1 (by decide)
  have apart : ¬∃ col, i.keyboard.Joined (.col 0) (.col col) ∧ col ∈ c.portB.drivenHigh ∧
      col ∉ i.joysticks.one.pins := by
    rintro ⟨col, joined, driven, -⟩
    rw [← Keyboard.mem_reach] at joined
    revert col
    decide
  refine ⟨reachable, rfl, ?_, ?_, low, ⟨4, by decide, by decide⟩, ?_⟩
  · exact rows _ _ (Keyboard.mem_reach.1 (by decide))
  · exact cols _ _ (Keyboard.mem_reach.1 (by decide)) (by decide) (by decide)
  · exact (both 0 0 (Keyboard.mem_reach.1 (by decide)) (by decide)).2 apart low

end Chip

end Keyscan
