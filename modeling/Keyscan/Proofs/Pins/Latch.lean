import Keyscan.Proofs.Pins.Levels

namespace Keyscan

namespace Keyboard

def shifted (m : Keyboard) : Keyboard := (m.setShiftLock false).set .shiftLock true

theorem row_setShiftLock (m : Keyboard) (on : Bool) (r : Fin 8) :
    (m.setShiftLock on).row r = m.row r := rfl

theorem col_setShiftLock (m : Keyboard) (on : Bool) (c : Fin 8) :
    (m.setShiftLock on).col c = m.col c := rfl

theorem rowContacts_shifted (m : Keyboard) (r : Fin 8) :
    m.shifted.rowContacts r = (m.setShiftLock true).rowContacts r := by
  apply Byte.ext
  intro c
  by_cases hr : r = Key.shiftLock.row <;> by_cases hc : c = Key.shiftLock.col <;>
    simp [rowContacts, shifted, row_setShiftLock, hr, hc]

theorem colContacts_shifted (m : Keyboard) (c : Fin 8) :
    m.shifted.colContacts c = (m.setShiftLock true).colContacts c := by
  apply Byte.ext
  intro r
  by_cases hr : r = Key.shiftLock.row <;> by_cases hc : c = Key.shiftLock.col <;>
    simp [colContacts, shifted, col_setShiftLock, hr, hc]

theorem closed_setShiftLock {m : Keyboard} {k : Key} :
    (m.setShiftLock true).Closed k ↔ k = .shiftLock ∨ k ∈ m := by
  rw [Closed, mem_setShiftLock, shiftLock_setShiftLock, or_comm, eq_self, true_and]

theorem closed_shifted {m : Keyboard} {k : Key} : m.shifted.Closed k ↔ k = .shiftLock ∨ k ∈ m := by
  by_cases hk : k = .shiftLock <;> simp [Closed, shifted, hk]

theorem contacts_shifted (m : Keyboard) (l : Line) :
    m.shifted.contacts l = (m.setShiftLock true).contacts l := by
  cases l with
  | row r => rw [contacts, contacts, rowContacts_shifted]
  | col c => rw [contacts, contacts, colContacts_shifted]

end Keyboard

namespace Inputs

def latched (i : Inputs) : Inputs := { i with keyboard := i.keyboard.setShiftLock true }

def shifted (i : Inputs) : Inputs := { i with keyboard := i.keyboard.shifted }

@[simp] theorem joysticks_latched (i : Inputs) : i.latched.joysticks = i.joysticks := rfl

@[simp] theorem joysticks_shifted (i : Inputs) : i.shifted.joysticks = i.joysticks := rfl

theorem joined_shifted (i : Inputs) (l l' : Line) :
    i.shifted.keyboard.Joined l l' ↔ i.latched.keyboard.Joined l l' :=
  Keyboard.joined_congr i.keyboard.contacts_shifted

end Inputs

namespace Chip

variable {c : Chip} {i : Inputs} {col : Fin 8}

theorem low_shifted {l : Line} : c.Low i.shifted l ↔ c.Low i.latched l := by
  cases l <;> rfl

theorem outnumbered_shifted : c.Outnumbered i.shifted col ↔ c.Outnumbered i.latched col := by
  simp only [Outnumbered, Drives, i.joined_shifted]

theorem not_locked_shifted : ¬c.Locked i.shifted col := fun locked => Bool.false_ne_true locked.1

theorem not_mem_pinsB_latched : col ∉ c.pinsB i.latched ↔ col ∉ c.pinsB i.shifted ∨
    i.joysticks.keyboardOn = true ∧ col ∈ c.portB.drivenHigh ∧ c.Locked i.latched col := by
  rw [not_mem_pinsB_iff, not_mem_pinsB_iff, overpowered_iff, overpowered_iff]
  simp only [low_shifted, outnumbered_shifted, i.joined_shifted, not_locked_shifted, or_false,
    Inputs.joysticks_latched, Inputs.joysticks_shifted, and_or_left, or_assoc]

theorem mem_pinsB_shifted (on : i.joysticks.keyboardOn = true) (driven : col ∈ c.portB.drivenHigh)
    (locked : c.Locked i.latched col) :
    col ∈ c.pinsB i.shifted ↔ col ∈ i.joysticks.one.pins ∧ ¬c.Outnumbered i.latched col := by
  have low : c.Low i.shifted (.col col) ↔ col ∉ i.joysticks.one.pins :=
    low_iff.trans (mem_lowCols_of_driven driven)
  have row : ∃ row, c.Low i.shifted (.row row) ∧ i.shifted.keyboard.Joined (.row row) (.col col) :=
    ⟨_, low_shifted.2 locked.2.1, (i.joined_shifted _ _).2 locked.2.2⟩
  rw [← not_iff_not, not_and_or, not_not, not_mem_pinsB_iff, overpowered_iff, low,
    outnumbered_shifted]
  simp [on, driven, row, not_locked_shifted]

theorem mem_xor_latched : col ∈ c.pinsB i.shifted ^^^ c.pinsB i.latched ↔
    col ∈ c.pinsB i.shifted ∧
      i.joysticks.keyboardOn = true ∧ col ∈ c.portB.drivenHigh ∧ c.Locked i.latched col := by
  rw [Byte.mem_xor]
  constructor
  · intro differs
    by_cases high : col ∈ c.pinsB i.shifted
    · have low : col ∉ c.pinsB i.latched := fun both => differs (iff_of_true high both)
      exact ⟨high, (not_mem_pinsB_latched.1 low).resolve_left (not_not_intro high)⟩
    · exact absurd (iff_of_false high (not_mem_pinsB_latched.2 (.inl high))) differs
  · rintro ⟨high, locked⟩ same
    exact not_mem_pinsB_latched.2 (.inr locked) (same.1 high)

def opponents (c : Chip) (i : Inputs) (col : Fin 8) : Set (Fin 8) :=
  {row | row ∈ c.portA.drivenLow ∧ i.keyboard.Linked (.row row) (.col col)}

theorem drives_iff (hk : i.keyboard.Consistent) {row : Fin 8} :
    c.Drives i row col ↔ row ∈ c.opponents i col := by
  have turn : i.keyboard.Joined (.col col) (.row row) ↔ i.keyboard.Joined (.row row) (.col col) :=
    ⟨.symm hk, .symm hk⟩
  exact and_congr_right' (turn.trans hk.joined_iff)

theorem not_outnumbered_iff (hk : i.keyboard.Consistent) :
    ¬c.Outnumbered i col ↔ (c.opponents i col).Subsingleton := by
  simp only [Outnumbered, drives_iff hk]
  constructor
  · intro few row opposes row' opposes'
    by_contra other
    exact few ⟨row, row', other, opposes, opposes'⟩
  · rintro one ⟨row, row', other, opposes, opposes'⟩
    exact other (one opposes opposes')

theorem mem_xor_latched_iff : col ∈ c.pinsB i.shifted ^^^ c.pinsB i.latched ↔
    i.joysticks.keyboardOn = true ∧ col ∈ c.portB.drivenHigh ∧ col ∈ i.joysticks.one.pins ∧
      c.Low i.latched (.row Key.shiftLock.row) ∧
      i.latched.keyboard.Joined (.row Key.shiftLock.row) (.col col) ∧ ¬c.Outnumbered i.latched col := by
  rw [mem_xor_latched]
  constructor
  · rintro ⟨high, on, driven, locked⟩
    obtain ⟨free, few⟩ := (mem_pinsB_shifted on driven locked).1 high
    exact ⟨on, driven, free, locked.2.1, locked.2.2, few⟩
  · rintro ⟨on, driven, free, low, joined, few⟩
    have locked : c.Locked i.latched col := ⟨rfl, low, joined⟩
    exact ⟨(mem_pinsB_shifted on driven locked).2 ⟨free, few⟩, on, driven, locked⟩

/-- SHIFT LOCK beside the left shift key, with any other keys down, and that key too or not. The same contacts
are closed. An output of port B tells the two apart when row one pulls it down and port A does not drive two
rows low against it. -/
theorem latch_is_left_shift (c : Chip) (i : Inputs) :
    (∀ k, (i.shifted.keyboard.Closed k ↔ k = .shiftLock ∨ k ∈ i.keyboard) ∧
      (i.latched.keyboard.Closed k ↔ k = .shiftLock ∨ k ∈ i.keyboard)) ∧
    (∀ r, i.shifted.keyboard.rowContacts r = i.latched.keyboard.rowContacts r) ∧
    (∀ d, i.shifted.keyboard.colContacts d = i.latched.keyboard.colContacts d) ∧
    (∀ l, i.shifted.keyboard.reach l = i.latched.keyboard.reach l) ∧
    c.pinsA i.shifted = c.pinsA i.latched ∧
    (i.keyboard.Reachable → ∀ col, col ∈ c.pinsB i.shifted ^^^ c.pinsB i.latched ↔
      i.joysticks.keyboardOn = true ∧ col ∈ c.portB.drivenHigh ∧ col ∈ i.joysticks.one.pins ∧
        c.Low i.latched (.row Key.shiftLock.row) ∧
        i.latched.keyboard.Linked (.row Key.shiftLock.row) (.col col) ∧
        (c.opponents i.latched col).Subsingleton) ∧
    ∀ col, col ∈ c.pinsB i.shifted ^^^ c.pinsB i.latched →
      col ∈ c.pinsB i.shifted ∧ col ∉ c.pinsB i.latched := by
  refine ⟨fun _ => ⟨Keyboard.closed_shifted, Keyboard.closed_setShiftLock⟩,
    i.keyboard.rowContacts_shifted, i.keyboard.colContacts_shifted, ?_, ?_, ?_, ?_⟩
  · exact congrFun (Keyboard.reach_congr i.joined_shifted)
  · exact pinsA_congr rfl i.joined_shifted
  · intro hk col
    have consistent : i.latched.keyboard.Consistent := hk.consistent.setShiftLock
    rw [mem_xor_latched_iff, consistent.joined_iff, not_outnumbered_iff consistent]
  · intro col differs
    obtain ⟨high, locked⟩ := mem_xor_latched.1 differs
    exact ⟨high, not_mem_pinsB_latched.2 (.inr locked)⟩

def keysAcross : Inputs where
  keyboard := .replay [.set 0 7 true, .set 0 5 true]

def drivingAcross (rows : Byte) : Chip where
  portA := { data := ~~~rows, ddr := 0xFF }
  portB := { data := 0x20, ddr := 0x20 }

theorem latch_is_left_shift_drivingAcross :
    keysAcross.keyboard.Reachable ∧
    keysAcross.latched.keyboard.Linked (.row 1) (.col 5) ∧
    (drivingAcross 0x02).pinsA keysAcross.shifted = (drivingAcross 0x02).pinsA keysAcross.latched ∧
    5 ∈ (drivingAcross 0x02).pinsB keysAcross.shifted ∧
    5 ∉ (drivingAcross 0x02).pinsB keysAcross.latched ∧
    5 ∉ (drivingAcross 0x03).pinsB keysAcross.shifted ^^^
      (drivingAcross 0x03).pinsB keysAcross.latched := by
  have reachable : keysAcross.keyboard.Reachable := ⟨_, rfl⟩
  have near : keysAcross.latched.keyboard.Linked (.row 0) (.col 5) :=
    .toCol (k := ⟨0, 5⟩) .refl (by decide)
  have across : keysAcross.latched.keyboard.Linked (.row 1) (.col 5) :=
    .toCol (k := ⟨0, 5⟩)
      (.toRow (k := ⟨0, 7⟩) (.toCol (k := .shiftLock) .refl (by decide)) (by decide)) (by decide)
  obtain ⟨-, -, -, -, portA, one_iff, one⟩ := latch_is_left_shift (drivingAcross 0x02) keysAcross
  have alone : ((drivingAcross 0x02).opponents keysAcross.latched 5).Subsingleton := by
    rintro row ⟨driven, -⟩ row' ⟨driven', -⟩
    revert row row'
    decide
  have locked :=
    (one_iff reachable 5).2 ⟨rfl, by decide, by decide, low_of_driven (by decide), across, alone⟩
  refine ⟨reachable, across, portA, (one 5 locked).1, (one 5 locked).2, ?_⟩
  -- With row zero driven as well, the key overpowers the output just as the latch does.
  obtain ⟨-, -, -, -, -, two_iff, -⟩ := latch_is_left_shift (drivingAcross 0x03) keysAcross
  intro differs
  obtain ⟨-, -, -, -, -, few⟩ := (two_iff reachable 5).1 differs
  have same : (0 : Fin 8) = 1 := few ⟨by decide, near⟩ ⟨by decide, across⟩
  exact absurd same (by decide)

end Chip

end Keyscan
