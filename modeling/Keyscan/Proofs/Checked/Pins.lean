import Keyscan.Chip.Pins
import Keyscan.Proofs.Checked.Flood

namespace Keyscan.Checked

def pullA (c : Chip) (i : Inputs) : Except Trap Byte := do
  let colLow := c.portB.level &&& i.joysticks.pins 1
  let rowLow := c.portA.level &&& i.joysticks.pins 2
  let heldHigh := c.portB.drivenHigh
  let val ← eachLine (fun val col => do
    let bit ← one col
    if colLow &&& bit = 0 ∧ heldHigh &&& bit = 0 then
      return val &&& ~~~(← reach i.keyboard (.col (.ofNat 8 col))).rows
    else
      return val) 0xFF
  eachLine (fun val row => do
    if rowLow &&& (← one row) = 0 then
      return val &&& ~~~(← reach i.keyboard (.row (.ofNat 8 row))).rows
    else
      return val) val

def contend (c : Chip) (i : Inputs) (row : Nat) (contended val : Byte) : Except Trap Byte :=
  eachLine (fun val col => do
    let bit ← one col
    if contended &&& bit = 0 then
      return val
    else
      let drivingRows := (← reach i.keyboard (.col (.ofNat 8 col))).rows &&& c.portA.drivenLow
      if (row = Key.shiftLock.row ∧ i.keyboard.shiftLock) ∨ 2 ≤ drivingRows.count then
        return val &&& ~~~bit
      else
        return val) val

def pullB (c : Chip) (i : Inputs) : Except Trap Byte := do
  let rowLow := c.portA.level &&& i.joysticks.pins 2
  let colLow := c.portB.level &&& i.joysticks.pins 1
  let heldHigh := c.portB.drivenHigh
  let val ← eachLine (fun val row => do
    if rowLow &&& (← one row) = 0 then
      let cols := (← reach i.keyboard (.row (.ofNat 8 row))).cols
      contend c i row (cols &&& heldHigh) (val &&& ~~~(cols &&& ~~~heldHigh))
    else
      return val) 0xFF
  eachLine (fun val col => do
    if colLow &&& (← one col) = 0 then
      return val &&& ~~~((← reach i.keyboard (.col (.ofNat 8 col))).cols &&& ~~~heldHigh)
    else
      return val) val

def pins (on : Bool) (pull : Except Trap Byte) (level joystick : Byte) : Except Trap Byte := do
  let val ← if on then pull else .ok 0xFF
  return val &&& level &&& joystick

def pinsA (c : Chip) (i : Inputs) : Except Trap Byte :=
  pins i.joysticks.keyboardOn (pullA c i) c.portA.level (i.joysticks.pins 2)

def pinsB (c : Chip) (i : Inputs) : Except Trap Byte :=
  pins i.joysticks.keyboardOn (pullB c i) c.portB.level (i.joysticks.pins 1)

variable {c : Chip} {i : Inputs}

theorem low_row_iff {row : Fin 8} :
    row ∉ c.portA.level &&& i.joysticks.pins 2 ↔ row ∈ c.lowRows i := Byte.mem_not.symm

theorem low_col_iff {col : Fin 8} :
    col ∉ c.portB.level &&& i.joysticks.pins 1 ↔ col ∈ c.lowCols i := Byte.mem_not.symm

theorem reach_row (m : Keyboard) (row : Fin 8) :
    reach m (.row (.ofNat 8 row)) = .ok (m.reach (.row row)) := reach_of m (.row row)

theorem reach_col (m : Keyboard) (col : Fin 8) :
    reach m (.col (.ofNat 8 col)) = .ok (m.reach (.col col)) := reach_of m (.col col)

theorem and_not_and_not (val a b : Byte) : val &&& ~~~a &&& ~~~b = val &&& ~~~(a ||| b) := by
  rw [BitVec.and_assoc, BitVec.not_or]

theorem full_and (val : Byte) : 0xFF &&& val = val := BitVec.allOnes_and

theorem pullA_eq (c : Chip) (i : Inputs) : pullA c i = .ok (~~~c.pulledRows i) := by
  rw [pullA, eachLine_clear (s := c.lowCols i &&& ~~~c.portB.drivenHigh)
    (f := fun col => (i.keyboard.reach (.col col)).rows)]
  · simp only [bind, Except.bind]
    rw [eachLine_clear (s := c.lowRows i) (f := fun row => (i.keyboard.reach (.row row)).rows),
      and_not_and_not, full_and]
    · rfl
    · intro val row
      simp only [one_fin, and_bit_eq_zero, low_row_iff, reach_row]
      split <;> rfl
  · intro val col
    simp only [one_fin, and_bit_eq_zero, low_col_iff, reach_col, bind, Except.bind]
    simp only [Byte.mem_and, Byte.mem_not]
    split <;> rfl

theorem contend_eq (c : Chip) (i : Inputs) (row : Fin 8) (contended val : Byte) :
    contend c i row contended val = .ok (val &&& ~~~Byte.filter contended (c.overpowers i row)) := by
  rw [contend, Byte.filter]
  apply eachLine_clear
  intro val col
  simp only [one_fin, and_bit_eq_zero, reach_col, bind, Except.bind, ite_not, Chip.overpowers,
    decide_eq_true_iff, ← Fin.ext_iff]
  split
  · split
    · rfl
    · exact congrArg Except.ok (BitVec.and_allOnes (x := val)).symm
  · rfl

theorem pullB_eq (c : Chip) (i : Inputs) : pullB c i = .ok (~~~c.pulledCols i) := by
  rw [pullB, eachLine_clear (s := c.lowRows i) (f := fun row =>
    let cols := (i.keyboard.reach (.row row)).cols
    cols &&& ~~~c.portB.drivenHigh ||| Byte.filter (cols &&& c.portB.drivenHigh) (c.overpowers i row))]
  · simp only [bind, Except.bind]
    rw [eachLine_clear (s := c.lowCols i)
      (f := fun col => (i.keyboard.reach (.col col)).cols &&& ~~~c.portB.drivenHigh),
      and_not_and_not, full_and]
    · rfl
    · intro val col
      simp only [one_fin, and_bit_eq_zero, low_col_iff, reach_col]
      split <;> rfl
  · intro val row
    simp only [one_fin, and_bit_eq_zero, low_row_iff, reach_row, bind, Except.bind, contend_eq, and_not_and_not]
    split <;> rfl

theorem pins_ok (on : Bool) (pulled level joystick : Byte) :
    pins on (.ok (~~~pulled)) level joystick =
      .ok (~~~(~~~(level &&& joystick) ||| if on then pulled else 0)) := by
  have full : ~~~(0 : Byte) = 0xFF := rfl
  rw [BitVec.not_or, BitVec.not_not, BitVec.and_comm _ (~~~_), ← BitVec.and_assoc]
  cases on with
  | true => rfl
  | false => exact congrArg (fun val => Except.ok (val &&& level &&& joystick)) full.symm

theorem pinsA_eq (c : Chip) (i : Inputs) : pinsA c i = .ok (c.pinsA i) := by
  rw [pinsA, pullA_eq, pins_ok]
  rfl

theorem pinsB_eq (c : Chip) (i : Inputs) : pinsB c i = .ok (c.pinsB i) := by
  rw [pinsB, pullB_eq, pins_ok]
  rfl

end Keyscan.Checked
