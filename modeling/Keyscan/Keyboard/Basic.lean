import Keyscan.Keyboard.Key
import Keyscan.Line

/-! The keyboard as a store of closed contacts. Each contact is kept twice, by row and by column, so
that either kind of line finds its contacts in one look-up; `Consistent` says that the two views agree.
The SHIFT LOCK latch is kept apart from the contacts. -/

namespace Keyscan

structure Keyboard where
  byRow : Vector Byte 8 := .replicate 8 0
  byCol : Vector Byte 8 := .replicate 8 0
  shiftLock : Bool := false
  deriving DecidableEq

namespace Keyboard

variable {m : Keyboard} {k k' : Key} {on : Bool}

def row (m : Keyboard) (r : Fin 8) : Byte := m.byRow[r]

def col (m : Keyboard) (c : Fin 8) : Byte := m.byCol[c]

theorem ext {m m' : Keyboard} (row : ∀ r, m.row r = m'.row r) (col : ∀ c, m.col c = m'.col c)
    (latch : m.shiftLock = m'.shiftLock) : m = m' := by
  cases m; cases m'
  congr 1
  · exact Vector.ext fun i hi => row ⟨i, hi⟩
  · exact Vector.ext fun i hi => col ⟨i, hi⟩

instance : Membership Key Keyboard := ⟨fun m k => k.col ∈ m.row k.row⟩

instance (k : Key) (m : Keyboard) : Decidable (k ∈ m) :=
  inferInstanceAs (Decidable (k.col ∈ m.row k.row))

theorem mem_def : k ∈ m ↔ k.col ∈ m.row k.row := .rfl

def Consistent (m : Keyboard) : Prop := ∀ r c, c ∈ m.row r ↔ r ∈ m.col c

instance (m : Keyboard) : Decidable m.Consistent :=
  inferInstanceAs (Decidable (∀ r c, c ∈ m.row r ↔ r ∈ m.col c))

theorem Consistent.mem_iff (h : m.Consistent) : k ∈ m ↔ k.row ∈ m.col k.col := h k.row k.col

theorem consistent_empty : Consistent {} := by
  intro r c; simp [row, col]

def set (m : Keyboard) (k : Key) (on : Bool) : Keyboard :=
  { m with
    byRow := m.byRow.set k.row (.put (m.row k.row) k.col on)
    byCol := m.byCol.set k.col (.put (m.col k.col) k.row on) }

@[simp] theorem shiftLock_set : (m.set k on).shiftLock = m.shiftLock := rfl

@[simp] theorem mem_row_set {r c : Fin 8} :
    c ∈ (m.set k on).row r ↔ if r = k.row ∧ c = k.col then on = true else c ∈ m.row r := by
  by_cases h : r = k.row
  · subst h; simp [row, set]
  · simp [row, set, Fin.val_inj, h, Ne.symm h]

@[simp] theorem mem_col_set {r c : Fin 8} :
    r ∈ (m.set k on).col c ↔ if r = k.row ∧ c = k.col then on = true else r ∈ m.col c := by
  by_cases h : c = k.col
  · subst h; simp [col, set]
  · simp [col, set, Fin.val_inj, h, Ne.symm h]

@[simp] theorem mem_set : k' ∈ m.set k on ↔ if k' = k then on = true else k' ∈ m := by
  cases k; cases k'
  simp [mem_def]

theorem Consistent.set (h : m.Consistent) : (m.set k on).Consistent := fun r c => by
  simp [h r c]

def releaseAll (m : Keyboard) : Keyboard := { shiftLock := m.shiftLock }

@[simp] theorem not_mem_releaseAll : k ∉ m.releaseAll := by
  simp [mem_def, row, releaseAll]

theorem consistent_releaseAll : m.releaseAll.Consistent := by
  intro r c; simp [row, col, releaseAll]

def setShiftLock (m : Keyboard) (on : Bool) : Keyboard := { m with shiftLock := on }

@[simp] theorem mem_setShiftLock : k ∈ m.setShiftLock on ↔ k ∈ m := .rfl

@[simp] theorem shiftLock_setShiftLock : (m.setShiftLock on).shiftLock = on := rfl

theorem Consistent.setShiftLock (h : m.Consistent) : (m.setShiftLock on).Consistent := h

def pressedCount (m : Keyboard) : Nat := Key.all.countP (· ∈ m)

def rowMask (m : Keyboard) (row : Byte) : Except Fault Byte :=
  (Line.index row).map m.row

def colMask (m : Keyboard) (col : Byte) : Except Fault Byte :=
  (Line.index col).map m.col

def isPressed (m : Keyboard) (row col : Byte) : Bool :=
  match Key.ofBytes row col with
  | .ok k => k ∈ m
  | .error _ => false

def setKey (m : Keyboard) (row col : Byte) (on : Bool) : Except Fault Keyboard :=
  (Key.ofBytes row col).map (m.set · on)

end Keyboard

end Keyscan
