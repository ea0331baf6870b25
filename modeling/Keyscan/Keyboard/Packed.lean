import Keyscan.Keyboard.Basic

namespace Keyscan.Keyboard

variable {m : Keyboard} {b : BitVec 64} {k : Key}

def toBits (m : Keyboard) : BitVec 64 :=
  (BitVec.ofBoolListLE (Key.all.map (· ∈ m))).cast (List.length_map _ |>.trans Key.length_all)

def ofBits (b : BitVec 64) : Keyboard where
  byRow := .ofFn fun r => .ofFn fun c => b.getLsbD (Key.index ⟨r, c⟩)
  byCol := .ofFn fun c => .ofFn fun r => b.getLsbD (Key.index ⟨r, c⟩)

theorem getLsbD_toBits : m.toBits.getLsbD k.index = true ↔ k ∈ m := by
  rw [toBits, BitVec.getLsbD_cast, BitVec.getLsbD_ofBoolListLE, List.getD_eq_getElem?_getD,
    List.getElem?_map, Key.getElem?_all, Option.map_some, Option.getD_some, decide_eq_true_iff]

theorem eq_of_getLsbD_index {b b' : BitVec 64}
    (h : ∀ k : Key, b.getLsbD k.index = b'.getLsbD k.index) : b = b' := by
  apply BitVec.eq_of_getLsbD_eq
  intro i hi
  have same := h (.ofIndex ⟨i, hi⟩)
  rwa [Key.index_ofIndex] at same

theorem row_ofBits {r : Fin 8} :
    (ofBits b).row r = .ofFn fun c => b.getLsbD (Key.index ⟨r, c⟩) := by
  simp [row, ofBits]

theorem col_ofBits {c : Fin 8} :
    (ofBits b).col c = .ofFn fun r => b.getLsbD (Key.index ⟨r, c⟩) := by
  simp [col, ofBits]

@[simp] theorem mem_ofBits : k ∈ ofBits b ↔ b.getLsbD k.index = true := by
  rw [mem_def, row_ofBits, Byte.mem_ofFn]

theorem consistent_ofBits : (ofBits b).Consistent := fun r c => by
  rw [row_ofBits, col_ofBits, Byte.mem_ofFn, Byte.mem_ofFn]

@[simp] theorem shiftLock_ofBits : (ofBits b).shiftLock = false := rfl

@[simp] theorem toBits_ofBits : (ofBits b).toBits = b :=
  eq_of_getLsbD_index fun k => by rw [Bool.eq_iff_iff, getLsbD_toBits, mem_ofBits]

end Keyscan.Keyboard
