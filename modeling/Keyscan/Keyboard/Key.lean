import Keyscan.Fault

namespace Keyscan

structure Key where
  row : Fin 8
  col : Fin 8
  deriving DecidableEq

namespace Key

/-- SHIFT LOCK is wired in parallel with the left shift key. -/
def shiftLock : Key := ⟨1, 7⟩

def index (k : Key) : Fin 64 := ⟨8 * k.row + k.col, by omega⟩

def ofIndex (i : Fin 64) : Key := ⟨⟨i / 8, by omega⟩, ⟨i % 8, by omega⟩⟩

@[simp] theorem ofIndex_index (k : Key) : ofIndex k.index = k := by
  cases k with
  | mk r c => simp only [index, ofIndex, mk.injEq, Fin.ext_iff]; omega

@[simp] theorem index_ofIndex (i : Fin 64) : (ofIndex i).index = i := by
  simp only [index, ofIndex, Fin.ext_iff]; omega

def all : List Key := (List.finRange 64).map ofIndex

theorem length_all : all.length = 64 := by rw [all, List.length_map, List.length_finRange]

theorem getElem?_all (k : Key) : all[(k.index : Nat)]? = some k := by
  simp [all]

theorem mem_all (k : Key) : k ∈ all :=
  List.mem_map.2 ⟨k.index, List.mem_finRange _, ofIndex_index k⟩

def ofBytes (row col : Byte) : Except Fault Key :=
  if h : row.toNat < 8 ∧ col.toNat < 8 then .ok ⟨⟨row.toNat, h.1⟩, ⟨col.toNat, h.2⟩⟩
  else .error (.position row col)

theorem ofBytes_eq_ok {row col : Byte} {k : Key} :
    ofBytes row col = .ok k ↔ row.toNat = k.row ∧ col.toNat = k.col := by
  unfold ofBytes
  split
  · cases k; simp [Fin.ext_iff]
  · simp; omega

theorem ofBytes_eq_error {row col : Byte} {e : Fault} :
    ofBytes row col = .error e ↔ (8 ≤ row.toNat ∨ 8 ≤ col.toNat) ∧ e = .position row col := by
  unfold ofBytes
  split
  · simp; omega
  · simp [eq_comm]; omega

end Key

end Keyscan
