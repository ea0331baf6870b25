import Keyscan.Fault

namespace Keyscan

inductive Line
  | row : Fin 8 → Line
  | col : Fin 8 → Line
  deriving DecidableEq

def Line.index (b : Byte) : Except Fault (Fin 8) :=
  if h : b.toNat < 8 then .ok ⟨b.toNat, h⟩ else .error (.line b)

theorem Line.index_eq_ok {b : Byte} {i : Fin 8} : Line.index b = .ok i ↔ b.toNat = i := by
  unfold Line.index
  split
  · simp [Fin.ext_iff]
  · simp; omega

structure LineSet where
  rows : Byte := 0
  cols : Byte := 0
  deriving DecidableEq

namespace LineSet

def Mem (s : LineSet) : Line → Prop
  | .row r => r ∈ s.rows
  | .col c => c ∈ s.cols

instance : Membership Line LineSet := ⟨Mem⟩

@[simp] theorem row_mem {r : Fin 8} {s : LineSet} : .row r ∈ s ↔ r ∈ s.rows := .rfl

@[simp] theorem col_mem {c : Fin 8} {s : LineSet} : .col c ∈ s ↔ c ∈ s.cols := .rfl

instance (l : Line) (s : LineSet) : Decidable (l ∈ s) :=
  match l with
  | .row r => inferInstanceAs (Decidable (r ∈ s.rows))
  | .col c => inferInstanceAs (Decidable (c ∈ s.cols))

theorem ext {s t : LineSet} (h : ∀ l, l ∈ s ↔ l ∈ t) : s = t := by
  cases s; cases t
  congr 1
  · exact Byte.ext fun r => h (.row r)
  · exact Byte.ext fun c => h (.col c)

instance : EmptyCollection LineSet := ⟨{}⟩

instance : Singleton Line LineSet :=
  ⟨fun | .row r => { rows := .bit r } | .col c => { cols := .bit c }⟩

instance : Union LineSet := ⟨fun s t => ⟨s.rows ||| t.rows, s.cols ||| t.cols⟩⟩

instance : SDiff LineSet := ⟨fun s t => ⟨s.rows &&& ~~~t.rows, s.cols &&& ~~~t.cols⟩⟩

@[simp] theorem not_mem_empty {l : Line} : l ∉ (∅ : LineSet) := by
  cases l <;> exact Byte.not_mem_zero

@[simp] theorem mem_singleton {l l' : Line} : l ∈ ({l'} : LineSet) ↔ l = l' := by
  cases l <;> cases l' <;> simp [Singleton.singleton]

@[simp] theorem mem_union {l : Line} {s t : LineSet} : l ∈ s ∪ t ↔ l ∈ s ∨ l ∈ t := by
  cases l <;> simp [Union.union]

@[simp] theorem mem_sdiff {l : Line} {s t : LineSet} : l ∈ s \ t ↔ l ∈ s ∧ l ∉ t := by
  cases l <;> simp [SDiff.sdiff]

def toList (s : LineSet) : List Line :=
  (Byte.indices s.rows).map .row ++ (Byte.indices s.cols).map .col

@[simp] theorem mem_toList {l : Line} {s : LineSet} : l ∈ s.toList ↔ l ∈ s := by
  cases l <;> simp [toList]

end LineSet

end Keyscan
