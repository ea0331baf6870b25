/-! Bytes, read as sets of the eight lines of a port: line `i` is in a byte when bit `i` is one. -/

namespace Keyscan

abbrev Byte := BitVec 8

namespace Byte

instance : Membership (Fin 8) Byte := ⟨fun b i => b.getLsbD i = true⟩

instance (i : Fin 8) (b : Byte) : Decidable (i ∈ b) :=
  inferInstanceAs (Decidable (b.getLsbD i = true))

theorem mem_def {i : Fin 8} {b : Byte} : i ∈ b ↔ b.getLsbD i = true := .rfl

theorem ext {a b : Byte} (h : ∀ i, i ∈ a ↔ i ∈ b) : a = b :=
  BitVec.eq_of_getLsbD_eq fun i hi => Bool.eq_iff_iff.2 (h ⟨i, hi⟩)

@[simp] theorem mem_or {i : Fin 8} {a b : Byte} : i ∈ a ||| b ↔ i ∈ a ∨ i ∈ b := by
  simp [mem_def]

@[simp] theorem mem_and {i : Fin 8} {a b : Byte} : i ∈ a &&& b ↔ i ∈ a ∧ i ∈ b := by
  simp [mem_def]

@[simp] theorem mem_xor {i : Fin 8} {a b : Byte} : i ∈ a ^^^ b ↔ ¬(i ∈ a ↔ i ∈ b) := by
  simp [mem_def]

@[simp] theorem mem_not {i : Fin 8} {a : Byte} : i ∈ ~~~a ↔ i ∉ a := by
  simp [mem_def, i.isLt]

@[simp] theorem not_mem_zero {i : Fin 8} : i ∉ 0#8 := by
  simp [mem_def]

@[simp] theorem mem_full {i : Fin 8} : i ∈ 0xFF#8 := by
  revert i; decide

def ofFn (p : Fin 8 → Bool) : Byte := (BitVec.ofBoolListLE (.ofFn p)).cast List.length_ofFn

@[simp] theorem mem_ofFn {p : Fin 8 → Bool} {i : Fin 8} : i ∈ ofFn p ↔ p i = true := by
  rw [mem_def, ofFn, BitVec.getLsbD_cast, BitVec.getLsbD_ofBoolListLE, List.getD_eq_getElem?_getD,
    List.getElem?_ofFn, dif_pos i.isLt, Option.getD_some]

def bit (i : Fin 8) : Byte := .twoPow 8 i

@[simp] theorem mem_bit {i j : Fin 8} : j ∈ bit i ↔ j = i := by
  simp [mem_def, bit, Fin.ext_iff, eq_comm]

def put (b : Byte) (i : Fin 8) (on : Bool) : Byte :=
  if on then b ||| bit i else b &&& ~~~bit i

@[simp] theorem mem_put {b : Byte} {i j : Fin 8} {on : Bool} :
    j ∈ put b i on ↔ if j = i then on = true else j ∈ b := by
  cases on <;> by_cases h : j = i <;> simp [put, h]

def indices (b : Byte) : List (Fin 8) := (List.finRange 8).filter (· ∈ b)

@[simp] theorem mem_indices {b : Byte} {i : Fin 8} : i ∈ indices b ↔ i ∈ b := by
  simp [indices, List.mem_finRange]

def count (b : Byte) : Nat := (indices b).length

def gather (s : Byte) (f : Fin 8 → Byte) : Byte :=
  (indices s).foldl (fun acc i => acc ||| f i) 0

theorem mem_foldl_or {j : Fin 8} (f : Fin 8 → Byte) (is : List (Fin 8)) (acc : Byte) :
    j ∈ is.foldl (fun acc i => acc ||| f i) acc ↔ j ∈ acc ∨ ∃ i ∈ is, j ∈ f i := by
  induction is generalizing acc with
  | nil => simp
  | cons i is ih => simp [ih, or_assoc]

@[simp] theorem mem_gather {s : Byte} {f : Fin 8 → Byte} {j : Fin 8} :
    j ∈ gather s f ↔ ∃ i ∈ s, j ∈ f i := by
  simp [gather, mem_foldl_or]

def filter (s : Byte) (p : Fin 8 → Bool) : Byte :=
  gather s fun i => if p i then bit i else 0

@[simp] theorem mem_filter {s : Byte} {p : Fin 8 → Bool} {j : Fin 8} :
    j ∈ filter s p ↔ j ∈ s ∧ p j = true := by
  simp only [filter, mem_gather]
  constructor
  · rintro ⟨i, hi, h⟩
    cases hp : p i <;> simp [hp] at h
    subst h
    exact ⟨hi, hp⟩
  · rintro ⟨hj, hp⟩
    exact ⟨j, hj, by simp [hp]⟩

def hexWith (digits : List Char) (b : Byte) : String :=
  .ofList [digits.getD (b >>> 4).toNat '0', digits.getD (b &&& 0x0F).toNat '0']

def hex : Byte → String := hexWith "0123456789abcdef".toList

def upperHex : Byte → String := hexWith "0123456789ABCDEF".toList

end Byte

end Keyscan
