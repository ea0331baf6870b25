import Keyscan.Byte
import Mathlib.Data.List.Basic

/-! Steps that are checked as they are taken. A step that fails its check stops the code, and the trap tells
which check it was. -/

namespace Keyscan

/-- An index past its array, a shift by the width of its word or more, a number too large for its word, an
assertion that does not hold, and a loop that goes on past its bound. -/
inductive Trap
  | index (place size : Nat)
  | shift (amount width : Nat)
  | overflow (value width : Nat)
  | assertion (text : String)
  | unfinished
  deriving DecidableEq

namespace Checked

variable {α σ : Type} {n w : Nat}

def fetch (v : Vector α n) (place : Nat) : Except Trap α :=
  if h : place < n then .ok v[place] else .error (.index place n)

def store (v : Vector α n) (place : Nat) (a : α) : Except Trap (Vector α n) :=
  if h : place < n then .ok (v.set place a) else .error (.index place n)

def shiftLeft (b : BitVec w) (amount : Nat) : Except Trap (BitVec w) :=
  if amount < w then .ok (b <<< amount) else .error (.shift amount w)

def shiftRight (b : BitVec w) (amount : Nat) : Except Trap (BitVec w) :=
  if amount < w then .ok (b >>> amount) else .error (.shift amount w)

def one (place : Nat) : Except Trap Byte := shiftLeft 1 place

def fit (width n : Nat) : Except Trap Nat :=
  if (BitVec.ofNat width n).toNat = n then .ok n else .error (.overflow n width)

theorem fetch_fin (v : Vector α n) (i : Fin n) : fetch v i = .ok v[i] := dif_pos i.isLt

theorem store_fin (v : Vector α n) (i : Fin n) (a : α) : store v i a = .ok (v.set i a) := dif_pos i.isLt

theorem one_fin (i : Fin 8) : one i = .ok (.bit i) := if_pos i.isLt

theorem one_off {place : Nat} (off : 8 ≤ place) : one place = .error (.shift place 8) :=
  if_neg (Nat.not_lt.2 off)

theorem fit_of_lt {width n : Nat} (wide : 8 ≤ width) (small : n < 256) : fit width n = .ok n := by
  have room : 2 ^ 8 ≤ 2 ^ width := Nat.pow_le_pow_right Nat.two_pos wide
  apply if_pos
  rw [BitVec.toNat_ofNat, Nat.mod_eq_of_lt (Nat.lt_of_lt_of_le small room)]

def Answers (call : Byte → Except Trap α) (value : Fin 8 → α) (trap : Nat → Trap) : Prop :=
  ∀ b : Byte, call b =
    if h : b.toNat < 8 then .ok (value ⟨b.toNat, h⟩) else .error (trap b.toNat)

theorem toNat_ofNat_fin (i : Fin 8) : (BitVec.ofNat 8 i).toNat = i := by
  rw [BitVec.toNat_ofNat]
  omega

theorem Answers.fin {call : Byte → Except Trap α} {value : Fin 8 → α} {trap : Nat → Trap}
    (h : Answers call value trap) (i : Fin 8) : call (.ofNat 8 i) = .ok (value i) := by
  rw [h]
  simp only [toNat_ofNat_fin, i.isLt, dite_true]

theorem Answers.of_fin {call : Byte → Except Trap α} {value : Fin 8 → α} {trap : Nat → Trap}
    (on : ∀ i : Fin 8, call (.ofNat 8 i) = .ok (value i))
    (off : ∀ b : Byte, 8 ≤ b.toNat → call b = .error (trap b.toNat)) : Answers call value trap := by
  intro b
  split
  · next h =>
    rw [← on, BitVec.ofNat_toNat, BitVec.setWidth_eq]
  · next h => exact off b (Nat.not_lt.1 h)

def eachLine (f : σ → Nat → Except Trap σ) (s : σ) : Except Trap σ := (List.range 8).foldlM f s

theorem eachLine_eq_foldlM (f : σ → Nat → Except Trap σ) (s : σ) :
    eachLine f s = (List.finRange 8).foldlM (fun s (i : Fin 8) => f s i) s := by
  have lines : List.range 8 = (List.finRange 8).map (·.val) := by decide
  rw [eachLine, lines, List.foldlM_map]

theorem eachLine_eq {f : σ → Nat → Except Trap σ} {g : σ → Fin 8 → σ}
    (h : ∀ s (i : Fin 8), f s i = .ok (g s i)) (s : σ) :
    eachLine f s = .ok ((List.finRange 8).foldl g s) := by
  rw [eachLine_eq_foldlM]
  simp only [h]
  exact List.foldlM_pure

theorem foldl_lines_iff {p : σ → Prop} {q : Fin 8 → Prop} {g : σ → Fin 8 → σ}
    (h : ∀ s i, p (g s i) ↔ p s ∨ q i) (s : σ) :
    p ((List.finRange 8).foldl g s) ↔ p s ∨ ∃ i, q i := by
  have along (is : List (Fin 8)) : p (is.foldl g s) ↔ p s ∨ ∃ i ∈ is, q i := by
    induction is generalizing s with
    | nil => simp
    | cons i is ih => rw [List.foldl_cons, ih, h, or_assoc, List.exists_mem_cons_iff]
  simpa [List.mem_finRange] using along (List.finRange 8)

theorem and_one_shiftLeft_ne_zero {b : BitVec w} {i : Nat} (h : i < w) :
    b &&& (1 : BitVec w) <<< i ≠ 0 ↔ b.getLsbD i = true := by
  have single : (1 : BitVec w) <<< i = .twoPow w i := (BitVec.twoPow_eq w i).symm
  rw [single, BitVec.and_twoPow]
  split
  · next set =>
    refine iff_of_true (fun zero => ?_) set
    have place := congrArg (·.getLsbD i) zero
    simp [h] at place
  · next unset => exact iff_of_false (not_not_intro rfl) unset

theorem and_bit_eq_zero {b : Byte} {i : Fin 8} : b &&& .bit i = 0 ↔ i ∉ b := by
  have set : b &&& .bit i ≠ 0 ↔ i ∈ b := by
    rw [Byte.bit, BitVec.twoPow_eq]
    exact and_one_shiftLeft_ne_zero i.isLt
  rw [← set, ne_eq, not_not]

theorem eachLine_clear {s : Byte} {f : Fin 8 → Byte} {step : Byte → Nat → Except Trap Byte}
    (h : ∀ val (i : Fin 8), step val i = .ok (if i ∈ s then val &&& ~~~f i else val)) (val : Byte) :
    eachLine step val = .ok (val &&& ~~~s.gather f) := by
  rw [eachLine_eq h]
  apply congrArg
  apply Byte.ext
  intro j
  have taken (val : Byte) (i : Fin 8) :
      j ∉ (if i ∈ s then val &&& ~~~f i else val) ↔ j ∉ val ∨ i ∈ s ∧ j ∈ f i := by
    split
    · next hi => simp only [Byte.mem_and, Byte.mem_not, not_and_or, not_not, hi, true_and]
    · next hi => simp only [hi, false_and, or_false]
  rw [← not_iff_not, foldl_lines_iff (p := (j ∉ ·)) taken, Byte.mem_and, Byte.mem_not,
    Byte.mem_gather, not_and_or, not_not]

end Checked

end Keyscan
