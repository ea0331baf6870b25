import Keyscan.Proofs.Checked.Basic
import Keyscan.Proofs.Keyboard.History

namespace Keyscan.Checked

def putPlace (view : Vector Byte 8) (line place : Nat) (on : Bool) : Except Trap (Vector Byte 8) := do
  let bit ← one place
  let old ← fetch view line
  store view line (if on then old ||| bit else old &&& ~~~bit)

theorem putPlace_fin (view : Vector Byte 8) (line place : Fin 8) (on : Bool) :
    putPlace view line place on = .ok (view.set line (.put (view.get line) place on) line.isLt) := by
  simp only [putPlace, one_fin, fetch_fin, bind, Except.bind, store_fin]
  rfl

/-- Changes in place, so that a trap leaves the keyboard as it is by then. -/
abbrev Update := EStateM Trap Keyboard Unit

def offMatrix : Trap := .assertion "Matrix position out of range"

def setKey (row col : Byte) (on : Bool) : Update := do
  unless row < 8 ∧ col < 8 do
    throw offMatrix
  let r := row.toNat &&& 7
  let c := col.toNat &&& 7
  let byRow ← MonadExcept.ofExcept (putPlace (← get).byRow r c on)
  modify ({ · with byRow })
  let byCol ← MonadExcept.ofExcept (putPlace (← get).byCol c r on)
  modify ({ · with byCol })

def exec (u : Update) (m : Keyboard) : Except Trap Keyboard :=
  match u.run m with
  | .ok _ m' => .ok m'
  | .error t _ => .error t

def ofBits (bits : BitVec 64) : Except Trap Keyboard :=
  eachLine (fun m row => eachLine (fun m col => do
    let bit ← shiftLeft 1 (← fit 8 (row * 8 + col))
    if bits &&& bit ≠ 0 then exec (setKey (.ofNat 8 row) (.ofNat 8 col) true) m else return m) m) {}

def change : Keyboard.Change → Update
  | .set row col on => setKey row col on
  | .releaseAll => modify .releaseAll
  | .shiftLock on => modify (.setShiftLock · on)
  | .load bits => do set (← MonadExcept.ofExcept (ofBits bits))

def onMatrix : Keyboard.Change → Bool
  | .set row col _ => row < 8 ∧ col < 8
  | _ => true

def rowMask (m : Keyboard) (row : Byte) : Except Trap Byte := fetch m.byRow row.toNat

def colMask (m : Keyboard) (col : Byte) : Except Trap Byte := fetch m.byCol col.toNat

def isPressed (m : Keyboard) (row col : Byte) : Except Trap Bool := do
  if 8 ≤ row ∨ 8 ≤ col then
    return false
  let mask ← rowMask m row
  return mask &&& (← one col.toNat) ≠ 0

def toBits (m : Keyboard) : Except Trap (BitVec 64) :=
  eachLine (fun bits row => do
    let mask ← fetch m.byRow row
    return bits ||| (← shiftLeft (mask.setWidth 64) (← fit 32 (row * 8)))) 0

def isConsistent (m : Keyboard) : Except Trap Bool :=
  eachLine (fun agree row => eachLine (fun agree col => do
    let byRow ← shiftRight (← fetch m.byRow row) col
    let byCol ← shiftRight (← fetch m.byCol col) row
    return agree && byRow &&& 1 == byCol &&& 1) agree) true

/-- A sum runs over when the whole of it does. -/
def pressedCount (m : Keyboard) : Except Trap Nat :=
  fit 32 (m.byRow.toList.foldl (fun count row => count + row.count) 0)

theorem and_seven (i : Fin 8) : (i : Nat) &&& 7 = i :=
  Nat.and_two_pow_sub_one_of_lt_two_pow (n := 3) i.isLt

theorem ofBytes_cases (row col : Byte) :
    (∃ k : Key, Key.ofBytes row col = .ok k ∧ (row < 8 ∧ col < 8) ∧
      row.toNat = k.row ∧ col.toNat = k.col) ∨
    ∃ e, Key.ofBytes row col = .error e ∧ ¬(row < 8 ∧ col < 8) := by
  cases hk : Key.ofBytes row col with
  | ok k =>
    obtain ⟨hr, hc⟩ := Key.ofBytes_eq_ok.1 hk
    exact .inl ⟨k, rfl, by bv_omega, hr, hc⟩
  | error e =>
    obtain ⟨off, -⟩ := Key.ofBytes_eq_error.1 hk
    exact .inr ⟨e, rfl, by bv_omega⟩

theorem run_setKey (m : Keyboard) (row col : Byte) (on : Bool) : (setKey row col on).run m =
    match m.setKey row col on with
    | .ok m' => .ok () m'
    | .error _ => .error offMatrix m := by
  obtain ⟨k, hk, inside, hr, hc⟩ | ⟨e, hk, outside⟩ := ofBytes_cases row col
  · simp only [Keyboard.setKey, hk, setKey, inside, hr, hc, and_seven, putPlace_fin]
    rfl
  · simp only [Keyboard.setKey, hk, setKey, outside]
    rfl

theorem exec_setKey (m : Keyboard) (k : Key) (on : Bool) :
    exec (setKey (.ofNat 8 k.row) (.ofNat 8 k.col) on) m = .ok (m.set k on) := by
  have key : Key.ofBytes (.ofNat 8 k.row) (.ofNat 8 k.col) = .ok k := by
    rw [Key.ofBytes_eq_ok, toNat_ofNat_fin, toNat_ofNat_fin]
    exact ⟨rfl, rfl⟩
  rw [exec, run_setKey, Keyboard.setKey, key, Except.map]

section Packed

variable {bits : BitVec 64} {m : Keyboard} {r c : Fin 8}

def closeFrom (bits : BitVec 64) (m : Keyboard) (r c : Fin 8) : Keyboard :=
  if bits.getLsbD (Key.index ⟨r, c⟩) then m.set ⟨r, c⟩ true else m

def closeAll (bits : BitVec 64) : Keyboard :=
  (List.finRange 8).foldl (fun m r => (List.finRange 8).foldl (closeFrom bits · r) m) {}

theorem closeAll_iff {p : Keyboard → Prop} {q : Key → Prop}
    (grows : ∀ m k, p (m.set k true) ↔ p m ∨ q k) :
    p (closeAll bits) ↔ p {} ∨ ∃ k : Key, bits.getLsbD k.index = true ∧ q k := by
  have place (m : Keyboard) (r c : Fin 8) : p (closeFrom bits m r c) ↔
      p m ∨ bits.getLsbD (Key.index ⟨r, c⟩) = true ∧ q ⟨r, c⟩ := by
    rw [closeFrom]
    split
    · next closed => rw [grows, and_iff_right closed]
    · next opened => rw [or_iff_left fun h => opened h.1]
  rw [closeAll, foldl_lines_iff fun m r => foldl_lines_iff (place · r) m]
  apply or_congr_right
  constructor
  · rintro ⟨r, c, h⟩
    exact ⟨⟨r, c⟩, h⟩
  · rintro ⟨k, h⟩
    exact ⟨k.row, k.col, h⟩

theorem closeAll_place_iff {p : Keyboard → Prop} (empty : ¬p {})
    (put : ∀ m k, p (m.set k true) ↔ if r = k.row ∧ c = k.col then true = true else p m) :
    p (closeAll bits) ↔ bits.getLsbD (Key.index ⟨r, c⟩) = true := by
  have grows (m : Keyboard) (k : Key) : p (m.set k true) ↔ p m ∨ k = ⟨r, c⟩ := by
    have own : k = ⟨r, c⟩ ↔ r = k.row ∧ c = k.col := by
      cases k
      simp only [Key.mk.injEq, eq_comm]
    rw [put, own]
    split <;> simp [*]
  rw [closeAll_iff grows, or_iff_right empty]
  simp

theorem closeAll_eq (bits : BitVec 64) : closeAll bits = .ofBits bits := by
  apply Keyboard.ext
  · intro r
    apply Byte.ext
    intro c
    rw [closeAll_place_iff (p := (c ∈ Keyboard.row · r)) (by simp [Keyboard.row])
      fun _ _ => Keyboard.mem_row_set, Keyboard.row_ofBits, Byte.mem_ofFn]
  · intro c
    apply Byte.ext
    intro r
    rw [closeAll_place_iff (p := (r ∈ Keyboard.col · c)) (by simp [Keyboard.col])
      fun _ _ => Keyboard.mem_col_set, Keyboard.col_ofBits, Byte.mem_ofFn]
  · rw [Bool.eq_iff_iff, closeAll_iff (p := (Keyboard.shiftLock · = true)) (q := fun _ => False)
      (by simp)]
    simp

theorem ofBits_eq (bits : BitVec 64) : ofBits bits = .ok (.ofBits bits) := by
  rw [ofBits, ← closeAll_eq]
  apply eachLine_eq
  intro m r
  apply eachLine_eq
  intro m c
  have place : (r : Nat) * 8 + c = Key.index ⟨r, c⟩ := by simp only [Key.index]; omega
  have room : (Key.index ⟨r, c⟩ : Nat) < 256 := by omega
  simp only [place, fit_of_lt le_rfl room, shiftLeft, if_pos (Key.index ⟨r, c⟩).isLt, bind, Except.bind,
    and_one_shiftLeft_ne_zero (Key.index ⟨r, c⟩).isLt, closeFrom]
  split
  · exact exec_setKey m ⟨r, c⟩ true
  · rfl

theorem getLsbD_setWidth_shiftLeft {b : Byte} {k : Key} :
    (b.setWidth 64 <<< (r.val * 8)).getLsbD k.index = true ↔ r = k.row ∧ k.col ∈ b := by
  have width : 8 * k.row.val + k.col < 64 := k.index.isLt
  simp only [BitVec.getLsbD_shiftLeft, BitVec.getLsbD_setWidth, Key.index, width]
  rcases lt_trichotomy r k.row with below | rfl | above
  · have past : 8 ≤ 8 * k.row.val + k.col - r.val * 8 := by omega
    simp [BitVec.getLsbD_of_ge b _ past, below.ne]
  · have place : 8 * k.row.val + k.col - k.row.val * 8 = k.col := by omega
    have low : k.row.val * 8 ≤ 8 * k.row.val + k.col := by omega
    have narrow : k.col.val < 64 := by omega
    simp [place, low, narrow, Byte.mem_def]
  · have before : 8 * k.row.val + k.col < r.val * 8 := by omega
    simp [before, above.ne']

theorem toBits_eq (m : Keyboard) : toBits m = .ok m.toBits := by
  rw [toBits, eachLine_eq (g := fun bits r => bits ||| (m.row r).setWidth 64 <<< (r.val * 8))]
  · apply congrArg
    apply Keyboard.eq_of_getLsbD_index
    intro k
    rw [Bool.eq_iff_iff, Keyboard.getLsbD_toBits,
      foldl_lines_iff (p := (BitVec.getLsbD · _ = true))
        fun bits r => by rw [BitVec.getLsbD_or, Bool.or_eq_true, getLsbD_setWidth_shiftLeft]]
    simp [Keyboard.mem_def]
  · intro bits r
    have room : (r : Nat) * 8 < 64 := by omega
    have counted : fit 32 (r * 8) = .ok (r * 8) := fit_of_lt (by decide) (by omega)
    simp only [fetch_fin, counted, shiftLeft, if_pos room, bind, Except.bind]
    rfl

end Packed

theorem low_place_eq_iff {b c : Byte} {i j : Nat} :
    (b >>> i) &&& 1 = (c >>> j) &&& 1 ↔ (b.getLsbD i = true ↔ c.getLsbD j = true) := by
  rw [← Bool.eq_iff_iff]
  constructor
  · intro h
    simpa using congrArg (·.getLsbD 0) h
  · intro h
    apply BitVec.eq_of_getLsbD_eq
    intro k _
    cases k with
    | zero => simpa using h
    | succ k => simp

theorem isConsistent_eq (m : Keyboard) : isConsistent m = .ok (decide m.Consistent) := by
  rw [isConsistent, eachLine_eq (g := fun agree r =>
    (List.finRange 8).foldl (fun agree c => agree && decide (c ∈ m.row r ↔ r ∈ m.col c)) agree)]
  · have place (agree : Bool) (r c : Fin 8) :
        (agree && decide (c ∈ m.row r ↔ r ∈ m.col c)) = false ↔
          agree = false ∨ ¬(c ∈ m.row r ↔ r ∈ m.col c) := by
      rw [Bool.and_eq_false_iff, decide_eq_false_iff_not]
    have differ := foldl_lines_iff (p := (· = false))
      (fun agree r => foldl_lines_iff (p := (· = false)) (place · r) agree) true
    rw [Except.ok.injEq, ← Bool.not_inj_iff, Bool.eq_iff_iff, Bool.not_eq_true', differ,
      Bool.not_eq_true', decide_eq_false_iff_not, or_iff_right Bool.noConfusion]
    simp only [Keyboard.Consistent, not_forall]
  · intro agree r
    apply eachLine_eq
    intro agree c
    simp only [fetch_fin, shiftRight, if_pos r.isLt, if_pos c.isLt, bind, Except.bind]
    have same : (m.byRow[r] >>> c.val &&& 1 == m.byCol[c] >>> r.val &&& 1) =
        decide (c ∈ m.row r ↔ r ∈ m.col c) := by
      rw [Bool.eq_iff_iff, beq_iff_eq, decide_eq_true_iff]
      exact low_place_eq_iff
    exact congrArg (fun same => Except.ok (agree && same)) same

theorem run_change (m : Keyboard) (c : Keyboard.Change) : (change c).run m =
    match m.change c with
    | .ok m' => .ok () m'
    | .error _ => .error offMatrix m := by
  cases c with
  | set row col on => exact run_setKey m row col on
  | releaseAll => rfl
  | shiftLock on => rfl
  | load bits =>
    rw [change, ofBits_eq]
    rfl

theorem onMatrix_eq (m : Keyboard) (c : Keyboard.Change) : onMatrix c = (m.change c).isOk := by
  cases c with
  | set row col on =>
    rw [onMatrix, Keyboard.change, Keyboard.setKey]
    obtain ⟨k, hk, inside, -⟩ | ⟨e, hk, outside⟩ := ofBytes_cases row col
    · rw [hk]
      exact decide_eq_true inside
    · rw [hk]
      exact decide_eq_false outside
  | releaseAll => rfl
  | shiftLock on => rfl
  | load bits => rfl

theorem run_change_eq_ite (m : Keyboard) (c : Keyboard.Change) :
    (change c).run m = if onMatrix c then .ok () (m.apply c) else .error offMatrix m := by
  rw [run_change, onMatrix_eq m, Keyboard.apply]
  cases m.change c <;> rfl

theorem all_eq_flatMap : Key.all = (List.finRange 8).flatMap fun r => (List.finRange 8).map (Key.mk r) := by
  decide

theorem pressedCount_eq (m : Keyboard) : pressedCount m = .ok m.pressedCount := by
  have rows : m.byRow.toList = (List.finRange 8).map m.row := by
    apply List.ext_getElem
    · simp
    · intro n _ _
      simp [Keyboard.row]
  have along (rs : List (Fin 8)) (count : Nat) :
      (rs.map m.row).foldl (fun count row => count + row.count) count =
        count + (rs.flatMap fun r => (List.finRange 8).map (Key.mk r)).countP (· ∈ m) := by
    induction rs generalizing count with
    | nil => rfl
    | cons r rs ih =>
      have own : (m.row r).count = ((List.finRange 8).map (Key.mk r)).countP (· ∈ m) := by
        rw [List.countP_map, Byte.count, Byte.indices, ← List.countP_eq_length_filter]
        rfl
      rw [List.map_cons, List.foldl_cons, ih, own, List.flatMap_cons, List.countP_append, Nat.add_assoc]
  have few : m.pressedCount ≤ 64 := List.countP_le_length
  rw [pressedCount, rows, along, ← all_eq_flatMap, Nat.zero_add]
  exact fit_of_lt (by decide) (by rw [Keyboard.pressedCount] at few; omega)

theorem rowMask_answers (m : Keyboard) : Answers (rowMask m) m.row (.index · 8) := fun _ => rfl

theorem colMask_answers (m : Keyboard) : Answers (colMask m) m.col (.index · 8) := fun _ => rfl

theorem isPressed_eq (m : Keyboard) (row col : Byte) :
    isPressed m row col = .ok (m.isPressed row col) := by
  rw [isPressed, Keyboard.isPressed]
  obtain ⟨k, hk, inside, hr, hc⟩ | ⟨e, hk, outside⟩ := ofBytes_cases row col
  · have inside : ¬(8 ≤ row ∨ 8 ≤ col) := by bv_omega
    rw [if_neg inside, hk, hc, rowMask, hr]
    simp only [fetch_fin, one_fin]
    exact congrArg Except.ok (decide_eq_decide.2 (and_one_shiftLeft_ne_zero k.col.isLt))
  · have outside : 8 ≤ row ∨ 8 ≤ col := by bv_omega
    rw [if_pos outside, hk]
    rfl

end Keyscan.Checked
