import Keyscan.Keyboard.Change
import Mathlib.Data.Fintype.Card

namespace Keyscan

theorem Key.nodup_all : Key.all.Nodup :=
  (List.nodup_finRange 64).map fun i j h => by simpa using congrArg Key.index h

instance : Fintype Key := ⟨⟨Key.all, Key.nodup_all⟩, Key.mem_all⟩

namespace Keyboard

variable {m m' : Keyboard} {past past' : List Change}

/-- What a change makes of a key, when it bears on the key at all. -/
def Change.effect (k : Key) : Change → Option Bool
  | .set row col on => if row.toNat = k.row ∧ col.toNat = k.col then some on else none
  | .releaseAll => some false
  | .shiftLock _ => none
  | .load bits => some (bits.getLsbD k.index)

def Change.latchEffect : Change → Option Bool
  | .shiftLock on => some on
  | .load _ => some false
  | .set .. | .releaseAll => none

def last (effect : Change → Option Bool) (past : List Change) : Bool :=
  (past.filterMap effect).getLast?.getD false

def pressed (past : List Change) : Finset Key := {k | last (Change.effect k) past = true}

def latched (past : List Change) : Bool := last Change.latchEffect past

def apply (m : Keyboard) (c : Change) : Keyboard :=
  match m.change c with
  | .ok m' => m'
  | .error _ => m

def replay (past : List Change) : Keyboard := past.foldl apply {}

def Reachable (m : Keyboard) : Prop := ∃ past, replay past = m

theorem last_concat (f : Change → Option Bool) (past : List Change) (c : Change) :
    last f (past ++ [c]) = (f c).getD (last f past) := by
  cases hc : f c <;> simp [last, hc]

theorem replay_concat (past : List Change) (c : Change) :
    replay (past ++ [c]) = (replay past).apply c := by
  simp [replay]

theorem change_set_refused {row col : Byte} {on : Bool} :
    m.change (.set row col on) = .error (.position row col) ↔ 8 ≤ row.toNat ∨ 8 ≤ col.toNat := by
  rw [change, setKey]
  cases hk : Key.ofBytes row col with
  | error e =>
    obtain ⟨off, rfl⟩ := Key.ofBytes_eq_error.1 hk
    simp [Except.map, off]
  | ok k =>
    obtain ⟨hr, hc⟩ := Key.ofBytes_eq_ok.1 hk
    simp [Except.map, hr, hc]

theorem apply_set_refused {row col : Byte} {on : Bool} (off : 8 ≤ row.toNat ∨ 8 ≤ col.toNat) :
    m.apply (.set row col on) = m := by
  rw [apply, change_set_refused.2 off]

theorem apply_set_accepted {row col : Byte} {on : Bool} {k : Key}
    (hk : Key.ofBytes row col = .ok k) : m.apply (.set row col on) = m.set k on := by
  rw [apply, change, setKey, hk, Except.map]

theorem mem_apply {k : Key} {c : Change} :
    k ∈ m.apply c ↔ (c.effect k).getD (decide (k ∈ m)) = true := by
  cases c with
  | set row col on =>
    cases hk : Key.ofBytes row col with
    | error e =>
      obtain ⟨off, -⟩ := Key.ofBytes_eq_error.1 hk
      rw [apply_set_refused off, Change.effect, if_neg (by omega)]
      simp
    | ok k' =>
      obtain ⟨hr, hc⟩ := Key.ofBytes_eq_ok.1 hk
      have same : (row.toNat = k.row ∧ col.toNat = k.col) ↔ k = k' := by
        cases k; cases k'
        simp only [hr, hc, Key.mk.injEq, Fin.ext_iff, eq_comm]
      rw [apply_set_accepted hk, mem_set, Change.effect]
      simp only [same]
      split <;> simp
  | releaseAll => simp [apply, change, Change.effect]
  | shiftLock on => simp [apply, change, Change.effect]
  | load bits => simp [apply, change, Change.effect]

theorem mem_col_apply {row col : Fin 8} {c : Change} :
    row ∈ (m.apply c).col col ↔ (c.effect ⟨row, col⟩).getD (decide (row ∈ m.col col)) = true := by
  cases c with
  | set r c on =>
    cases hk : Key.ofBytes r c with
    | error e =>
      obtain ⟨off, -⟩ := Key.ofBytes_eq_error.1 hk
      rw [apply_set_refused off, Change.effect, if_neg (by simp only; omega)]
      simp
    | ok k =>
      obtain ⟨hr, hc⟩ := Key.ofBytes_eq_ok.1 hk
      rw [apply_set_accepted hk, mem_col_set, Change.effect]
      simp only [hr, hc, Fin.val_inj, eq_comm]
      split <;> simp
  | releaseAll => simp [apply, change, Change.effect, releaseAll, Keyboard.col]
  | shiftLock on => exact decide_eq_true_iff.symm
  | load bits => simp [apply, change, Change.effect, col_ofBits]

theorem shiftLock_apply {c : Change} :
    (m.apply c).shiftLock = c.latchEffect.getD m.shiftLock := by
  cases c with
  | set row col on =>
    cases hk : Key.ofBytes row col with
    | error e => rw [apply_set_refused (Key.ofBytes_eq_error.1 hk).1]; rfl
    | ok k => rw [apply_set_accepted hk]; rfl
  | releaseAll => rfl
  | shiftLock on => rfl
  | load bits => rfl

theorem Consistent.apply {c : Change} (hm : m.Consistent) : (m.apply c).Consistent := by
  unfold Keyboard.apply
  split
  · next hc => exact hm.change hc
  · exact hm

theorem consistent_replay (past : List Change) : (replay past).Consistent := by
  induction past using List.reverseRecOn with
  | nil => exact consistent_empty
  | append_singleton past c ih => rw [replay_concat]; exact ih.apply

theorem Reachable.consistent (hm : m.Reachable) : m.Consistent := by
  obtain ⟨past, rfl⟩ := hm
  exact consistent_replay past

theorem mem_pressed {k : Key} : k ∈ pressed past ↔ last (Change.effect k) past = true := by
  simp [pressed]

theorem mem_replay {k : Key} : k ∈ replay past ↔ k ∈ pressed past := by
  rw [mem_pressed]
  induction past using List.reverseRecOn with
  | nil => simp [replay, mem_def, row, last]
  | append_singleton past c ih =>
    rw [replay_concat, mem_apply, last_concat]
    cases c.effect k <;> simp [ih]

theorem shiftLock_replay (past : List Change) : (replay past).shiftLock = latched past := by
  induction past using List.reverseRecOn with
  | nil => rfl
  | append_singleton past c ih => rw [replay_concat, shiftLock_apply, latched, last_concat, ih, latched]

theorem Consistent.ext (hm : m.Consistent) (hm' : m'.Consistent) (keys : ∀ k, k ∈ m ↔ k ∈ m')
    (latch : m.shiftLock = m'.shiftLock) : m = m' := by
  refine Keyboard.ext (fun r => ?_) (fun c => ?_) latch
  · apply Byte.ext
    intro c
    exact keys ⟨r, c⟩
  · apply Byte.ext
    intro r
    rw [← hm r c, ← hm' r c]
    exact keys ⟨r, c⟩

theorem replay_congr (keys : ∀ k, k ∈ pressed past ↔ k ∈ pressed past')
    (latch : latched past = latched past') : replay past = replay past' := by
  apply (consistent_replay past).ext (consistent_replay past')
  · intro k
    rw [mem_replay, mem_replay, keys]
  · rw [shiftLock_replay, shiftLock_replay, latch]

theorem isPressed_iff {row col : Byte} :
    m.isPressed row col = true ↔ ∃ k ∈ m, row.toNat = k.row ∧ col.toNat = k.col := by
  rw [isPressed]
  cases hk : Key.ofBytes row col with
  | error e =>
    obtain ⟨off, -⟩ := Key.ofBytes_eq_error.1 hk
    simp only [Bool.false_eq_true, false_iff, not_exists, not_and]
    intro k _ _
    omega
  | ok k =>
    simp only [← Key.ofBytes_eq_ok, hk, Except.ok.injEq, decide_eq_true_eq]
    constructor
    · intro hm
      exact ⟨k, hm, rfl⟩
    · rintro ⟨k', hm, rfl⟩
      exact hm

theorem pressedCount_eq_card {keys : Finset Key} (hk : ∀ k, k ∈ m ↔ k ∈ keys) :
    m.pressedCount = keys.card := by
  have hs : keys = Finset.univ.filter (· ∈ m) := by
    ext k
    simp [hk]
  rw [hs, pressedCount, List.countP_eq_length_filter]
  rfl

/-- All that can be asked of a keyboard is answered from a set of keys and the latch. -/
structure Shows (m : Keyboard) (keys : Finset Key) (latch : Bool) : Prop where
  rowMask : ∀ (row : Byte) (k : Key), row.toNat = k.row →
    ∃ cols, m.rowMask row = .ok cols ∧ (k.col ∈ cols ↔ k ∈ keys)
  colMask : ∀ (col : Byte) (k : Key), col.toNat = k.col →
    ∃ rows, m.colMask col = .ok rows ∧ (k.row ∈ rows ↔ k ∈ keys)
  isPressed : ∀ row col : Byte,
    m.isPressed row col = true ↔ ∃ k ∈ keys, row.toNat = k.row ∧ col.toNat = k.col
  toBits : ∀ k : Key, m.toBits.getLsbD (k.row * 8 + k.col) = true ↔ k ∈ keys
  pressedCount : m.pressedCount = keys.card
  consistent : m.Consistent
  shiftLock : m.shiftLock = latch

theorem Consistent.shows {keys : Finset Key} (hm : m.Consistent) (hk : ∀ k, k ∈ m ↔ k ∈ keys) :
    m.Shows keys m.shiftLock where
  rowMask row k hr := by
    refine ⟨m.row k.row, ?_, hk k⟩
    rw [Keyboard.rowMask, Line.index_eq_ok.2 hr, Except.map]
  colMask col k hc := by
    refine ⟨m.col k.col, ?_, hm.mem_iff.symm.trans (hk k)⟩
    rw [Keyboard.colMask, Line.index_eq_ok.2 hc, Except.map]
  isPressed row col := by simp only [isPressed_iff, hk]
  toBits k := by rw [Nat.mul_comm, ← hk k, ← getLsbD_toBits]; rfl
  pressedCount := pressedCount_eq_card hk
  consistent := hm
  shiftLock := rfl

theorem shows_replay (past : List Change) : (replay past).Shows (pressed past) (latched past) := by
  rw [← shiftLock_replay]
  exact (consistent_replay past).shows fun k => mem_replay

/-- The same changes for each key and for the latch, in the same order. Changes that bear on different
keys may change places. -/
def Rearranged (past past' : List Change) : Prop :=
  (∀ k, past.filterMap (Change.effect k) = past'.filterMap (Change.effect k)) ∧
    past.filterMap Change.latchEffect = past'.filterMap Change.latchEffect

theorem Rearranged.replay_eq (h : Rearranged past past') : replay past = replay past' := by
  apply replay_congr
  · intro k
    rw [mem_pressed, mem_pressed, last, last, h.1 k]
  · rw [latched, latched, last, last, h.2]

theorem filterMap_swap {f : Change → Option Bool} {a b : Change} (h : f a = none ∨ f b = none)
    (past rest : List Change) :
    (past ++ a :: b :: rest).filterMap f = (past ++ b :: a :: rest).filterMap f := by
  rw [List.filterMap_append, List.filterMap_append]
  congr 1
  rcases h with h | h <;> simp only [List.filterMap_cons, h]

theorem rearranged_swap {row col row' col' : Byte} {on on' : Bool}
    (hne : (row, col) ≠ (row', col')) (past rest : List Change) :
    Rearranged (past ++ .set row col on :: .set row' col' on' :: rest)
      (past ++ .set row' col' on' :: .set row col on :: rest) := by
  constructor
  · intro k
    apply filterMap_swap
    by_cases hk : row.toNat = k.row ∧ col.toNat = k.col
    · right
      apply if_neg
      rintro ⟨hr, hc⟩
      apply hne
      rw [BitVec.toNat_inj.1 (hk.1.trans hr.symm), BitVec.toNat_inj.1 (hk.2.trans hc.symm)]
    · left
      exact if_neg hk
  · apply filterMap_swap
    exact .inl rfl

theorem history_determines_keyboard (past : List Change) :
    (replay past).Shows (pressed past) (latched past) ∧
    (∀ (row col : Byte) (on : Bool), 8 ≤ row.toNat ∨ 8 ≤ col.toNat →
      (replay past).change (.set row col on) = .error (.position row col) ∧
      (Fault.position row col).message? = some "Matrix position out of range" ∧
      replay (past ++ [.set row col on]) = replay past) ∧
    (∀ (row col row' col' : Byte) (on on' : Bool) (rest : List Change),
      (row, col) ≠ (row', col') →
      replay (past ++ .set row col on :: .set row' col' on' :: rest) =
        replay (past ++ .set row' col' on' :: .set row col on :: rest)) ∧
    ∀ past', Rearranged past past' → replay past = replay past' := by
  refine ⟨shows_replay past, ?_, ?_, ?_⟩
  · intro row col on off
    exact ⟨change_set_refused.2 off, rfl, by rw [replay_concat, apply_set_refused off]⟩
  · intro row col row' col' on on' rest hne
    exact (rearranged_swap hne past rest).replay_eq
  · intro past' h
    exact h.replay_eq

end Keyboard

end Keyscan
