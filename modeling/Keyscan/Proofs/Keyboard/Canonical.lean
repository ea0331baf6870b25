import Keyscan.Proofs.Checked.Keyboard

/-! The packed form is canonical. Every word is the packed form of one keyboard with agreeing views and the
latch off, and the views agree just when the packed form and the latch are enough to build the keyboard again. -/

namespace Keyscan

theorem toNat_cpop {n : Nat} (b : BitVec n) :
    b.cpop.toNat = (List.finRange n).countP fun i : Fin n => b.getLsbD i := by
  have upTo (k : Nat) : b.cpopNatRec k 0 = (List.range k).countP b.getLsbD := by
    induction k with
    | zero => rfl
    | succ k ih =>
      rw [BitVec.cpopNatRec_succ, BitVec.cpopNatRec_eq, ih, List.range_succ, List.countP_append,
        List.countP_singleton]
      cases b.getLsbD k <;> simp
  rw [BitVec.toNat_cpop, upTo, ← List.map_coe_finRange_eq_range, List.countP_map]
  rfl

namespace Keyboard

variable {m m' : Keyboard} {b : BitVec 64}

theorem pressedCount_ofBits : (ofBits b).pressedCount = b.cpop.toNat := by
  rw [toNat_cpop, pressedCount, Key.all, List.countP_map]
  apply List.countP_congr
  intro i _
  simp

theorem mem_rebuilt {k : Key} : k ∈ (ofBits m.toBits).setShiftLock m.shiftLock ↔ k ∈ m := by
  rw [mem_setShiftLock, mem_ofBits, getLsbD_toBits]

theorem consistent_iff_rebuilt :
    m.Consistent ↔ (ofBits m.toBits).setShiftLock m.shiftLock = m := by
  have rebuilt : ((ofBits m.toBits).setShiftLock m.shiftLock).Consistent :=
    consistent_ofBits.setShiftLock
  constructor
  · intro hm
    exact rebuilt.ext hm (fun _ => mem_rebuilt) rfl
  · intro same
    exact same ▸ rebuilt

theorem Consistent.eq_of_toBits_eq (hm : m.Consistent) (hm' : m'.Consistent)
    (bits : m.toBits = m'.toBits) (latch : m.shiftLock = m'.shiftLock) : m = m' := by
  rw [← consistent_iff_rebuilt.1 hm, ← consistent_iff_rebuilt.1 hm', bits, latch]

theorem packed_form_is_canonical :
    (∀ b : BitVec 64, (ofBits b).toBits = b ∧ (ofBits b).Consistent ∧ (ofBits b).shiftLock = false ∧
      (ofBits b).pressedCount = b.cpop.toNat) ∧
    (∀ m : Keyboard, m.Consistent ↔ (ofBits m.toBits).setShiftLock m.shiftLock = m) ∧
    (∀ m m' : Keyboard, m.Consistent → m'.Consistent → m.toBits = m'.toBits →
      m.shiftLock = m'.shiftLock → m = m') ∧
    (∀ b : BitVec 64, Checked.ofBits b = .ok (ofBits b)) ∧
    ∀ m : Keyboard, Checked.toBits m = .ok m.toBits ∧
      Checked.isConsistent m = .ok (decide m.Consistent) ∧
      Checked.pressedCount m = .ok m.pressedCount := by
  refine ⟨?_, ?_, ?_, Checked.ofBits_eq, ?_⟩
  · intro b
    exact ⟨toBits_ofBits, consistent_ofBits, shiftLock_ofBits, pressedCount_ofBits⟩
  · intro m
    exact consistent_iff_rebuilt
  · intro m m' hm hm'
    exact hm.eq_of_toBits_eq hm'
  · intro m
    exact ⟨Checked.toBits_eq m, Checked.isConsistent_eq m, Checked.pressedCount_eq m⟩

def lopsided : Keyboard := { byRow := (ofBits 0x80).byRow }

theorem packed_form_is_canonical_threeKeys :
    let m := replay [.set 7 7 true, .set 2 3 true, .set 0 0 true]
    let b : BitVec 64 := 0x8000000000080001
    m.Consistent ∧ m.toBits = (ofBits b).toBits ∧ m.shiftLock = (ofBits b).shiftLock ∧ m = ofBits b ∧
    Checked.isConsistent lopsided = .ok false ∧
    (ofBits lopsided.toBits).setShiftLock lopsided.shiftLock ≠ lopsided := by
  intro m b
  obtain ⟨word, rebuilt, unique, -, code⟩ := packed_form_is_canonical
  have consistent : m.Consistent := consistent_replay _
  have bits : m.toBits = (ofBits b).toBits := by decide +kernel
  have split : ¬lopsided.Consistent := by decide +kernel
  refine ⟨consistent, bits, rfl, unique _ _ consistent (word b).2.1 bits rfl, ?_, ?_⟩
  · rw [(code lopsided).2.1, decide_eq_false split]
  · exact fun same => split ((rebuilt lopsided).2 same)

end Keyboard

end Keyscan
