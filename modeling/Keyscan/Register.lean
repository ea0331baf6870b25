import Keyscan.Byte

namespace Keyscan

inductive Register
  | pra | prb | ddra | ddrb
  deriving DecidableEq

namespace Register

def offset : Register → BitVec 16
  | pra => 0
  | prb => 1
  | ddra => 2
  | ddrb => 3

def name : Register → String
  | pra => "PRA"
  | prb => "PRB"
  | ddra => "DDRA"
  | ddrb => "DDRB"

/-- The register file repeats every sixteen bytes; its other twelve places belong to timers and
interrupts. -/
def ofOffset? (o : BitVec 16) : Option Register :=
  [pra, prb, ddra, ddrb].find? (·.offset == o &&& 0x000F)

@[simp] theorem ofOffset?_offset (r : Register) : ofOffset? r.offset = some r := by
  cases r <;> rfl

theorem ofOffset?_mod (o : BitVec 16) : ofOffset? (.ofNat 16 (o.toNat % 16)) = ofOffset? o := by
  have low (b : BitVec 16) : (b &&& 0x000F).toNat = b.toNat % 16 := by
    rw [BitVec.toNat_and]
    exact Nat.and_two_pow_sub_one_eq_mod b.toNat 4
  have same : BitVec.ofNat 16 (o.toNat % 16) &&& 0x000F = o &&& 0x000F := by
    apply BitVec.eq_of_toNat_eq
    rw [low, low, BitVec.toNat_ofNat]
    omega
  rw [ofOffset?, same]
  rfl

theorem ofOffset?_eq_some {o : BitVec 16} {r : Register} :
    ofOffset? o = some r ↔ o.toNat % 16 = r.offset.toNat := by
  have places (n : Fin 16) : ofOffset? (.ofNat 16 n) = some r ↔ n = r.offset.toNat := by
    revert n
    cases r <;> decide
  rw [← ofOffset?_mod]
  exact places ⟨o.toNat % 16, by omega⟩

theorem ofOffset?_eq_none {o : BitVec 16} : ofOffset? o = none ↔ 4 ≤ o.toNat % 16 := by
  have places (n : Fin 16) : ofOffset? (.ofNat 16 n) = none ↔ 4 ≤ n.val := by
    revert n
    decide
  rw [← ofOffset?_mod]
  exact places ⟨o.toNat % 16, by omega⟩

end Register

end Keyscan
