import Keyscan.Byte

namespace Keyscan

/-- Registers of an eight-bit port: the output latch, the direction of each pin (one for output) and
the pin values seen last. -/
structure Port where
  data : Byte := 0
  ddr : Byte := 0
  sampled : Byte := 0xFF
  deriving DecidableEq

namespace Port

variable {p : Port} {i : Fin 8}

def level (p : Port) : Byte := p.data ||| ~~~p.ddr

def drivenHigh (p : Port) : Byte := p.data &&& p.ddr

def drivenLow (p : Port) : Byte := ~~~p.data &&& p.ddr

@[simp] theorem mem_level : i ∈ p.level ↔ i ∈ p.data ∨ i ∉ p.ddr := by
  simp [level]

@[simp] theorem mem_drivenHigh : i ∈ p.drivenHigh ↔ i ∈ p.data ∧ i ∈ p.ddr := by
  simp [drivenHigh]

@[simp] theorem mem_drivenLow : i ∈ p.drivenLow ↔ i ∉ p.data ∧ i ∈ p.ddr := by
  simp [drivenLow]

theorem not_mem_level : i ∉ p.level ↔ i ∈ p.drivenLow := by
  simp

def reset (p : Port) : Port := { sampled := p.sampled }

end Port

end Keyscan
