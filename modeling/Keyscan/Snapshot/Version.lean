import Keyscan.Byte

namespace Keyscan.Snapshot

structure Version where
  major : Byte
  minor : Byte
  deriving DecidableEq

namespace Version

instance : LT Version :=
  ⟨fun a b => a.major < b.major ∨ a.major = b.major ∧ a.minor < b.minor⟩

instance (a b : Version) : Decidable (a < b) :=
  inferInstanceAs (Decidable (a.major < b.major ∨ a.major = b.major ∧ a.minor < b.minor))

theorem lt_def {a b : Version} :
    a < b ↔ a.major < b.major ∨ a.major = b.major ∧ a.minor < b.minor := .rfl

instance : Ord Version := ⟨fun a b => compareOfLessAndEq a b⟩

def text (v : Version) : String := s!"{v.major.toNat}.{v.minor.toNat}"

def current : Version := ⟨1, 1⟩

/-- The register block came with minor version one, whatever the major version is. -/
def hasRegisters (v : Version) : Bool := 1 ≤ v.minor

end Version

end Keyscan.Snapshot
