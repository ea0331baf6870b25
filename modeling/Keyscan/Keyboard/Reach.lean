import Keyscan.Keyboard.Contacts

/-! Lines joined to a line, by flooding the graph of contacts from it. A line is marked before it is
expanded, so none is pending twice, and sixteen steps expand all that there are. -/

namespace Keyscan

structure Flood where
  marked : LineSet
  pending : List Line

namespace Flood

def start (l : Line) : Flood := ⟨{l}, [l]⟩

def step (m : Keyboard) : Flood → Flood
  | ⟨marked, []⟩ => ⟨marked, []⟩
  | ⟨marked, l :: rest⟩ =>
    let fresh := m.contacts l \ marked
    ⟨marked ∪ fresh, fresh.toList.reverse ++ rest⟩

def run (m : Keyboard) : Nat → Flood → Flood
  | 0, f => f
  | n + 1, f => run m n (f.step m)

end Flood

namespace Keyboard

def reach (m : Keyboard) (l : Line) : LineSet := ((Flood.start l).run m 16).marked

end Keyboard

end Keyscan
