import Keyscan.Keyboard.Contacts

namespace Keyscan.Keyboard

variable {m : Keyboard} {k : Key} {r : Fin 8} {l : Line}

/-- The two lines of the key are joined, by its own contact or by a chain of others. -/
def Bridged (m : Keyboard) (k : Key) : Prop := m.Joined (.row k.row) (.col k.col)

theorem Closed.bridged (h : m.Closed k) : m.Bridged k :=
  Joined.refl.step (mem_rowContacts.2 h)

def RectangleClosed (m : Keyboard) : Prop :=
  ∀ r₁ r₂ c₁ c₂, m.Closed ⟨r₁, c₁⟩ → m.Closed ⟨r₁, c₂⟩ → m.Closed ⟨r₂, c₁⟩ → m.Closed ⟨r₂, c₂⟩

/-- Lines next to a row: the columns closed on it, and the rows that share one of them with it. -/
def Beside (m : Keyboard) (r : Fin 8) : Line → Prop
  | .row r' => r' = r ∨ ∃ c, m.Closed ⟨r, c⟩ ∧ m.Closed ⟨r', c⟩
  | .col c => m.Closed ⟨r, c⟩

theorem RectangleClosed.beside (hm : m.Consistent) (h : m.RectangleClosed)
    (hj : m.Joined (.row r) l) : m.Beside r l := by
  induction hj with
  | refl => exact .inl rfl
  | @step l l' _ hc ih =>
    cases l with
    | row r' =>
      cases l' with
      | row r'' => simp [contacts] at hc
      | col c' =>
        have closed : m.Closed ⟨r', c'⟩ := mem_rowContacts.1 hc
        rcases ih with rfl | ⟨c, near, far⟩
        · exact closed
        · -- The chain turns on row `r'`: its new column makes a rectangle with the row that it came from.
          exact h r' r c c' far closed near
    | col c =>
      cases l' with
      | row r' => exact .inr ⟨c, ih, hm.mem_colContacts.1 hc⟩
      | col c' => simp [contacts] at hc

theorem rectangleClosed_iff (hm : m.Consistent) :
    m.RectangleClosed ↔ ∀ k, m.Bridged k → m.Closed k := by
  constructor
  · intro h k hk
    exact h.beside hm hk
  · intro h r₁ r₂ c₁ c₂ h₁₁ h₁₂ h₂₁
    apply h ⟨r₂, c₂⟩
    have corner : m.Joined (.row r₂) (.row r₁) := h₂₁.bridged.trans (h₁₁.bridged.symm hm)
    exact corner.trans h₁₂.bridged

end Keyscan.Keyboard
