import Keyscan.Keyboard.Basic

namespace Keyscan.Keyboard

variable {m : Keyboard} {r c : Fin 8}

/-- A contact is closed by its key, or by the latch. -/
def Closed (m : Keyboard) (k : Key) : Prop := k ∈ m ∨ m.shiftLock = true ∧ k = .shiftLock

instance (m : Keyboard) (k : Key) : Decidable (m.Closed k) :=
  inferInstanceAs (Decidable (k ∈ m ∨ m.shiftLock = true ∧ k = .shiftLock))

def rowContacts (m : Keyboard) (r : Fin 8) : Byte :=
  if m.shiftLock ∧ r = Key.shiftLock.row then m.row r ||| .bit Key.shiftLock.col else m.row r

def colContacts (m : Keyboard) (c : Fin 8) : Byte :=
  if m.shiftLock ∧ c = Key.shiftLock.col then m.col c ||| .bit Key.shiftLock.row else m.col c

theorem mem_rowContacts : c ∈ m.rowContacts r ↔ m.Closed ⟨r, c⟩ := by
  simp only [rowContacts, Closed, mem_def]
  split <;> simp_all [Key.shiftLock]

theorem Consistent.mem_colContacts (h : m.Consistent) : r ∈ m.colContacts c ↔ m.Closed ⟨r, c⟩ := by
  simp only [colContacts, Closed, h.mem_iff]
  split <;> simp_all [Key.shiftLock, and_comm]

def contacts (m : Keyboard) : Line → LineSet
  | .row r => { cols := m.rowContacts r }
  | .col c => { rows := m.colContacts c }

/-- Lines that a chain of look-ups leads from one to the other. -/
inductive Joined (m : Keyboard) : Line → Line → Prop
  | refl {l} : Joined m l l
  | step {l l' l''} : Joined m l l' → l'' ∈ m.contacts l' → Joined m l l''

theorem Joined.trans {l l' l'' : Line} (h : m.Joined l l') (h' : m.Joined l' l'') :
    m.Joined l l'' := by
  induction h' with
  | refl => exact h
  | step _ hc ih => exact ih.step hc

theorem Consistent.contacts_comm (h : m.Consistent) {l l' : Line} :
    l' ∈ m.contacts l ↔ l ∈ m.contacts l' := by
  cases l <;> cases l' <;> simp [contacts, mem_rowContacts, h.mem_colContacts]

theorem Joined.symm (hm : m.Consistent) {l l' : Line} (h : m.Joined l l') : m.Joined l' l := by
  induction h with
  | refl => exact .refl
  | step _ hc ih => exact (Joined.step .refl (hm.contacts_comm.1 hc)).trans ih

/-- Lines with a chain of closed contacts between them, whichever view knows of them. -/
inductive Linked (m : Keyboard) : Line → Line → Prop
  | refl {l} : Linked m l l
  | toCol {l k} : Linked m l (.row k.row) → m.Closed k → Linked m l (.col k.col)
  | toRow {l k} : Linked m l (.col k.col) → m.Closed k → Linked m l (.row k.row)

/-- Where the views agree, the look-ups follow the closed contacts and no others. -/
theorem Consistent.joined_iff (h : m.Consistent) {l l' : Line} : m.Joined l l' ↔ m.Linked l l' := by
  constructor
  · intro joined
    induction joined with
    | refl => exact .refl
    | @step x y _ hc ih =>
      cases x with
      | row r =>
        cases y with
        | row r' => exact absurd hc Byte.not_mem_zero
        | col c => exact .toCol (k := ⟨r, c⟩) ih (mem_rowContacts.1 hc)
      | col c =>
        cases y with
        | row r => exact .toRow (k := ⟨r, c⟩) ih (h.mem_colContacts.1 hc)
        | col c' => exact absurd hc Byte.not_mem_zero
  · intro linked
    induction linked with
    | refl => exact .refl
    | toCol _ closed ih => exact ih.step (mem_rowContacts.2 closed)
    | toRow _ closed ih => exact ih.step (h.mem_colContacts.2 closed)

end Keyscan.Keyboard
