import Keyscan.Proofs.Keyboard.Flood
import Keyscan.Proofs.Keyboard.Ghost
import Keyscan.Proofs.Keyboard.History

namespace Keyscan.Keyboard

variable {m m' : Keyboard} {k : Key} {on : Bool} {l l' : Line}

theorem Closed.mono (keys : ∀ k ∈ m, k ∈ m') (latch : m.shiftLock = true → m'.shiftLock = true)
    (h : m.Closed k) : m'.Closed k :=
  h.imp (keys k) (And.imp_left latch)

theorem contacts_mono (hm : m.Consistent) (hm' : m'.Consistent)
    (closed : ∀ k, m.Closed k → m'.Closed k) (h : l' ∈ m.contacts l) : l' ∈ m'.contacts l := by
  cases l with
  | row r =>
    cases l' with
    | row r' => simp [contacts] at h
    | col c => exact mem_rowContacts.2 (closed _ (mem_rowContacts.1 h))
  | col c =>
    cases l' with
    | row r => exact hm'.mem_colContacts.2 (closed _ (hm.mem_colContacts.1 h))
    | col c' => simp [contacts] at h

theorem Joined.mono (contacts : ∀ l l', l' ∈ m.contacts l → l' ∈ m'.contacts l)
    (h : m.Joined l l') : m'.Joined l l' := by
  induction h with
  | refl => exact .refl
  | step _ hc ih => exact ih.step (contacts _ _ hc)

theorem joined_congr (contacts : ∀ l, m.contacts l = m'.contacts l) : m.Joined l l' ↔ m'.Joined l l' := by
  constructor
  · exact fun h => h.mono fun l _ hc => contacts l ▸ hc
  · exact fun h => h.mono fun l _ hc => (contacts l).symm ▸ hc

theorem reach_congr (joined : ∀ l l', m.Joined l l' ↔ m'.Joined l l') : m.reach = m'.reach := by
  funext l
  apply LineSet.ext
  intro l'
  rw [mem_reach, mem_reach, joined]

/-- The second keyboard has one more contact closed, unless the first has it closed already. -/
structure Closes (k : Key) (m m' : Keyboard) : Prop where
  before : m.Consistent
  after : m'.Consistent
  closed : ∀ k', m'.Closed k' ↔ k' = k ∨ m.Closed k'

def Meets (m : Keyboard) (k : Key) (l : Line) : Prop :=
  m.Joined l (.row k.row) ∨ m.Joined l (.col k.col)

theorem Meets.of_joined (hm : m.Consistent) (hl : m.Meets k l) (h : m.Joined l l') : m.Meets k l' := by
  have back : m.Joined l' l := h.symm hm
  exact hl.imp back.trans back.trans

namespace Closes

theorem mem_contacts (h : Closes k m m') : l' ∈ m'.contacts l ↔
    (l = .row k.row ∧ l' = .col k.col ∨ l = .col k.col ∧ l' = .row k.row) ∨ l' ∈ m.contacts l := by
  obtain ⟨r, c⟩ := k
  cases l <;> cases l' <;>
    simp [contacts, mem_rowContacts, h.before.mem_colContacts, h.after.mem_colContacts, h.closed,
      and_comm]

theorem bridged (h : Closes k m m') : m'.Bridged k :=
  Closed.bridged ((h.closed k).2 (.inl rfl))

theorem joined_of_joined (h : Closes k m m') (hj : m.Joined l l') : m'.Joined l l' :=
  hj.mono fun _ _ hc => h.mem_contacts.2 (.inr hc)

theorem joined_of_meets (h : Closes k m m') (hl : m.Meets k l) : m'.Joined l (.row k.row) := by
  rcases hl with row | col
  · exact h.joined_of_joined row
  · exact (h.joined_of_joined col).trans (h.bridged.symm h.after)

/-- A chain through the contact is cut at its first use and at its last; the rest of it does not need the
contact. -/
theorem joined_iff (h : Closes k m m') :
    m'.Joined l l' ↔ m.Joined l l' ∨ m.Meets k l ∧ m.Meets k l' := by
  constructor
  · intro hj
    induction hj with
    | refl => exact .inl .refl
    | @step x y _ hc ih =>
      -- A step by the contact itself ends on a line of the key; any other step was there before.
      rcases h.mem_contacts.1 hc with (⟨rfl, rfl⟩ | ⟨rfl, rfl⟩) | old
      · right
        exact ⟨ih.elim .inl And.left, .inr .refl⟩
      · right
        exact ⟨ih.elim .inr And.left, .inl .refl⟩
      · have along : m.Joined x y := Joined.refl.step old
        exact ih.imp (Joined.trans · along) (And.imp_right (Meets.of_joined h.before · along))
  · rintro (hj | ⟨hl, hl'⟩)
    · exact h.joined_of_joined hj
    · exact (h.joined_of_meets hl).trans ((h.joined_of_meets hl').symm h.after)

theorem joined_iff_of_bridged (h : Closes k m m') (hk : m.Bridged k) :
    m'.Joined l l' ↔ m.Joined l l' := by
  rw [h.joined_iff, or_iff_left_iff_imp]
  rintro ⟨hl, hl'⟩
  have row {x : Line} (hx : m.Meets k x) : m.Joined x (.row k.row) :=
    hx.elim id fun col => col.trans (hk.symm h.before)
  exact (row hl).trans ((row hl').symm h.before)

end Closes

@[simp] theorem set_set {on' : Bool} : (m.set k on).set k on' = m.set k on' := by
  refine Keyboard.ext (fun r => Byte.ext fun c => ?_) (fun c => Byte.ext fun r => ?_) rfl
  · simp only [mem_row_set]
    split <;> rfl
  · simp only [mem_col_set]
    split <;> rfl

theorem Consistent.set_self (hm : m.Consistent) (k : Key) : m.set k (decide (k ∈ m)) = m := by
  apply hm.set.ext hm
  · intro k'
    rw [mem_set]
    split
    · next same => rw [decide_eq_true_iff, same]
    · rfl
  · rfl

theorem Consistent.set_false_of_not_mem (hm : m.Consistent) (hk : k ∉ m) : m.set k false = m := by
  rw [← decide_eq_false hk, hm.set_self]

theorem Consistent.closes_set (hm : m.Consistent) (k : Key) : Closes k m (m.set k true) where
  before := hm
  after := hm.set
  closed k' := by
    by_cases hk : k' = k <;> simp [Closed, hk]

theorem Consistent.closes_setShiftLock (hm : m.Consistent) :
    Closes .shiftLock m (m.setShiftLock true) where
  before := hm
  after := hm.setShiftLock
  closed k' := by
    simp only [Closed, mem_setShiftLock, shiftLock_setShiftLock, true_and]
    tauto

theorem Consistent.closes_set_set (hm : m.Consistent) (k : Key) :
    Closes k (m.set k false) (m.set k true) := by
  have closes : Closes k (m.set k false) ((m.set k false).set k true) := hm.set.closes_set k
  rwa [set_set] at closes

theorem Consistent.closes_of_mem (hm : m.Consistent) (hk : k ∈ m) : Closes k (m.set k false) m := by
  have same : m.set k true = m := by rw [← decide_eq_true hk, hm.set_self]
  have closes : Closes k (m.set k false) (m.set k true) := hm.closes_set_set k
  rwa [same] at closes

theorem Consistent.joined_set (hm : m.Consistent) (hk : (m.set k false).Bridged k) (on : Bool) :
    (m.set k on).Joined l l' ↔ m.Joined l l' := by
  have up (on : Bool) : (m.set k on).Joined l l' ↔ (m.set k false).Joined l l' := by
    cases on with
    | false => rfl
    | true => exact (hm.closes_set_set k).joined_iff_of_bridged hk
  rw [up on, ← up (decide (k ∈ m)), hm.set_self]

theorem Consistent.bridged_corner (hm : m.Consistent) {r r' c c' : Fin 8} (rows : r ≠ r')
    (cols : c ≠ c') (h : m.Closed ⟨r, c⟩) (h₁ : m.Closed ⟨r, c'⟩) (h₂ : m.Closed ⟨r', c⟩) :
    (m.set ⟨r', c'⟩ false).Bridged ⟨r', c'⟩ := by
  have other {k : Key} (hk : m.Closed k) (hne : k ≠ ⟨r', c'⟩) : (m.set ⟨r', c'⟩ false).Bridged k := by
    apply Closed.bridged
    exact hk.imp_left fun pressed => mem_set.2 ((if_neg hne).symm ▸ pressed)
  have corner : (m.set ⟨r', c'⟩ false).Bridged ⟨r, c⟩ := other h (by simp [rows])
  have across : (m.set ⟨r', c'⟩ false).Bridged ⟨r, c'⟩ := other h₁ (by simp [rows])
  have down : (m.set ⟨r', c'⟩ false).Bridged ⟨r', c⟩ := other h₂ (by simp [cols])
  exact (down.trans (corner.symm hm.set)).trans across

end Keyscan.Keyboard
