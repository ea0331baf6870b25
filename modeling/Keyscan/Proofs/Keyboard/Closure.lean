import Keyscan.Proofs.Checked.Flood

namespace Keyscan

def LineSet.missing (s : LineSet) : Finset Line := {l | l ∉ s}

theorem LineSet.mem_missing {l : Line} {s : LineSet} : l ∈ s.missing ↔ l ∉ s := by simp [missing]

namespace Keyboard

variable {m : Keyboard} {l l' : Line} {s : LineSet}

/-- No closed contact leads out of the set. -/
def Confines (m : Keyboard) (s : LineSet) : Prop := ∀ l ∈ s, ∀ l' ∈ m.contacts l, l' ∈ s

instance (m : Keyboard) (s : LineSet) : Decidable (m.Confines s) :=
  inferInstanceAs (Decidable (∀ l ∈ s, ∀ l' ∈ m.contacts l, l' ∈ s))

theorem Confines.mem_of_joined (h : m.Confines s) (hl : l ∈ s) (hj : m.Joined l l') : l' ∈ s := by
  induction hj with
  | refl => exact hl
  | step _ hc ih => exact h _ ih _ hc

theorem confines_reach (m : Keyboard) (l : Line) : m.Confines (m.reach l) := by
  intro l' hl' l'' hc
  rw [mem_reach] at hl' ⊢
  exact hl'.step hc

theorem Confines.reach_le (h : m.Confines s) (hl : l ∈ s) : ∀ l' ∈ m.reach l, l' ∈ s := by
  intro l' hl'
  exact h.mem_of_joined hl (mem_reach.1 hl')

theorem Confines.eq_reach (h : m.Confines s) (hl : l ∈ s) (joined : ∀ l' ∈ s, m.Joined l l') :
    s = m.reach l := by
  apply LineSet.ext
  intro l'
  constructor
  · intro hl'
    exact mem_reach.2 (joined l' hl')
  · exact h.reach_le hl l'

def grow (m : Keyboard) (s : LineSet) : LineSet where
  rows := s.rows ||| s.cols.gather m.colContacts
  cols := s.cols ||| s.rows.gather m.rowContacts

theorem mem_grow : l ∈ m.grow s ↔ l ∈ s ∨ ∃ l' ∈ s, l ∈ m.contacts l' := by
  cases l <;> simp [grow, contacts, Line.exists_iff]

theorem grow_eq_self : m.grow s = s ↔ m.Confines s := by
  constructor
  · intro still l hl l' hc
    rw [← still]
    exact mem_grow.2 (.inr ⟨l, hl, hc⟩)
  · intro h
    apply LineSet.ext
    intro l
    rw [mem_grow, or_iff_left_iff_imp]
    rintro ⟨l', hl', hc⟩
    exact h l' hl' l hc

theorem card_missing_grow_lt (h : m.grow s ≠ s) : (m.grow s).missing.card < s.missing.card := by
  apply Finset.card_lt_card
  rw [Finset.ssubset_iff_subset_ne]
  constructor
  · intro l hl
    rw [LineSet.mem_missing] at hl ⊢
    exact fun old => hl (mem_grow.2 (.inl old))
  · intro same
    apply h
    apply LineSet.ext
    intro l
    rw [← not_iff_not, ← LineSet.mem_missing, ← LineSet.mem_missing, same]

def saturate (m : Keyboard) (s : LineSet) : LineSet :=
  if m.grow s = s then s else m.saturate (m.grow s)
termination_by s.missing.card
decreasing_by exact card_missing_grow_lt ‹_›

theorem saturate_eq_reach (hl : l ∈ s) (joined : ∀ l' ∈ s, m.Joined l l') :
    m.saturate s = m.reach l := by
  induction s using saturate.induct (m := m) with
  | case1 s still =>
    rw [saturate, if_pos still]
    exact (grow_eq_self.1 still).eq_reach hl joined
  | case2 s more ih =>
    rw [saturate, if_neg more]
    apply ih
    · exact mem_grow.2 (.inl hl)
    · intro l' hl'
      rcases mem_grow.1 hl' with old | ⟨l'', hl'', hc⟩
      · exact joined l' old
      · exact (joined l'' hl'').step hc

theorem closed_ofBits {bits : BitVec 64} {on : Bool} {k : Key} :
    ((ofBits bits).setShiftLock on).Closed k ↔
      bits.getLsbD k.index = true ∨ on = true ∧ k = .shiftLock := by
  rw [Closed, mem_setShiftLock, mem_ofBits, shiftLock_setShiftLock]

/-- What the flood returns, from a stack of sixteen places, is the closure of its start: the least set that no
contact leads out of, the ends of all chains of contacts, and the end of all rounds of `grow`. -/
theorem flood_is_closure :
    (∀ (m : Keyboard) (start : Line),
      Checked.reach m (.of start) = .ok (m.reach start) ∧
      start ∈ m.reach start ∧ m.Confines (m.reach start) ∧
      (∀ s : LineSet, start ∈ s → m.Confines s → ∀ l ∈ m.reach start, l ∈ s) ∧
      (∀ r, r ∈ (m.reach start).rows ↔ m.Joined start (.row r)) ∧
      (∀ c, c ∈ (m.reach start).cols ↔ m.Joined start (.col c)) ∧
      m.reach start = m.saturate {start}) ∧
    ∀ (bits : BitVec 64) (on : Bool) (k : Key),
      let m := (ofBits bits).setShiftLock on
      (k.col ∈ m.rowContacts k.row ↔ bits.getLsbD k.index = true ∨ on = true ∧ k = .shiftLock) ∧
      (k.row ∈ m.colContacts k.col ↔ bits.getLsbD k.index = true ∨ on = true ∧ k = .shiftLock) := by
  constructor
  · intro m start
    have saturated : m.saturate {start} = m.reach start := by
      apply saturate_eq_reach (LineSet.mem_singleton.2 rfl)
      intro l hl
      rw [LineSet.mem_singleton.1 hl]
      exact .refl
    refine ⟨Checked.reach_of m start, mem_reach.2 .refl, confines_reach m start, ?_, ?_, ?_, saturated.symm⟩
    · intro s hs confines
      exact confines.reach_le hs
    · intro r
      rw [← LineSet.row_mem, mem_reach]
    · intro c
      rw [← LineSet.col_mem, mem_reach]
  · intro bits on k m
    have consistent : m.Consistent := consistent_ofBits.setShiftLock
    rw [← closed_ofBits]
    exact ⟨mem_rowContacts, consistent.mem_colContacts⟩

def latchedCorners : Keyboard := (ofBits 0x203).setShiftLock true

theorem flood_is_closure_latchedCorners :
    let s : LineSet := ⟨0x03, 0x83⟩
    .col 0 ∈ s ∧ latchedCorners.Confines s ∧ (∀ l ∈ latchedCorners.reach (.col 0), l ∈ s) ∧
    latchedCorners.saturate {.col 0} = s ∧ Checked.reach latchedCorners (.col 0) = .ok s := by
  intro s
  obtain ⟨code, -, -, least, -, -, rounds⟩ := flood_is_closure.1 latchedCorners (.col 0)
  have confines : latchedCorners.Confines s := by decide +kernel
  have found : latchedCorners.reach (.col 0) = s := by decide +kernel
  exact ⟨by decide, confines, least s (by decide) confines, rounds.symm.trans found, found ▸ code⟩

end Keyboard

end Keyscan
