import Keyscan.Proofs.Keyboard.Closure
import Keyscan.Proofs.Keyboard.Merge

namespace Keyscan

theorem Byte.eq_zero {b : Byte} : b = 0 ↔ ∀ i, i ∉ b := by
  constructor
  · rintro rfl i
    exact Byte.not_mem_zero
  · intro none
    apply Byte.ext
    intro i
    exact iff_of_false (none i) Byte.not_mem_zero

theorem LineSet.apart_iff {s t : LineSet} :
    (∀ l ∈ s, l ∉ t) ↔ s.rows &&& t.rows = 0 ∧ s.cols &&& t.cols = 0 := by
  simp only [Byte.eq_zero, Byte.mem_and, not_and]
  constructor
  · intro apart
    exact ⟨fun r => apart (.row r), fun c => apart (.col c)⟩
  · rintro ⟨rows, cols⟩ (r | c)
    · exact rows r
    · exact cols c

namespace Keyboard

variable {m m' : Keyboard} {k : Key} {l l' : Line} {r c : Fin 8}

instance (m : Keyboard) (l l' : Line) : Decidable (m.Joined l l') := decidable_of_iff _ mem_reach

instance (m : Keyboard) (k : Key) (l : Line) : Decidable (m.Meets k l) :=
  inferInstanceAs (Decidable (m.Joined l (.row k.row) ∨ m.Joined l (.col k.col)))

instance (m : Keyboard) (k : Key) : Decidable (m.Bridged k) :=
  inferInstanceAs (Decidable (m.Joined (.row k.row) (.col k.col)))

theorem Consistent.joined_equivalence (hm : m.Consistent) : Equivalence m.Joined where
  refl _ := .refl
  symm := .symm hm
  trans := .trans

theorem Consistent.reach_eq_of_joined (hm : m.Consistent) (h : m.Joined l l') :
    m.reach l = m.reach l' := by
  apply LineSet.ext
  intro x
  rw [mem_reach, mem_reach]
  exact ⟨(h.symm hm).trans, h.trans⟩

theorem Consistent.reach_apart (hm : m.Consistent) (h : ¬m.Joined l l') :
    ∀ x ∈ m.reach l, x ∉ m.reach l' := by
  intro x hx hx'
  rw [mem_reach] at hx hx'
  exact h (hx.trans (hx'.symm hm))

theorem eq_of_mem_reach (none : ∀ x, x ∉ m.contacts l) (h : l' ∈ m.reach l) : l' = l := by
  have confines : m.Confines {l} := by
    intro x hx y hc
    rw [LineSet.mem_singleton.1 hx] at hc
    exact absurd hc (none y)
  exact LineSet.mem_singleton.1 (confines.reach_le (LineSet.mem_singleton.2 rfl) l' h)

theorem mem_reach_of_mem_contacts (h : l' ∈ m.contacts l) : l' ∈ m.reach l :=
  mem_reach.2 (Joined.refl.step h)

theorem rows_reach_col_eq_zero : (m.reach (.col c)).rows = 0 ↔ m.colContacts c = 0 := by
  rw [Byte.eq_zero, Byte.eq_zero]
  constructor
  · intro none r hc
    apply none r
    exact LineSet.row_mem.1 (mem_reach_of_mem_contacts (LineSet.row_mem.2 hc))
  · intro none r hr
    have alone : ∀ x, x ∉ m.contacts (.col c) := by
      rintro (r | c)
      · exact none r
      · exact Byte.not_mem_zero
    cases eq_of_mem_reach alone (LineSet.row_mem.2 hr)

theorem cols_reach_row_eq_zero : (m.reach (.row r)).cols = 0 ↔ m.rowContacts r = 0 := by
  rw [Byte.eq_zero, Byte.eq_zero]
  constructor
  · intro none c hc
    apply none c
    exact LineSet.col_mem.1 (mem_reach_of_mem_contacts (LineSet.col_mem.2 hc))
  · intro none c hc
    have alone : ∀ x, x ∉ m.contacts (.row r) := by
      rintro (r | c)
      · exact Byte.not_mem_zero
      · exact none c
    cases eq_of_mem_reach alone (LineSet.col_mem.2 hc)

theorem reaches_partition_lines (m : Keyboard) (hm : m.Reachable) :
    Equivalence (fun l l' => l' ∈ m.reach l) ∧
    (∀ r, r ∈ (m.reach (.row r)).rows) ∧
    (∀ c, c ∈ (m.reach (.col c)).cols) ∧
    (∀ r c, c ∈ (m.reach (.row r)).cols ↔ r ∈ (m.reach (.col c)).rows) ∧
    (∀ r r', r' ∈ (m.reach (.row r)).rows ↔ r ∈ (m.reach (.row r')).rows) ∧
    (∀ c c', c' ∈ (m.reach (.col c)).cols ↔ c ∈ (m.reach (.col c')).cols) ∧
    (∀ l l', l' ∈ m.reach l → m.reach l' = m.reach l) ∧
    (∀ l l', l' ∉ m.reach l →
      (m.reach l).rows &&& (m.reach l').rows = 0 ∧ (m.reach l).cols &&& (m.reach l').cols = 0) ∧
    (∀ c, (m.reach (.col c)).rows = 0 ↔ m.colContacts c = 0) ∧
    ∀ r, (m.reach (.row r)).cols = 0 ↔ m.rowContacts r = 0 := by
  have consistent : m.Consistent := hm.consistent
  have classes : Equivalence fun l l' => l' ∈ m.reach l := by
    simpa only [mem_reach] using consistent.joined_equivalence
  have swap {l l' : Line} : l' ∈ m.reach l ↔ l ∈ m.reach l' := ⟨classes.symm, classes.symm⟩
  refine ⟨classes, ?_, ?_, ?_, ?_, ?_, ?_, ?_, ?_, ?_⟩
  · intro r
    exact LineSet.row_mem.1 (classes.refl _)
  · intro c
    exact LineSet.col_mem.1 (classes.refl _)
  · intro r c
    rw [← LineSet.col_mem, ← LineSet.row_mem, swap]
  · intro r r'
    rw [← LineSet.row_mem, ← LineSet.row_mem, swap]
  · intro c c'
    rw [← LineSet.col_mem, ← LineSet.col_mem, swap]
  · intro l l' h
    exact (consistent.reach_eq_of_joined (mem_reach.1 h)).symm
  · intro l l' h
    rw [mem_reach] at h
    exact LineSet.apart_iff.1 (consistent.reach_apart h)
  · intro c
    exact rows_reach_col_eq_zero
  · intro r
    exact cols_reach_row_eq_zero

def threeGroups : Keyboard :=
  replay [.set 0 0 true, .set 0 3 true, .set 5 3 true, .set 4 6 true, .shiftLock true]

theorem reaches_partition_lines_threeGroups :
    threeGroups.Reachable ∧
    .col 0 ∈ threeGroups.reach (.row 5) ∧
    threeGroups.reach (.col 0) = threeGroups.reach (.row 5) ∧
    .col 7 ∉ threeGroups.reach (.row 5) ∧
    (threeGroups.reach (.row 5)).rows &&& (threeGroups.reach (.col 7)).rows = 0 ∧
    (threeGroups.reach (.col 7)).rows ≠ 0 ∧ threeGroups.colContacts 7 ≠ 0 := by
  have reachable : threeGroups.Reachable := ⟨_, rfl⟩
  obtain ⟨-, -, -, -, -, -, same, apart, lone, -⟩ := reaches_partition_lines threeGroups reachable
  have near : .col 0 ∈ threeGroups.reach (.row 5) := by decide +kernel
  have far : .col 7 ∉ threeGroups.reach (.row 5) := by decide +kernel
  have latched : threeGroups.colContacts 7 ≠ 0 := by decide +kernel
  refine ⟨reachable, near, same _ _ near, far, (apart _ _ far).1, ?_, latched⟩
  exact fun none => latched ((lone 7).1 none)

/-- What a line reaches once the two lines of a key are joined. -/
def united (m : Keyboard) (k : Key) (l : Line) : LineSet :=
  if m.Meets k l then m.reach (.row k.row) ∪ m.reach (.col k.col) else m.reach l

theorem Consistent.mem_union_reach (hm : m.Consistent) :
    l ∈ m.reach (.row k.row) ∪ m.reach (.col k.col) ↔ m.Meets k l := by
  rw [LineSet.mem_union, mem_reach, mem_reach]
  exact or_congr ⟨.symm hm, .symm hm⟩ ⟨.symm hm, .symm hm⟩

theorem Closes.reach_eq (h : Closes k m m') (l : Line) : m'.reach l = m.united k l := by
  apply LineSet.ext
  intro l'
  rw [mem_reach, h.joined_iff, united]
  by_cases hl : m.Meets k l
  · rw [if_pos hl, h.before.mem_union_reach, and_iff_right hl, or_iff_right_iff_imp]
    exact hl.of_joined h.before
  · rw [if_neg hl, mem_reach, or_iff_left fun both => hl both.1]

structure Parts (k : Key) (m m' : Keyboard) : Prop where
  whole_row : m.reach (.row k.row) = m'.reach (.row k.row) ∪ m'.reach (.col k.col)
  whole_col : m.reach (.col k.col) = m'.reach (.row k.row) ∪ m'.reach (.col k.col)
  apart : ∀ l ∈ m'.reach (.row k.row), l ∉ m'.reach (.col k.col)
  by_row : ∀ l ∈ m'.reach (.row k.row), m'.reach l = m'.reach (.row k.row)
  by_col : ∀ l ∈ m'.reach (.col k.col), m'.reach l = m'.reach (.col k.col)
  elsewhere : ∀ l, l ∉ m.reach (.row k.row) → m'.reach l = m.reach l

theorem Closes.parts (h : Closes k m' m) (apart : ¬m'.Bridged k) : Parts k m m' where
  whole_row := by rw [h.reach_eq, united, if_pos (.inl .refl)]
  whole_col := by rw [h.reach_eq, united, if_pos (.inr .refl)]
  apart := h.before.reach_apart apart
  by_row l hl := (h.before.reach_eq_of_joined (mem_reach.1 hl)).symm
  by_col l hl := (h.before.reach_eq_of_joined (mem_reach.1 hl)).symm
  elsewhere l hl := by
    have unmet : ¬m'.Meets k l := by
      intro meets
      apply hl
      exact mem_reach.2 ((h.joined_of_meets meets).symm h.after)
    rw [h.reach_eq, united, if_neg unmet]

/-- A key that goes down unites the components of its lines, as the latch does; a key that comes up parts the
component again, or changes nothing where its lines stay joined or were not. -/
theorem contact_unites_two_components (m : Keyboard) (hm : m.Reachable) :
    (∀ (row col : Byte) (k : Key), Key.ofBytes row col = .ok k →
      ∀ l, (m.apply (.set row col true)).reach l = m.united k l) ∧
    (∀ l, (m.apply (.shiftLock true)).reach l = m.united .shiftLock l) ∧
    ∀ (row col : Byte) (k : Key), Key.ofBytes row col = .ok k →
      let m' := m.apply (.set row col false)
      (m'.Bridged k → ∀ l, m'.reach l = m.reach l) ∧
      (m.Bridged k → ¬m'.Bridged k → Parts k m m') ∧
      (¬m.Bridged k → m' = m) := by
  have consistent : m.Consistent := hm.consistent
  refine ⟨?_, ?_, ?_⟩
  · intro row col k hk l
    rw [apply_set_accepted hk]
    exact (consistent.closes_set k).reach_eq l
  · exact consistent.closes_setShiftLock.reach_eq
  · intro row col k hk m'
    have up : m' = m.set k false := apply_set_accepted hk
    rw [up]
    refine ⟨?_, ?_, ?_⟩
    · intro still l
      rw [reach_congr fun _ _ => consistent.joined_set still false]
    · intro before after
      have pressed : k ∈ m := by
        by_contra released
        exact after ((consistent.set_false_of_not_mem released).symm ▸ before)
      exact (consistent.closes_of_mem pressed).parts after
    · intro before
      apply consistent.set_false_of_not_mem
      intro pressed
      exact before (Closed.bridged (.inl pressed))

def hinged : Keyboard :=
  replay [.set 0 0 true, .set 2 0 true, .set 1 1 true, .set 0 1 true]

theorem contact_unites_two_components_hinged :
    hinged.Reachable ∧ Key.ofBytes 5 1 = .ok ⟨5, 1⟩ ∧
    (hinged.apply (.set 5 1 true)).reach (.row 5) = ⟨0x27, 0x03⟩ ∧
    (hinged.apply (.shiftLock true)).reach (.col 7) = ⟨0x07, 0x83⟩ ∧
    Key.ofBytes 0 1 = .ok ⟨0, 1⟩ ∧ hinged.Bridged ⟨0, 1⟩ ∧
    ¬(hinged.apply (.set 0 1 false)).Bridged ⟨0, 1⟩ ∧
    Parts ⟨0, 1⟩ hinged (hinged.apply (.set 0 1 false)) := by
  have reachable : hinged.Reachable := ⟨_, rfl⟩
  obtain ⟨down, latch, up⟩ := contact_unites_two_components hinged reachable
  have before : hinged.Bridged ⟨0, 1⟩ := by decide +kernel
  have after : ¬(hinged.apply (.set 0 1 false)).Bridged ⟨0, 1⟩ := by decide +kernel
  refine ⟨reachable, rfl, ?_, ?_, rfl, before, after, (up 0 1 ⟨0, 1⟩ rfl).2.1 before after⟩
  · rw [down 5 1 ⟨5, 1⟩ rfl]
    decide +kernel
  · rw [latch]
    decide +kernel

end Keyboard

end Keyscan
