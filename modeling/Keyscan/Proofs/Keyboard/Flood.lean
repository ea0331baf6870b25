import Keyscan.Keyboard.Reach
import Mathlib.Data.Fintype.Sum

namespace Keyscan

instance : Fintype Line :=
  .ofEquiv (Fin 8 ⊕ Fin 8)
    { toFun := Sum.elim .row .col
      invFun := fun | .row r => .inl r | .col c => .inr c
      left_inv := by rintro (r | c) <;> rfl
      right_inv := by rintro (r | c) <;> rfl }

theorem Line.card : Fintype.card Line = 16 := rfl

theorem Line.exists_iff {p : Line → Prop} :
    (∃ l, p l) ↔ (∃ r, p (.row r)) ∨ ∃ c, p (.col c) := by
  constructor
  · rintro ⟨r | c, h⟩
    · exact .inl ⟨r, h⟩
    · exact .inr ⟨c, h⟩
  · rintro (⟨r, h⟩ | ⟨c, h⟩)
    · exact ⟨.row r, h⟩
    · exact ⟨.col c, h⟩

theorem Byte.nodup_indices (b : Byte) : b.indices.Nodup := (List.nodup_finRange 8).filter _

theorem LineSet.nodup_toList (s : LineSet) : s.toList.Nodup := by
  rw [toList, List.nodup_append]
  refine ⟨?_, ?_, ?_⟩
  · exact (Byte.nodup_indices _).map fun _ _ => Line.row.inj
  · exact (Byte.nodup_indices _).map fun _ _ => Line.col.inj
  · simp

namespace Flood

variable {m : Keyboard} {start l l' : Line} {f f' : Flood}

/-- One expansion, of any pending line and with its fresh contacts put anywhere. -/
inductive Expands (m : Keyboard) (l : Line) : Flood → Flood → Prop
  | intro {marked pending rest pending'} : pending.Perm (l :: rest) →
      pending'.Perm ((m.contacts l \ marked).toList ++ rest) →
      Expands m l ⟨marked, pending⟩ ⟨marked ∪ (m.contacts l \ marked), pending'⟩

theorem expands_step {marked : LineSet} {rest : List Line} :
    Expands m l ⟨marked, l :: rest⟩ (step m ⟨marked, l :: rest⟩) :=
  .intro (.refl _) ((List.reverse_perm _).append_right rest)

theorem Expands.mem_expanded (he : Expands m l f f') : l ∈ f.pending := by
  cases he with
  | intro taken put =>
    apply taken.mem_iff.2
    exact List.mem_cons_self

theorem Expands.mem_marked (he : Expands m l f f') :
    l' ∈ f'.marked ↔ l' ∈ f.marked ∨ l' ∈ m.contacts l := by
  cases he with
  | intro taken put =>
    rw [LineSet.mem_union, LineSet.mem_sdiff]
    tauto

theorem Expands.mem_pending (he : Expands m l f f') (nodup : f.pending.Nodup) :
    l' ∈ f'.pending ↔ (l' ∈ m.contacts l ∧ l' ∉ f.marked) ∨ (l' ∈ f.pending ∧ l' ≠ l) := by
  cases he with
  | intro taken put =>
    have once : l ∉ _ := (List.nodup_cons.1 (taken.nodup_iff.1 nodup)).1
    rw [put.mem_iff, taken.mem_iff, List.mem_append, LineSet.mem_toList, LineSet.mem_sdiff,
      List.mem_cons]
    apply or_congr_right
    constructor
    · intro h
      refine ⟨.inr h, ?_⟩
      intro same
      exact once (same ▸ h)
    · intro h
      exact h.1.resolve_left h.2

theorem Expands.nodup (he : Expands m l f f') (nodup : f.pending.Nodup)
    (marked : ∀ l ∈ f.pending, l ∈ f.marked) : f'.pending.Nodup := by
  cases he with
  | intro taken put =>
    rw [put.nodup_iff, List.nodup_append]
    refine ⟨LineSet.nodup_toList _, (List.nodup_cons.1 (taken.nodup_iff.1 nodup)).2, ?_⟩
    intro l' fresh l'' old same
    subst same
    apply (LineSet.mem_sdiff.1 (LineSet.mem_toList.1 fresh)).2
    exact marked l' (taken.mem_iff.2 (List.mem_cons_of_mem _ old))

structure Inv (m : Keyboard) (start : Line) (f : Flood) : Prop where
  start_marked : start ∈ f.marked
  pending_marked : ∀ l ∈ f.pending, l ∈ f.marked
  nodup : f.pending.Nodup
  joined : ∀ l ∈ f.marked, m.Joined start l
  closed : ∀ l ∈ f.marked, l ∉ f.pending → ∀ l' ∈ m.contacts l, l' ∈ f.marked

theorem inv_start (m : Keyboard) (l : Line) : Inv m l (.start l) where
  start_marked := by simp [Flood.start]
  pending_marked := by simp [Flood.start]
  nodup := by simp [Flood.start]
  joined l' h := by
    rw [LineSet.mem_singleton.1 h]
    exact .refl
  closed l' h hp := by simp_all [Flood.start]

theorem Inv.expands (hf : Inv m start f) (he : Expands m l f f') : Inv m start f' where
  start_marked := he.mem_marked.2 (.inl hf.start_marked)
  pending_marked l' h := by
    apply he.mem_marked.2
    rcases (he.mem_pending hf.nodup).1 h with fresh | old
    · exact .inr fresh.1
    · exact .inl (hf.pending_marked l' old.1)
  nodup := he.nodup hf.nodup hf.pending_marked
  joined l' h := by
    rcases he.mem_marked.1 h with old | fresh
    · exact hf.joined l' old
    · exact (hf.joined l (hf.pending_marked l he.mem_expanded)).step fresh
  closed l' h hp l'' hc := by
    apply he.mem_marked.2
    rw [he.mem_pending hf.nodup] at hp
    by_cases hl : l' = l
    · exact .inr (hl ▸ hc)
    · left
      have old : l' ∈ f.marked := by
        by_contra fresh
        exact hp (.inl ⟨(he.mem_marked.1 h).resolve_left fresh, fresh⟩)
      apply hf.closed l' old _ l'' hc
      intro pending
      exact hp (.inr ⟨pending, hl⟩)

theorem Inv.step (hf : Inv m start f) : Inv m start (f.step m) := by
  match f with
  | ⟨_, []⟩ => exact hf
  | ⟨_, _ :: _⟩ => exact hf.expands expands_step

theorem Inv.run (hf : Inv m start f) (n : Nat) : Inv m start (f.run m n) := by
  induction n generalizing f with
  | zero => exact hf
  | succ n ih => exact ih hf.step

theorem Inv.length_pending_le (hf : Inv m start f) : f.pending.length ≤ 16 :=
  (List.Nodup.length_le_card hf.nodup).trans_eq Line.card

def left (f : Flood) : Finset Line := {l | l ∈ f.marked → l ∈ f.pending}

theorem mem_left : l ∈ f.left ↔ (l ∈ f.marked → l ∈ f.pending) := by simp [left]

theorem Expands.mem_left (he : Expands m l f f') : l ∈ f.left :=
  Flood.mem_left.2 fun _ => he.mem_expanded

theorem Inv.left_expands (hf : Inv m start f) (he : Expands m l f f') :
    f'.left = f.left.erase l := by
  ext l'
  rw [Finset.mem_erase, mem_left, mem_left, he.mem_marked, he.mem_pending hf.nodup]
  by_cases hl : l' = l
  · subst hl
    have marked : l' ∈ f.marked := hf.pending_marked l' he.mem_expanded
    simp [marked]
  · by_cases marked : l' ∈ f.marked
    · simp [hl, marked]
    · simp +contextual [hl, marked]

theorem run_of_pending_nil {marked : LineSet} (n : Nat) : run m n ⟨marked, []⟩ = ⟨marked, []⟩ := by
  induction n with
  | zero => rfl
  | succ n ih => exact ih

theorem Inv.pending_run (hf : Inv m start f) {n : Nat} (hn : f.left.card ≤ n) :
    (f.run m n).pending = [] := by
  induction n generalizing f with
  | zero =>
    rw [Nat.le_zero, Finset.card_eq_zero] at hn
    apply List.eq_nil_iff_forall_not_mem.2
    intro l hl
    have hleft : l ∈ f.left := mem_left.2 fun _ => hl
    rw [hn] at hleft
    exact Finset.notMem_empty l hleft
  | succ n ih =>
    match f with
    | ⟨marked, []⟩ => rw [run_of_pending_nil]
    | ⟨marked, l :: rest⟩ =>
      apply ih hf.step
      have expands : Expands m l ⟨marked, l :: rest⟩ _ := expands_step
      rw [hf.left_expands expands, Finset.card_erase_of_mem expands.mem_left]
      omega

theorem Inv.mem_marked_iff (hf : Inv m start f) (done : f.pending = []) :
    l ∈ f.marked ↔ m.Joined start l := by
  constructor
  · exact hf.joined l
  · intro h
    induction h with
    | refl => exact hf.start_marked
    | step _ hc ih => exact hf.closed _ ih (by simp [done]) _ hc

end Flood

namespace Keyboard

variable {m : Keyboard} {l l' : Line}

theorem mem_reach : l' ∈ m.reach l ↔ m.Joined l l' := by
  have start := Flood.inv_start m l
  have enough : (Flood.start l).left.card ≤ 16 := (Finset.card_le_univ _).trans_eq Line.card
  exact (start.run 16).mem_marked_iff (start.pending_run enough)

end Keyboard

end Keyscan
