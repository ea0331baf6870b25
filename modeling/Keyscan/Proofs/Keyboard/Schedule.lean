import Keyscan.Proofs.Checked.Flood
import Mathlib.Logic.Function.Iterate

namespace Keyscan.Flood

variable {m : Keyboard} {start l : Line} {f f' : Flood} {fs : Nat → Flood} {order : List Line}

/-- Floods one after another. As long as some line is pending one of them is expanded, whichever it is. -/
structure Schedule (m : Keyboard) (start : Line) (fs : Nat → Flood) : Prop where
  first : fs 0 = .start start
  next : ∀ n, (fs n).pending ≠ [] → ∃ l, Expands m l (fs n) (fs (n + 1))

theorem expands_of_perm {fresh pending : List Line} (hl : l ∈ f.pending)
    (each : fresh.Perm (m.contacts l \ f.marked).toList)
    (put : pending.Perm (fresh ++ f.pending.erase l)) :
    Expands m l f ⟨f.marked ∪ (m.contacts l \ f.marked), pending⟩ :=
  .intro (List.perm_cons_erase hl) (put.trans (each.append_right _))

theorem schedule_iterate {next : Flood → Flood}
    (expands : ∀ f, f.pending ≠ [] → ∃ l, Expands m l f (next f)) (start : Line) :
    Schedule m start fun n => next^[n] (.start start) where
  first := rfl
  next n pending := by
    rw [Function.iterate_succ_apply']
    exact expands _ pending

theorem run_eq_iterate (f : Flood) (n : Nat) : f.run m n = (step m)^[n] f := by
  induction n generalizing f with
  | zero => rfl
  | succ n ih => exact ih _

theorem schedule_run (m : Keyboard) (start : Line) :
    Schedule m start fun n => (Flood.start start).run m n := by
  simp only [run_eq_iterate]
  apply schedule_iterate
  intro f pending
  match f, pending with
  | ⟨_, l :: _⟩, _ => exact ⟨l, expands_step⟩

structure Expanded (done : List Line) (f : Flood) : Prop where
  nodup : done.Nodup
  mem_iff : ∀ l, l ∈ done ↔ l ∈ f.marked ∧ l ∉ f.pending

theorem expanded_start (l : Line) : Expanded [] (.start l) where
  nodup := .nil
  mem_iff l' := by simp [Flood.start]

theorem Expanded.expands {done : List Line} (h : Expanded done f) (hf : Inv m start f)
    (he : Expands m l f f') : Expanded (done ++ [l]) f' where
  nodup := by
    -- What is expanded was pending, and what is pending was not expanded before.
    have fresh : l ∉ done := fun old => ((h.mem_iff l).1 old).2 he.mem_expanded
    exact h.nodup.append (List.nodup_singleton l) (List.disjoint_singleton.2 fresh)
  mem_iff l' := by
    have marked : l' ∈ f.pending → l' ∈ f.marked := hf.pending_marked l'
    have now : l' = l → l' ∈ f.pending := fun same => same ▸ he.mem_expanded
    rw [List.mem_append, List.mem_singleton, h.mem_iff, he.mem_marked, he.mem_pending hf.nodup]
    tauto

/-- What a flood has taken off and has still to do: pending lines are marked, none is pending twice or after it
was expanded, and there is room for all of them. -/
structure Orderly (done : List Line) (f : Flood) : Prop where
  marked : ∀ l ∈ f.pending, l ∈ f.marked
  nodup : f.pending.Nodup
  gone : ∀ l ∈ done, l ∉ f.pending
  room : f.pending.length ≤ 16

theorem Expanded.orderly {done : List Line} (h : Expanded done f) (hf : Inv m start f) :
    Orderly done f where
  marked := hf.pending_marked
  nodup := hf.nodup
  gone l hl := ((h.mem_iff l).1 hl).2
  room := hf.length_pending_le

def Expanding (m : Keyboard) (fs : Nat → Flood) (order : List Line) : Prop :=
  ∀ n (h : n < order.length), Expands m order[n] (fs n) (fs (n + 1))

theorem Expanding.concat (h : Expanding m fs order)
    (he : Expands m l (fs order.length) (fs (order.length + 1))) : Expanding m fs (order ++ [l]) := by
  intro n hn
  rw [List.length_append, List.length_singleton] at hn
  rcases Nat.lt_succ_iff_lt_or_eq.1 hn with old | rfl
  · rw [List.getElem_append_left old]
    exact h n old
  · rwa [List.getElem_concat_length rfl]

theorem Schedule.upTo (h : Schedule m start fs) (ho : Expanding m fs order) {n : Nat}
    (hn : n ≤ order.length) : Inv m start (fs n) ∧ Expanded (order.take n) (fs n) := by
  induction n with
  | zero =>
    rw [h.first]
    exact ⟨inv_start m start, expanded_start start⟩
  | succ n ih =>
    obtain ⟨inv, expanded⟩ := ih (by omega)
    have expands := ho n hn
    rw [← List.take_append_getElem hn]
    exact ⟨inv.expands expands, expanded.expands inv expands⟩

theorem Schedule.length_le (h : Schedule m start fs) (ho : Expanding m fs order) :
    order.length ≤ 16 := by
  obtain ⟨-, expanded⟩ := h.upTo ho (Nat.le_refl _)
  rw [List.take_length] at expanded
  exact (List.Nodup.length_le_card expanded.nodup).trans_eq Line.card

theorem Schedule.ended_or (h : Schedule m start fs) (n : Nat) :
    (∃ order, Expanding m fs order ∧ (fs order.length).pending = []) ∨
      ∃ order, Expanding m fs order ∧ order.length = n := by
  induction n with
  | zero => exact .inr ⟨[], fun n hn => absurd hn (Nat.not_lt_zero n), rfl⟩
  | succ n ih =>
    rcases ih with ended | ⟨order, expanding, rfl⟩
    · exact .inl ended
    · by_cases done : (fs order.length).pending = []
      · exact .inl ⟨order, expanding, done⟩
      · obtain ⟨l, expands⟩ := h.next _ done
        exact .inr ⟨order ++ [l], expanding.concat expands, by simp⟩

theorem Schedule.ends (h : Schedule m start fs) :
    ∃ order, Expanding m fs order ∧ (fs order.length).pending = [] := by
  rcases h.ended_or 17 with ended | ⟨order, expanding, long⟩
  · exact ended
  · -- Seventeen expansions would be of seventeen lines.
    have short := h.length_le expanding
    omega

/-- Whatever the order, a flood ends within sixteen expansions, of each line that is joined to its start and of
no other, with the same lines marked. The one that is run keeps its pending lines on the stack. -/
theorem any_order_floods_alike (m : Keyboard) (start : Line) :
    (Schedule m start fun n => (Flood.start start).run m n) ∧
    (∀ n rounds, n + rounds = 16 → ∃ s : Checked.Stack,
      s.Shows ((Flood.start start).run m n).pending ∧
      Checked.reach m (.of start) = Checked.drain m rounds ((Flood.start start).run m n).marked s) ∧
    Checked.reach m (.of start) = .ok (m.reach start) ∧
    (∀ (f : Flood) (l : Line) (fresh pending : List Line), l ∈ f.pending →
      fresh.Perm (m.contacts l \ f.marked).toList → pending.Perm (fresh ++ f.pending.erase l) →
      Expands m l f ⟨f.marked ∪ (m.contacts l \ f.marked), pending⟩) ∧
    ∀ fs : Nat → Flood, Schedule m start fs → ∃ order : List Line,
      order.Nodup ∧ (∀ l, l ∈ order ↔ l ∈ m.reach start) ∧ order.length ≤ 16 ∧
      (∀ n (h : n < order.length), Expands m order[n] (fs n) (fs (n + 1))) ∧
      (∀ n ≤ order.length, Orderly (order.take n) (fs n)) ∧
      (fs order.length).pending = [] ∧ (fs order.length).marked = m.reach start := by
  refine ⟨schedule_run m start, fun n rounds => Checked.reach_eq_drain m start,
    Checked.reach_of m start, fun f l fresh pending => expands_of_perm, ?_⟩
  intro fs schedule
  obtain ⟨order, expanding, done⟩ := schedule.ends
  obtain ⟨inv, expanded⟩ := schedule.upTo expanding (Nat.le_refl _)
  rw [List.take_length] at expanded
  have found : (fs order.length).marked = m.reach start := by
    apply LineSet.ext
    intro l
    rw [inv.mem_marked_iff done, Keyboard.mem_reach]
  refine ⟨order, expanded.nodup, ?_, schedule.length_le expanding, expanding, ?_, done, found⟩
  · intro l
    rw [expanded.mem_iff, done, found]
    exact and_iff_left List.not_mem_nil
  · intro n hn
    obtain ⟨inv, expanded⟩ := schedule.upTo expanding hn
    exact expanded.orderly inv

def stepFirst (m : Keyboard) : Flood → Flood
  | ⟨marked, []⟩ => ⟨marked, []⟩
  | ⟨marked, l :: rest⟩ =>
    let fresh := m.contacts l \ marked
    ⟨marked ∪ fresh, rest ++ fresh.toList⟩

def forked : Keyboard := .ofBits 0x503

theorem any_order_floods_alike_forked :
    let fs := fun n => (stepFirst forked)^[n] (.start (.col 0))
    Schedule forked (.col 0) fs ∧
    (fs 2).pending = [.row 1, .col 1] ∧
    ((Flood.start (.col 0)).run forked 2).pending = [.col 2, .row 0] ∧
    ∃ order : List Line, order.Nodup ∧ order.length ≤ 16 ∧
      (fs order.length).pending = [] ∧ (fs order.length).marked = ⟨0x03, 0x07⟩ := by
  intro fs
  have schedule : Schedule forked (.col 0) fs := by
    apply schedule_iterate
    intro f pending
    match f, pending with
    | ⟨_, l :: _⟩, _ => exact ⟨l, .intro (.refl _) List.perm_append_comm⟩
  have found : forked.reach (.col 0) = ⟨0x03, 0x07⟩ := by decide +kernel
  obtain ⟨-, -, -, -, alike⟩ := any_order_floods_alike forked (.col 0)
  obtain ⟨order, once, -, short, -, -, done, marked⟩ := alike fs schedule
  exact ⟨schedule, by decide +kernel, by decide +kernel, order, once, short, done, marked.trans found⟩

end Keyscan.Flood
