import Keyscan.Machine

namespace Keyscan

namespace PenEdge

variable {level next : Bool} {clock : UInt64} {seen : List (Bool × UInt64)} {e : PenEdge}

def between (level next : Bool) (clock : UInt64) : List PenEdge :=
  if level = next then [] else [⟨!next, clock⟩]

/-- Edges of a line from a level on, when it is seen at some more levels, each at its time. -/
def along (level : Bool) : List (Bool × UInt64) → List PenEdge
  | [] => []
  | (next, clock) :: seen => between level next clock ++ along next seen

@[simp] theorem between_self : between level level clock = [] := if_pos rfl

theorem between_not : between level (!level) clock = [⟨level, clock⟩] := by
  cases level <;> rfl

theorem length_between_le : (between level next clock).length ≤ 1 := by
  rw [between]
  split <;> simp

theorem clock_of_mem_between (h : e ∈ between level next clock) : e.clock = clock := by
  rw [between] at h
  split at h
  · simp at h
  · rw [List.mem_singleton.1 h]

theorem asserted_along {n : Nat} (h : (along level seen)[n]? = some e) :
    e.asserted = if n % 2 = 0 then level else !level := by
  induction seen generalizing level n with
  | nil => simp [along] at h
  | cons s seen ih =>
    obtain ⟨next, clock⟩ := s
    by_cases same : level = next
    · subst same
      rw [along, between_self] at h
      exact ih h
    · obtain rfl : next = !level := by cases level <;> cases next <;> simp_all
      rw [along, between_not] at h
      cases n with
      | zero =>
        simp only [List.singleton_append, List.getElem?_cons_zero, Option.some.injEq] at h
        rw [← h]
        rfl
      | succ n =>
        rw [ih h, Bool.not_not]
        grind

def levelAfter (level : Bool) (es : List PenEdge) : Bool := es.foldl (fun _ e => !e.asserted) level

theorem levelAfter_append (level : Bool) (es es' : List PenEdge) :
    levelAfter level (es ++ es') = levelAfter (levelAfter level es) es' := List.foldl_append

theorem levelAfter_between : levelAfter level (between level next clock) = next := by
  by_cases same : level = next
  · rw [same, between_self]
    rfl
  · rw [between, if_neg same]
    exact Bool.not_not next

theorem levelAfter_of_getLast? {es : List PenEdge} (h : es.getLast? = some e) :
    levelAfter level es = !e.asserted := by
  obtain ⟨es, rfl⟩ := List.getLast?_eq_some_iff.1 h
  rw [levelAfter_append]
  rfl

def turns (level : Bool) (clock : UInt64) : Nat → List PenEdge
  | 0 => []
  | n + 1 => ⟨level, clock⟩ :: turns (!level) clock n

theorem between_append_turns (level next : Bool) (clock : UInt64) (n : Nat) :
    ∃ n', between level next clock ++ turns next clock n = turns level clock n' := by
  by_cases same : level = next
  · subst same
    exact ⟨n, by rw [between_self, List.nil_append]⟩
  · obtain rfl : next = !level := by cases level <;> cases next <;> simp_all
    exact ⟨n + 1, by rw [between_not]; rfl⟩

theorem levelAfter_turns (level : Bool) (clock : UInt64) (n : Nat) :
    levelAfter level (turns level clock n) = if n % 2 = 0 then level else !level := by
  induction n generalizing level with
  | zero => rfl
  | succ n ih =>
    have next : levelAfter level (turns level clock (n + 1)) =
        levelAfter (!level) (turns (!level) clock n) := rfl
    rw [next, ih, Bool.not_not]
    grind

theorem turns_parity {level : Bool} {clock : UInt64} {n n' : Nat}
    (h : levelAfter level (turns level clock n) = levelAfter level (turns level clock n')) :
    n % 2 = n' % 2 := by
  rw [levelAfter_turns, levelAfter_turns] at h
  have even_or_odd (k : Nat) : k % 2 = 0 ∨ k % 2 = 1 := Nat.mod_two_eq_zero_or_one k
  rcases even_or_odd n with hn | hn <;> rcases even_or_odd n' with hn' | hn' <;>
    cases level <;> simp_all

end PenEdge

namespace Event

def penEdge? : Event → Option PenEdge
  | .penEdge e => some e
  | _ => none

def penEdges (es : List Event) : List PenEdge := es.filterMap penEdge?

theorem penEdges_append (es es' : List Event) : penEdges (es ++ es') = penEdges es ++ penEdges es' :=
  List.filterMap_append

end Event

theorem Monitor.penEdges_hear (m : Monitor) (es : List Event) :
    (es.foldl .hear m).penEdges = m.penEdges ++ Event.penEdges es := by
  induction es generalizing m with
  | nil => exact (List.append_nil _).symm
  | cons e es ih =>
    rw [List.foldl_cons, ih]
    cases e with
    | penEdge edge => exact List.append_assoc m.penEdges [edge] (Event.penEdges es)
    | _ => rfl

end Keyscan
