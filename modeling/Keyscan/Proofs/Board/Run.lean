import Keyscan.Proofs.Pen.Freshness

namespace Keyscan.Board

variable {b : Board} {a : Action} {as : List Action}

def edges (b : Board) : Action → List PenEdge
  | .input c =>
    match b.inputs.change c with
    | .ok i => Event.penEdges (b.chip.checkPen i).events
    | .error _ => []
  | .clock _ => []
  | .read o => Event.penEdges (b.chip.readAt b.inputs o).events
  | .write o v => Event.penEdges (b.chip.writeAt b.inputs o v).events
  | .reset => Event.penEdges (b.chip.reset b.inputs).events
  | .load bytes =>
    match b.chip.restore bytes with
    | .ok r => Event.penEdges r.events
    | .error _ => []

def trace (b : Board) : List Action → List (Answer × List PenEdge × Board)
  | [] => []
  | a :: as => ((b.perform a).1, b.edges a, (b.perform a).2) :: trace (b.perform a).2 as

def told (b : Board) (as : List Action) : List PenEdge := (b.trace as).flatMap (·.2.1)

theorem told_cons : b.told (a :: as) = b.edges a ++ (b.perform a).2.told as := List.flatMap_cons

theorem run_eq_last {α : Type} {f : Board → α} {effect : Action → Option α}
    (step : ∀ a ∈ as, ∀ b, f (b.perform a).2 = (effect a).getD (f b)) (b : Board) :
    f (b.run as) = (as.filterMap effect).getLast?.getD (f b) := by
  induction as generalizing b with
  | nil => rfl
  | cons a as ih =>
    obtain ⟨now, later⟩ := List.forall_mem_cons.1 step
    rw [run, ih later, now]
    cases h : effect a with
    | none => rw [List.filterMap_cons_none h]; rfl
    | some v => rw [List.filterMap_cons_some h, List.getLast?_cons]; rfl

theorem run_kept {α : Type} {f : Board → α} (step : ∀ a ∈ as, ∀ b, f (b.perform a).2 = f b)
    (b : Board) : f (b.run as) = f b := by
  induction as generalizing b with
  | nil => rfl
  | cons a as ih =>
    obtain ⟨now, later⟩ := List.forall_mem_cons.1 step
    rw [run, ih later, now]

theorem run_keeps {P : Board → Prop} (keep : ∀ a ∈ as, ∀ b, P b → P (b.perform a).2) (hb : P b) :
    P (b.run as) := by
  induction as generalizing b with
  | nil => exact hb
  | cons a as ih =>
    obtain ⟨now, later⟩ := List.forall_mem_cons.1 keep
    exact ih later (now b hb)

theorem run_brings {P : Board → Prop} (keep : ∀ a ∈ as, ∀ b, P b → P (b.perform a).2)
    (h : ∃ a ∈ as, ∀ b : Board, P (b.perform a).2) (b : Board) : P (b.run as) := by
  obtain ⟨a, ha, brings⟩ := h
  obtain ⟨past, later, rfl⟩ := List.append_of_mem ha
  rw [run_append, run]
  exact run_keeps (fun x hx => keep x (List.mem_append_right _ (List.mem_cons_of_mem a hx))) (brings _)

end Keyscan.Board
