import Keyscan.Rig

namespace Keyscan

/-- Inputs may be others at each action, as a chip may be moved between machines. -/
inductive Chip.Reachable : Chip → Prop
  | start (model : Model) : Reachable { model }
  | perform {c : Chip} (i : Inputs) (a : Chip.Action) :
      Reachable c → Reachable (c.perform i a).2.chip

theorem Inputs.clock_change {i i' : Inputs} {c : Inputs.Change} (h : i.change c = .ok i') :
    i'.clock = i.clock := by
  cases c with
  | keyboard c =>
    rw [change] at h
    cases hk : i.keyboard.change c with
    | error e => simp [hk, Except.map] at h
    | ok m =>
      simp only [hk, Except.map, Except.ok.injEq] at h
      rw [← h]
  | joysticks c =>
    simp only [change, Except.ok.injEq] at h
    rw [← h]

theorem Monitor.alarmFlushes_hear (m : Monitor) (es : List Event) :
    (es.foldl .hear m).alarmFlushes = m.alarmFlushes + es.count .flushAlarms := by
  induction es generalizing m with
  | nil => rfl
  | cons e es ih =>
    rw [List.foldl_cons, ih, List.count_cons]
    cases e with
    | flushAlarms => exact Nat.add_right_comm m.alarmFlushes 1 _
    | _ => rfl

namespace Machine

variable {m m' : Machine}

@[simp] theorem inputs_hear (m : Machine) (es : List Event) : (m.hear es).inputs = m.inputs := by
  cases m <;> rfl

@[simp] theorem isSome_monitor_hear (m : Machine) (es : List Event) :
    (m.hear es).monitor?.isSome = m.monitor?.isSome := by cases m <;> rfl

@[simp] theorem monitor?_withInputs (m : Machine) (i : Inputs) :
    (m.withInputs i).monitor? = m.monitor? := by cases m <;> rfl

theorem inputs_withInputs {i : Inputs} (h : i.clock = m.inputs.clock) :
    (m.withInputs i).inputs = i := by
  cases m with
  | monitored _ _ => rfl
  | bare _ _ =>
    cases i
    simp only [inputs] at h
    simp only [withInputs, inputs, h]

theorem inputs_withInputs_congr (h : m.monitor?.isSome = m'.monitor?.isSome) (i : Inputs) :
    (m.withInputs i).inputs = (m'.withInputs i).inputs := by
  match m, m', h with
  | monitored _ _, monitored _ _, _ => rfl
  | bare _ _, bare _ _, _ => rfl

end Machine

namespace Rig

def trace (r : Rig) : List Action → List (Answer × List Event × Rig)
  | [] => []
  | a :: as => r.perform a :: trace (r.perform a).2.2 as

def run (r : Rig) : List Action → Rig
  | [] => r
  | a :: as => run (r.perform a).2.2 as

theorem trace_append (r : Rig) (as bs : List Action) :
    r.trace (as ++ bs) = r.trace as ++ (r.run as).trace bs := by
  induction as generalizing r with
  | nil => rfl
  | cons a as ih => exact congrArg (r.perform a :: ·) (ih _)

theorem isSome_monitor_perform (r : Rig) (a : Action) :
    (r.perform a).2.2.machine.monitor?.isSome = r.machine.monitor?.isSome := by
  cases a with
  | chip a => exact Machine.isSome_monitor_hear _ _
  | input c =>
    simp only [perform]
    split
    · rw [Machine.monitor?_withInputs]
    · rfl
  | clock t => rw [perform, Machine.monitor?_withInputs]

theorem isSome_monitor_run (r : Rig) (as : List Action) :
    (r.run as).machine.monitor?.isSome = r.machine.monitor?.isSome := by
  induction as generalizing r with
  | nil => rfl
  | cons a as ih => rw [run, ih, isSome_monitor_perform]

theorem forall_trace {P : Rig → Prop} {as : List Action}
    (step : ∀ a ∈ as, ∀ r, P r → P (r.perform a).2.2) {r : Rig} (h : P r) :
    ∀ s ∈ r.trace as, P s.2.2 := by
  induction as generalizing r with
  | nil => simp [trace]
  | cons a as ih =>
    obtain ⟨now, later⟩ := List.forall_mem_cons.1 step
    have next : P (r.perform a).2.2 := now r h
    intro s hs
    rcases List.mem_cons.1 hs with rfl | hs
    · exact next
    · exact ih later next s hs

end Rig

end Keyscan
