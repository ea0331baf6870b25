import Keyscan.Proofs.Pen.Sampling
import Keyscan.Proofs.Run

namespace Keyscan

namespace Machine

def recorded (m : Machine) : Option (List PenEdge) := m.monitor?.map (·.penEdges)

theorem recorded_hear (m : Machine) (es : List Event) :
    (m.hear es).recorded = m.recorded.map (· ++ Event.penEdges es) := by
  cases m with
  | monitored i m => exact congrArg some (m.penEdges_hear es)
  | bare _ _ => rfl

theorem recorded_hear_nil (m : Machine) : m.recorded = m.recorded.map (· ++ []) := by
  simp

theorem recorded_withInputs (m : Machine) (i : Inputs) : (m.withInputs i).recorded = m.recorded := by
  rw [recorded, monitor?_withInputs, recorded]

end Machine

namespace Rig

variable {r : Rig} {a : Action} {as : List Action}

def Action.LoadsRegisters : Action → Prop
  | .chip a => a.LoadsRegisters
  | .input _ | .clock _ => False

def penEdges (r : Rig) (as : List Action) : List PenEdge :=
  (r.trace as).flatMap fun s => Event.penEdges s.2.1

theorem penEdges_cons (r : Rig) (a : Action) (as : List Action) :
    r.penEdges (a :: as) = Event.penEdges (r.perform a).2.1 ++ (r.perform a).2.2.penEdges as :=
  List.flatMap_cons

theorem penEdges_append (r : Rig) (as bs : List Action) :
    r.penEdges (as ++ bs) = r.penEdges as ++ (r.run as).penEdges bs := by
  rw [penEdges, trace_append, List.flatMap_append]
  rfl

theorem penEdges_perform (r : Rig) (ha : ¬a.LoadsRegisters) :
    Event.penEdges (r.perform a).2.1 =
      PenEdge.between r.chip.penSeen (r.perform a).2.2.chip.penSeen r.machine.inputs.clock := by
  cases a with
  | chip a => exact Chip.penEdges_perform r.chip r.machine.inputs ha
  | input c =>
    simp only [perform]
    split
    · exact PenEdge.between_self.symm
    · exact PenEdge.between_self.symm
  | clock t => exact PenEdge.between_self.symm

theorem chip_perform_input (r : Rig) (c : Inputs.Change) :
    (r.perform (.input c)).2.2.chip = r.chip := by
  simp only [perform]
  split <;> rfl

theorem clock_perform (r : Rig) (a : Action) :
    (r.perform a).2.2.machine.inputs.clock = r.machine.inputs.clock ∨
      (r.perform a).2.2.chip = r.chip := by
  cases a with
  | chip a => exact .inl (congrArg Inputs.clock (Machine.inputs_hear _ _))
  | input c => exact .inr (chip_perform_input r c)
  | clock t => exact .inr rfl

def sighting (r : Rig) : Bool × UInt64 := (r.chip.penSeen, r.machine.inputs.clock)

theorem penEdges_eq_along (h : ∀ a ∈ as, ¬a.LoadsRegisters) :
    r.penEdges as = PenEdge.along r.chip.penSeen ((r.trace as).map (·.2.2.sighting)) := by
  induction as generalizing r with
  | nil => rfl
  | cons a as ih =>
    obtain ⟨ha, has⟩ := List.forall_mem_cons.1 h
    rw [penEdges_cons, ih has, penEdges_perform r ha]
    apply congrArg (· ++ _)
    rcases clock_perform r a with still | same
    · rw [← still]
    · rw [same, PenEdge.between_self, PenEdge.between_self]

theorem levelAfter_penEdges (h : ∀ a ∈ as, ¬a.LoadsRegisters) :
    PenEdge.levelAfter r.chip.penSeen (r.penEdges as) = (r.run as).chip.penSeen := by
  induction as generalizing r with
  | nil => rfl
  | cons a as ih =>
    obtain ⟨ha, has⟩ := List.forall_mem_cons.1 h
    rw [penEdges_cons, PenEdge.levelAfter_append, penEdges_perform r ha, PenEdge.levelAfter_between]
    exact ih has

theorem recorded_perform (r : Rig) (a : Action) :
    (r.perform a).2.2.machine.recorded =
      r.machine.recorded.map (· ++ Event.penEdges (r.perform a).2.1) := by
  cases a with
  | chip a => exact Machine.recorded_hear _ _
  | input c =>
    simp only [perform]
    split
    · exact (Machine.recorded_withInputs _ _).trans (Machine.recorded_hear_nil _)
    · exact Machine.recorded_hear_nil _
  | clock t => exact (Machine.recorded_withInputs _ _).trans (Machine.recorded_hear_nil _)

theorem recorded_run (r : Rig) (as : List Action) :
    (r.run as).machine.recorded = r.machine.recorded.map (· ++ r.penEdges as) := by
  induction as generalizing r with
  | nil => exact Machine.recorded_hear_nil _
  | cons a as ih =>
    rw [run, ih, recorded_perform, Option.map_map, penEdges_cons]
    simp only [Function.comp_def, List.append_assoc]

theorem pen_edges_take_turns (model : Model) (i : Inputs) (m : Monitor) (as : List Action)
    (h : ∀ a ∈ as, ¬a.LoadsRegisters) :
    let r : Rig := ⟨{ model }, .monitored i m⟩
    (∀ n e, (r.penEdges as)[n]? = some e → (e.asserted = true ↔ n % 2 = 0)) ∧
    (∀ past a rest, as = past ++ a :: rest →
      let told := Event.penEdges ((r.run past).perform a).2.1
      told.length ≤ 1 ∧ ∀ e ∈ told, e.clock = (r.run past).machine.inputs.clock) ∧
    (∀ past, past <+: as →
      (∀ e, (r.penEdges past).getLast? = some e →
        (e.asserted = true ↔ Chip.penLine ∉ (r.run past).chip.portB.sampled)) ∧
      (r.penEdges past = [] → Chip.penLine ∈ (r.run past).chip.portB.sampled)) ∧
    (r.run as).machine.recorded = some (m.penEdges ++ r.penEdges as) := by
  intro r
  have high : r.chip.penSeen = true := decide_eq_true Byte.mem_full
  refine ⟨?_, ?_, ?_, ?_⟩
  · intro n e he
    rw [penEdges_eq_along h] at he
    rw [PenEdge.asserted_along he, high]
    split <;> simp_all
  · intro past a rest split
    have ha : ¬a.LoadsRegisters := h a (by simp [split])
    rw [penEdges_perform _ ha]
    exact ⟨PenEdge.length_between_le, fun e he => PenEdge.clock_of_mem_between he⟩
  · intro past sub
    have seen : PenEdge.levelAfter true (r.penEdges past) = (r.run past).chip.penSeen := by
      rw [← high]
      exact levelAfter_penEdges fun a ha => h a (sub.subset ha)
    constructor
    · intro e he
      rw [← Chip.penSeen_iff, ← seen, PenEdge.levelAfter_of_getLast? he]
      simp
    · intro none
      rw [← Chip.penSeen_iff, ← seen, none]
      rfl
  · exact recorded_run r as

def heldFire : List Action :=
  [.input (.joysticks (.set 1 0x10)), .clock 3, .chip (.readAt 0x10), .chip .reset,
    .chip (.restore [1, 0, 7, 2, 1]), .clock 9, .input (.joysticks .releaseAll), .chip .checkPen]

theorem pen_edges_take_turns_heldFire :
    let r : Rig := ⟨{ model := .mos8521 }, .monitored {} {}⟩
    (∀ a ∈ heldFire, ¬a.LoadsRegisters) ∧
    r.penEdges heldFire = [⟨true, 3⟩, ⟨false, 9⟩] ∧
    (∀ n e, (r.penEdges heldFire)[n]? = some e → (e.asserted = true ↔ n % 2 = 0)) ∧
    Chip.penLine ∉ (r.run (heldFire.take 5)).chip.portB.sampled ∧
    (r.run heldFire).machine.recorded = some (r.penEdges heldFire) := by
  intro r
  have loadless : ∀ a ∈ heldFire, ¬a.LoadsRegisters := by
    simp only [heldFire, List.forall_mem_cons, Action.LoadsRegisters, Chip.Action.LoadsRegisters]
    refine ⟨id, id, id, id, ?_, id, id, id, by simp⟩
    rintro ⟨rec, decoded, brings⟩
    cases decoded
    cases brings
  obtain ⟨turns, -, levels, recorded⟩ := pen_edges_take_turns .mos8521 {} {} heldFire loadless
  have held : (r.penEdges (heldFire.take 5)).getLast? = some ⟨true, 3⟩ := by decide +kernel
  refine ⟨loadless, by decide +kernel, turns, ?_, recorded.trans (congrArg some (List.nil_append _))⟩
  exact ((levels _ (List.take_prefix 5 heldFire)).1 _ held).1 rfl

end Rig

end Keyscan
