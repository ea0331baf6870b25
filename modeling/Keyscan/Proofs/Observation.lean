import Keyscan.Proofs.Paddles
import Keyscan.Proofs.Pen.Freshness

/-! Looking at a chip. A read or a light pen check leaves samples behind, counts as a flush and may tell an
edge; a peek or a snapshot leaves nothing. No register, pin or selection is ever made of a sample, and so
what a rig goes on to show does not depend on how often it was looked at. -/

namespace Keyscan

namespace Chip

variable {c : Chip} {i : Inputs} {a : Action} {reg : Register}

def unseen (c : Chip) : Chip := { c with portA.sampled := 0xFF, portB.sampled := 0xFF }

def Action.Observes : Action → Prop
  | .read _ | .readAt _ | .checkPen => True
  | _ => False

theorem Action.Observes.of_reads (h : a.Reads reg) : a.Observes := by
  match a, h with
  | .read _, _ => trivial
  | .readAt _, _ => trivial

theorem Action.Observes.loadless (h : a.Observes) : ¬a.LoadsRegisters := by
  cases a with
  | read reg => exact id
  | readAt o => exact id
  | checkPen => exact id
  | _ => exact h.elim

theorem peek_unseen (c : Chip) (i : Inputs) (reg : Register) : c.unseen.peek i reg = c.peek i reg := by
  cases reg <;> rfl

theorem answer_unseen (c : Chip) (i : Inputs) (a : Action) :
    (c.unseen.perform i a).1 = (c.perform i a).1 := by
  rw [perform_eq, perform_eq]
  cases a.deed with
  | read reg => exact congrArg Answer.byte (peek_unseen c i reg)
  | _ => rfl

theorem unseen_perform_unseen (c : Chip) (i : Inputs) (a : Action) :
    (c.unseen.perform i a).2.chip.unseen = (c.perform i a).2.chip.unseen := by
  rw [perform_eq, perform_eq]
  cases a.deed with
  | read reg => cases reg <;> rfl
  | write reg v => cases reg <;> rfl
  | apply rec =>
    simp only [Deed.reaction, apply]
    cases rec.registers <;> rfl
  | _ => rfl

theorem selections_unseen (c : Chip) (i : Inputs) (a : Action) :
    Event.selections (c.unseen.perform i a).2.events = Event.selections (c.perform i a).2.events := by
  by_cases passes : a.SetsPortA ∨ a.TakesRecord
  · rw [passesOn_perform passes, passesOn_perform passes]
    exact congrArg (fun c => [c.paddles]) (unseen_perform_unseen c i a)
  · obtain ⟨sets, takes⟩ := not_or.1 passes
    rw [(keeps_perform sets takes).selections, (keeps_perform sets takes).selections]

theorem unseen_perform_of_observes (h : a.Observes) : (c.perform i a).2.chip.unseen = c.unseen := by
  have read (reg : Register) : (c.read i reg).chip.unseen = c.unseen := by cases reg <;> rfl
  cases a with
  | read reg => exact read reg
  | readAt o =>
    simp only [perform, readAt]
    cases Register.ofOffset? o with
    | none => rfl
    | some reg => exact read reg
  | checkPen => rfl
  | _ => exact h.elim

theorem selections_of_observes (h : a.Observes) : Event.selections (c.perform i a).2.events = [] := by
  cases a with
  | read reg => exact (keeps_perform (by simp [Action.SetsPortA, Action.Writes]) id).selections
  | readAt o => exact (keeps_perform (by simp [Action.SetsPortA, Action.Writes]) id).selections
  | checkPen => exact selections_checkPen c i
  | _ => exact h.elim

theorem Fresh.events_read (h : c.Fresh i) (reg : Register) : (c.read i reg).events = [.flushAlarms] := by
  have check : (c.checkPen i).events = [] := by rw [h.checkPen]
  cases reg with
  | pra => exact congrArg ([Event.flushAlarms] ++ ·) check
  | prb => exact congrArg ([Event.flushAlarms] ++ ·) check
  | ddra => rfl
  | ddrb => rfl

end Chip

inductive Outcome
  | answer (a : Answer)
  | pins (value : Byte)
  | saved (bytes : List Byte)

def Outcome.unseen : Outcome → Outcome
  | .saved bytes => .saved (bytes.take 9)
  | o => o

namespace Rig

variable {r r' : Rig} {a : Action}

inductive Step
  | act (a : Action)
  | peek (reg : Register)
  | save

def Step.Observes : Step → Prop
  | .act (.chip a) => a.Observes
  | .act (.input _) | .act (.clock _) => False
  | .peek _ | .save => True

def take (r : Rig) : Step → Outcome × Rig
  | .act a => (.answer (r.perform a).1, (r.perform a).2.2)
  | .peek reg => (.pins (r.chip.peek r.machine.inputs reg), r)
  | .save => (.saved r.chip.save, r)

def after (r : Rig) (steps : List Step) : Rig := steps.foldl (fun r s => (r.take s).2) r

def shown (r : Rig) : List (Step × Bool) → List (Outcome × Rig)
  | [] => []
  | (s, true) :: steps => r.take s :: shown (r.take s).2 steps
  | (s, false) :: steps => shown (r.take s).2 steps

/-- A rig but for samples, flushes and edges. -/
structure Core where
  chip : Chip
  inputs : Inputs
  selection : Option Byte

def core (r : Rig) : Core := ⟨r.chip.unseen, r.machine.inputs, r.machine.paddles?⟩

theorem core_eq : r.core = r'.core ↔ r.chip.unseen = r'.chip.unseen ∧
    r.machine.inputs = r'.machine.inputs ∧ r.machine.paddles? = r'.machine.paddles? := by
  rw [core, core, Core.mk.injEq]

theorem isSome_monitor_of_core (h : r.core = r'.core) :
    r.machine.monitor?.isSome = r'.machine.monitor?.isSome := by
  rw [← Option.isSome_map (f := Monitor.paddles), ← Option.isSome_map (f := Monitor.paddles)]
  exact congrArg Option.isSome (core_eq.1 h).2.2

theorem core_withInputs (h : r.core = r'.core) (i : Inputs) :
    core { r with machine := r.machine.withInputs i } =
      core { r' with machine := r'.machine.withInputs i } := by
  obtain ⟨chip, -, paddles⟩ := core_eq.1 h
  refine core_eq.2 ⟨chip, ?_, ?_⟩
  · exact Machine.inputs_withInputs_congr (isSome_monitor_of_core h) i
  · rw [Machine.paddles?_withInputs, Machine.paddles?_withInputs, paddles]

theorem perform_congr (h : r.core = r'.core) (a : Action) :
    (r.perform a).1 = (r'.perform a).1 ∧ (r.perform a).2.2.core = (r'.perform a).2.2.core := by
  obtain ⟨chip, inputs, paddles⟩ := core_eq.1 h
  cases a with
  | chip a =>
    -- Both chips act as the one without samples does.
    simp only [perform, inputs]
    refine ⟨?_, core_eq.2 ⟨?_, ?_, ?_⟩⟩
    · rw [← Chip.answer_unseen, chip, Chip.answer_unseen]
    · simp only
      rw [← Chip.unseen_perform_unseen, chip, Chip.unseen_perform_unseen]
    · simp only [Machine.inputs_hear, inputs]
    · simp only [Machine.paddles?_hear, paddles]
      rw [← Chip.selections_unseen, chip, Chip.selections_unseen]
  | input c =>
    simp only [perform, inputs]
    cases r'.machine.inputs.change c with
    | error e => exact ⟨rfl, h⟩
    | ok i => exact ⟨rfl, core_withInputs h i⟩
  | clock t =>
    simp only [perform, inputs]
    exact ⟨trivial, core_withInputs h _⟩

theorem core_perform_of_observes {a : Chip.Action} (h : a.Observes) :
    (r.perform (.chip a)).2.2.core = r.core := by
  refine core_eq.2 ⟨Chip.unseen_perform_of_observes h, ?_, ?_⟩
  · exact Machine.inputs_hear _ _
  · simp only [perform, Machine.paddles?_hear, Chip.selections_of_observes h]
    cases r.machine.paddles? <;> rfl

theorem save_take (c : Chip) : c.save.take 9 = c.unseen.save.take 9 := rfl

theorem take_congr (h : r.core = r'.core) (s : Step) :
    (r.take s).1.unseen = (r'.take s).1.unseen ∧ (r.take s).2.core = (r'.take s).2.core := by
  obtain ⟨chip, inputs, -⟩ := core_eq.1 h
  cases s with
  | act a =>
    obtain ⟨answer, core⟩ := perform_congr h a
    exact ⟨congrArg Outcome.answer answer, core⟩
  | peek reg =>
    refine ⟨congrArg Outcome.pins ?_, h⟩
    rw [← Chip.peek_unseen, chip, Chip.peek_unseen, inputs]
  | save =>
    refine ⟨congrArg Outcome.saved ?_, h⟩
    rw [save_take, chip, ← save_take]

theorem core_take_of_observes {s : Step} (h : s.Observes) : (r.take s).2.core = r.core := by
  rcases s with (a | c | t) | reg | _
  · exact core_perform_of_observes h
  · exact h.elim
  · exact h.elim
  · rfl
  · rfl

theorem after_keeps {P : Rig → Prop} {os : List Step} (step : ∀ s ∈ os, ∀ r, P r → P (r.take s).2)
    (h : P r) : P (r.after os) := by
  induction os generalizing r with
  | nil => exact h
  | cons s os ih =>
    obtain ⟨now, later⟩ := List.forall_mem_cons.1 step
    exact ih later (now r h)

theorem core_after {os : List Step} (h : ∀ s ∈ os, s.Observes) (r : Rig) : (r.after os).core = r.core :=
  after_keeps (P := fun x => x.core = r.core)
    (fun s hs _ same => (core_take_of_observes (h s hs)).trans same) rfl

def view (s : Outcome × Rig) : Outcome × Core := (s.1.unseen, s.2.core)

theorem shown_congr {steps : List (Step × Bool)} (h : ∀ s ∈ steps, s.2 = false → s.1.Observes)
    (same : r.core = r'.core) :
    (r.shown steps).map view = (r'.shown (steps.filter (·.2))).map view := by
  -- The runs are in step as long as the cores agree; a step that is left out leaves the core.
  induction steps generalizing r r' with
  | nil => rfl
  | cons s steps ih =>
    obtain ⟨now, later⟩ := List.forall_mem_cons.1 h
    obtain ⟨s, marked⟩ := s
    cases marked with
    | true =>
      obtain ⟨outcome, core⟩ := take_congr same s
      have here : view (r.take s) = view (r'.take s) := Prod.ext outcome core
      change view (r.take s) :: _ = view (r'.take s) :: _
      rw [here, ih later core]
    | false => exact ih later ((core_take_of_observes (now rfl)).trans same)

theorem perform_read {a : Chip.Action} {reg : Register} (h : a.Reads reg) (r : Rig) :
    r.perform (.chip a) =
      let reaction := r.chip.read r.machine.inputs reg
      (.byte (r.chip.peek r.machine.inputs reg), reaction.events,
        ⟨reaction.chip, r.machine.hear reaction.events⟩) := by
  simp only [perform, Chip.perform_eq, Chip.Action.reads_iff.1 h]
  rfl

theorem Fresh.take {s : Step} (hr : r.Fresh) (h : s.Observes) : (r.take s).2.Fresh := by
  rcases s with (a | c | t) | reg | _
  · exact fresh_chip (Chip.Fresh.perform hr (Chip.Action.Observes.loadless h))
  · exact h.elim
  · exact h.elim
  · exact hr
  · exact hr

theorem Fresh.after {os : List Step} (hr : r.Fresh) (h : ∀ s ∈ os, s.Observes) : (r.after os).Fresh :=
  after_keeps (P := Fresh) (fun s hs _ fresh => fresh.take (h s hs)) hr

theorem reads_commute {a b : Chip.Action} (ha : a.Reads .pra) (hb : b.Reads .prb) (r : Rig) :
    r.run [.chip a, .chip b] = r.run [.chip b, .chip a] := by
  obtain ⟨c, m⟩ := r
  have fresh {reg : Register} (h : reg = .pra ∨ reg = .prb) : (c.read m.inputs reg).chip.Fresh m.inputs :=
    (Chip.looked_read h).fresh
  -- Whichever read comes first tells the edge, and the sample of port A is of the same pins after either.
  have first : (c.read m.inputs .pra).events = (c.read m.inputs .prb).events := rfl
  simp only [run, perform_read ha, perform_read hb, Machine.inputs_hear,
    (fresh (.inl rfl)).events_read, (fresh (.inr rfl)).events_read, first]
  rfl

end Rig

/-- A run and what is left of it without some of its looks; then reads that are repeated, port B read for a
second time, and the two ports read in either order. -/
theorem observation_disturbs_nothing :
    (∀ (r : Rig) (steps : List (Rig.Step × Bool)), (∀ s ∈ steps, s.2 = false → s.1.Observes) →
      (r.shown steps).map Rig.view = (r.shown (steps.filter (·.2))).map Rig.view) ∧
    (∀ (r : Rig) (os : List Rig.Step) (a : Chip.Action) (reg : Register), (∀ s ∈ os, s.Observes) →
      a.Reads reg →
      ((r.after os).perform (.chip a)).1 = .byte (r.chip.peek r.machine.inputs reg)) ∧
    (∀ (r : Rig) (os : List Rig.Step) (a b : Chip.Action), (∀ s ∈ os, s.Observes) →
      a.Reads .prb → b.Reads .prb →
      (((r.perform (.chip a)).2.2.after os).perform (.chip b)).2.1 = [.flushAlarms]) ∧
    ∀ (r : Rig) (a b : Chip.Action), a.Reads .pra → b.Reads .prb →
      ((r.perform (.chip b)).2.2.perform (.chip a)).1 = (r.perform (.chip a)).1 ∧
      ((r.perform (.chip a)).2.2.perform (.chip b)).1 = (r.perform (.chip b)).1 ∧
      r.run [.chip a, .chip b] = r.run [.chip b, .chip a] := by
  refine ⟨?_, ?_, ?_, ?_⟩
  · intro r steps h
    exact Rig.shown_congr h rfl
  · intro r os a reg h ha
    rw [(Rig.perform_congr (Rig.core_after h r) (.chip a)).1, Rig.perform_read ha]
  · intro r os a b h ha hb
    have first : (r.perform (.chip a)).2.2.Fresh := by
      rw [Rig.perform_read ha]
      exact Rig.fresh_chip (a := .read .prb) (Chip.looked_read (.inr rfl)).fresh
    rw [Rig.perform_read hb]
    exact (first.after h).events_read .prb
  · intro r a b ha hb
    have answer {x y : Chip.Action} (hx : x.Observes) :
        ((r.perform (.chip x)).2.2.perform (.chip y)).1 = (r.perform (.chip y)).1 :=
      (Rig.perform_congr (Rig.core_perform_of_observes hx) (.chip y)).1
    exact ⟨answer (.of_reads hb), answer (.of_reads ha), Rig.reads_commute ha hb r⟩

def Rig.lookedAt : List (Rig.Step × Bool) :=
  [(.act (.chip (.write .ddra 0xFF)), true), (.act (.chip (.readAt 0x10)), false),
    (.act (.input (.keyboard (.set 0 4 true))), true), (.act (.chip .checkPen), false),
    (.peek .prb, true), (.save, false), (.act (.input (.keyboard .releaseAll)), true), (.save, true),
    (.act (.chip .reset), true), (.act (.chip (.restore [1, 0, 7, 2, 1])), true),
    (.act (.chip (.readAt 0x21)), true)]

theorem observation_disturbs_nothing_lookedAt :
    (∀ s ∈ Rig.lookedAt, s.2 = false → s.1.Observes) ∧
    (Rig.shown {} Rig.lookedAt).map Rig.view = (Rig.shown {} (Rig.lookedAt.filter (·.2))).map Rig.view ∧
    ((Rig.after {} (Rig.lookedAt.map (·.1))).machine.monitor?.map fun m => (m.penEdges, m.alarmFlushes)) =
      some ([⟨true, 0⟩, ⟨false, 0⟩], 3) ∧
    ((Rig.after {} ((Rig.lookedAt.filter (·.2)).map (·.1))).machine.monitor?.map
      fun m => (m.penEdges, m.alarmFlushes)) = some ([], 2) ∧
    ((Rig.after {} [.act (.chip .checkPen), .act (.chip (.read .prb))]).perform (.chip (.readAt 0x31))).1 =
      .byte 0xFF ∧
    ((Rig.after (Rig.perform {} (.chip (.readAt 1))).2.2 [.save]).perform (.chip (.read .prb))).2.1 =
      [.flushAlarms] ∧
    Rig.run {} [.chip (.read .pra), .chip (.readAt 1)] =
      Rig.run {} [.chip (.readAt 1), .chip (.read .pra)] := by
  obtain ⟨run, again, second, ports⟩ := observation_disturbs_nothing
  have looks : ∀ s ∈ Rig.lookedAt, s.2 = false → s.1.Observes := by
    simp [Rig.lookedAt, Rig.Step.Observes, Chip.Action.Observes]
  refine ⟨looks, run {} _ looks, by decide +kernel, by decide +kernel, ?_, ?_, ?_⟩
  · have idle : Chip.peek {} (Rig.machine {}).inputs .prb = 0xFF := by decide
    rw [again {} _ (.readAt 0x31) .prb (by simp [Rig.Step.Observes, Chip.Action.Observes]) rfl, idle]
  · exact second {} [.save] (.readAt 1) (.read .prb) (by simp [Rig.Step.Observes]) rfl rfl
  · exact (ports {} (.read .pra) (.readAt 1) rfl rfl).2.2

end Keyscan
