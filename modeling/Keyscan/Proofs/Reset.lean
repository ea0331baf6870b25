import Keyscan.Proofs.Paddles
import Keyscan.Proofs.Pen.Freshness

/-! What a reset forgets. All of a chip is made anew but its model and the sample of port A, and only
snapshots show the sample, until a read of port A replaces it. The sample of port B lasts just long enough
to tell one edge. -/

namespace Keyscan

namespace Chip

variable {a : Action}

def seenA (c : Chip) (x : Byte) : Chip := { c with portA.sampled := x }

structure Unmoved (r r' : Reaction) : Prop where
  chip : ∃ x, r.chip = r'.chip.seenA x
  events : r.events = r'.events

theorem perform_seenA (c : Chip) (x : Byte) (i : Inputs) (a : Action) :
    ((c.seenA x).perform i a).1 = (c.perform i a).1 ∧
      Unmoved ((c.seenA x).perform i a).2 (c.perform i a).2 := by
  rw [perform_eq, perform_eq]
  cases a.deed with
  | read reg => cases reg <;> exact ⟨rfl, ⟨_, rfl⟩, rfl⟩
  | write reg v => cases reg <;> exact ⟨rfl, ⟨_, rfl⟩, rfl⟩
  | apply rec =>
    refine ⟨rfl, ?_, rfl⟩
    simp only [Deed.reaction, apply]
    cases rec.registers with
    | none => exact ⟨_, rfl⟩
    | some b => exact ⟨_, rfl⟩
  | _ => exact ⟨rfl, ⟨_, rfl⟩, rfl⟩

theorem perform_seenA_of_reads (h : a.Reads .pra) (c : Chip) (x : Byte) (i : Inputs) :
    (c.seenA x).perform i a = c.perform i a := by
  rw [perform_eq, perform_eq, Action.reads_iff.1 h]
  rfl

def renewed (c : Chip) : Chip where
  model := c.model
  portA := c.portA.reset
  portB := c.portB.reset
  paddles := 3

theorem reset_eq (c : Chip) (i : Inputs) :
    c.reset i = .after ((if 3 = c.paddles then [] else [.paddlesChanged c.paddles 3]) ++
      [.selectPaddles 3]) (c.renewed.checkPen i) := by
  have selects : paddleMask c.portA.reset.level = 3 := by
    change paddleMask (Port.level {}) = 3
    decide
  simp only [reset, portAChanged, selects]
  rfl

theorem fresh_reset (c : Chip) (i : Inputs) : (c.reset i).chip.Fresh i :=
  (looked_perform (a := .reset) trivial).fresh

theorem chip_reset (c : Chip) (i : Inputs) : (c.reset i).chip =
    { model := c.model
      portA := { sampled := c.portA.sampled }
      portB := { sampled := (c.reset i).chip.pinsB i }
      paddles := 3
      alarm := false } := by
  rw [reset_eq]
  rfl

theorem reset_forgets (c c' : Chip) (i : Inputs) : (c.reset i).chip =
    ((c'.reset i).chip.withModel c.model).seenA c.portA.sampled := by
  rw [reset_eq, reset_eq]
  rfl

theorem reset_reset (c : Chip) (i : Inputs) :
    (c.reset i).chip.reset i = { chip := (c.reset i).chip, events := [.selectPaddles 3] } := by
  have renewed : (c.reset i).chip.renewed = (c.reset i).chip := by
    rw [reset_eq]
    rfl
  have paddles : 3 = (c.reset i).chip.paddles := by rw [chip_reset]
  rw [reset_eq (c.reset i).chip, renewed, if_pos paddles, (fresh_reset c i).checkPen]
  rfl

theorem selections_reset (c : Chip) (i : Inputs) : Event.selections (c.reset i).events = [3] := by
  have passes : (c.reset i).PassesOn := passesOn_perform (a := .reset) (.inl (.inr (.inr rfl)))
  rw [passes, chip_reset]

theorem penEdges_reset (c : Chip) (i : Inputs) : Event.penEdges (c.reset i).events =
    PenEdge.between c.penSeen ((c.reset i).chip.penLevel i) i.clock := by
  rw [← (fresh_reset c i).penSeen]
  exact (looked_perform (a := .reset) trivial).edges

end Chip

theorem Monitor.hear_reset (m : Monitor) (c : Chip) (i : Inputs) : (c.reset i).events.foldl .hear m =
    { m with
      penEdges := m.penEdges ++ PenEdge.between c.penSeen ((c.reset i).chip.penLevel i) i.clock
      paddles := 3 } := by
  have flushes : (c.reset i).events.count .flushAlarms = 0 := Chip.flushes_reaction c i .reset
  rw [foldl_hear, Chip.penEdges_reset, Chip.selections_reset, flushes]
  rfl

namespace Rig

def Sight.withoutA (s : Sight) : Sight := { s with saved := s.saved.eraseIdx 8 }

theorem perform_seenA (c : Chip) (x : Byte) (m : Machine) (a : Action) :
    (sight (perform ⟨c.seenA x, m⟩ a)).withoutA = (sight (perform ⟨c, m⟩ a)).withoutA ∧
      ∃ y, (perform ⟨c.seenA x, m⟩ a).2.2 =
        ⟨(perform ⟨c, m⟩ a).2.2.chip.seenA y, (perform ⟨c, m⟩ a).2.2.machine⟩ := by
  have saved (c : Chip) (x : Byte) :
      ((c.seenA x).save.eraseIdx 2).eraseIdx 8 = (c.save.eraseIdx 2).eraseIdx 8 := rfl
  cases a with
  | chip a =>
    obtain ⟨answer, ⟨y, chip⟩, events⟩ := Chip.perform_seenA c x m.inputs a
    refine ⟨?_, y, ?_⟩
    · simp only [Sight.withoutA, sight, perform, answer, events, chip, saved]
    · simp only [perform, chip, events]
  | input change =>
    simp only [perform]
    cases m.inputs.change change with
    | error e => exact ⟨rfl, x, rfl⟩
    | ok i => exact ⟨rfl, x, rfl⟩
  | clock t => exact ⟨rfl, x, rfl⟩

theorem trace_seenA (c : Chip) (x : Byte) (m : Machine) (as : List Action) :
    ((trace ⟨c.seenA x, m⟩ as).map sight).map Sight.withoutA =
      ((trace ⟨c, m⟩ as).map sight).map Sight.withoutA := by
  induction as generalizing c x m with
  | nil => rfl
  | cons a as ih =>
    obtain ⟨seen, y, next⟩ := perform_seenA c x m a
    simp only [trace, List.map_cons, seen, next, ih]

theorem run_seenA (c : Chip) (x : Byte) (m : Machine) (as : List Action) :
    ∃ y, run ⟨c.seenA x, m⟩ as = ⟨(run ⟨c, m⟩ as).chip.seenA y, (run ⟨c, m⟩ as).machine⟩ := by
  induction as generalizing c x m with
  | nil => exact ⟨x, rfl⟩
  | cons a as ih =>
    obtain ⟨-, y, next⟩ := perform_seenA c x m a
    rw [run, next]
    exact ih _ y _

theorem trace_seenA_of_reads {a : Chip.Action} (h : a.Reads .pra) (c : Chip) (x : Byte) (m : Machine)
    (as : List Action) : trace ⟨c.seenA x, m⟩ (.chip a :: as) = trace ⟨c, m⟩ (.chip a :: as) := by
  have first : perform ⟨c.seenA x, m⟩ (.chip a) = perform ⟨c, m⟩ (.chip a) := by
    simp only [perform, Chip.perform_seenA_of_reads h]
  rw [trace, trace, first]

theorem length_trace (r : Rig) (as : List Action) : (r.trace as).length = as.length := by
  induction as generalizing r with
  | nil => rfl
  | cons a as ih => exact congrArg (· + 1) (ih _)

theorem map_trace_run {β : Type} {f : Answer × List Event × Rig → β} {r r' : Rig}
    {past rest : List Action}
    (h : (r.trace (past ++ rest)).map f = (r'.trace (past ++ rest)).map f) :
    ((r.run past).trace rest).map f = ((r'.run past).trace rest).map f := by
  rw [trace_append, trace_append, List.map_append, List.map_append] at h
  exact List.append_inj_right h (by simp only [List.length_map, length_trace])

theorem trace_reset (c c' : Chip) (i : Inputs) (m m' : Monitor) (as : List Action) :
    ((trace ⟨(c.reset i).chip, .monitored i m⟩ as).map sight).map Sight.withoutA =
      ((trace ⟨(c'.reset i).chip, .monitored i m'⟩ as).map sight).map Sight.withoutA := by
  have models : (trace ⟨(c'.reset i).chip.withModel c.model, .monitored i m⟩ as).map sight =
      (trace ⟨(c'.reset i).chip, .monitored i m'⟩ as).map sight := trace_withModel _ _ rfl (.inl rfl)
  -- From one chip to the other by way of a third: first the sample is changed, then the model.
  rw [Chip.reset_forgets c c', trace_seenA, models]

theorem trace_reset_of_reads {a : Chip.Action} (ha : a.Reads .pra) (c c' : Chip) (i : Inputs)
    (m m' : Monitor) (past rest : List Action) :
    ((run ⟨(c.reset i).chip, .monitored i m⟩ past).trace (.chip a :: rest)).map sight =
      ((run ⟨(c'.reset i).chip, .monitored i m'⟩ past).trace (.chip a :: rest)).map sight := by
  obtain ⟨x, before⟩ := run_seenA ((c'.reset i).chip.withModel c.model) c.portA.sampled
    (.monitored i m) past
  rw [Chip.reset_forgets c c', before, trace_seenA_of_reads ha]
  exact map_trace_run (trace_withModel _ _ rfl (.inl rfl))

theorem perform_reset_reset (c : Chip) (i : Inputs) {m : Monitor} (h : m.paddles = 3) :
    perform ⟨(c.reset i).chip, .monitored i m⟩ (.chip .reset) =
      (.done, [.selectPaddles 3], ⟨(c.reset i).chip, .monitored i m⟩) := by
  have kept : { m with paddles := 3 } = m := by rw [← h]
  simp only [perform, Chip.perform, Machine.inputs, Chip.reset_reset, Machine.hear, List.foldl_cons,
    List.foldl_nil, Monitor.hear, kept]

end Rig

/-- After a reset of any two chips in machines with the same inputs, before and after port A is read; and
what the reset does itself, and another one right after it. -/
theorem reset_forgets_history :
    (∀ (c c' : Chip) (i : Inputs) (m m' : Monitor),
      let r := (Rig.perform ⟨c, .monitored i m⟩ (.chip .reset)).2.2
      let r' := (Rig.perform ⟨c', .monitored i m'⟩ (.chip .reset)).2.2
      (∀ as, ((r.trace as).map Rig.sight).map Rig.Sight.withoutA =
        ((r'.trace as).map Rig.sight).map Rig.Sight.withoutA) ∧
      ∀ past a rest, a.Reads .pra → ((r.run past).trace (.chip a :: rest)).map Rig.sight =
        ((r'.run past).trace (.chip a :: rest)).map Rig.sight) ∧
    ∀ (c : Chip) (i : Inputs) (m : Monitor),
      let r := (Rig.perform ⟨c, .monitored i m⟩ (.chip .reset)).2.2
      r.chip =
        { model := c.model
          portA := { sampled := c.portA.sampled }
          portB := { sampled := r.chip.pinsB i }
          paddles := 3
          alarm := false } ∧
      r.machine = .monitored i
        { m with
          penEdges := m.penEdges ++
            if c.penSeen = r.chip.penLevel i then [] else [⟨!r.chip.penLevel i, i.clock⟩]
          paddles := 3 } ∧
      Event.selections (c.reset i).events = [3] ∧
      r.perform (.chip .reset) = (.done, [.selectPaddles 3], r) := by
  refine ⟨?_, ?_⟩
  · intro c c' i m m' r r'
    refine ⟨Rig.trace_reset c c' i _ _, ?_⟩
    intro past a rest ha
    exact Rig.trace_reset_of_reads ha c c' i _ _ past rest
  · intro c i m r
    have heard := m.hear_reset c i
    refine ⟨Chip.chip_reset c i, congrArg (Machine.monitored i) heard, Chip.selections_reset c i, ?_⟩
    exact Rig.perform_reset_reset c i (congrArg Monitor.paddles heard)

def Chip.worn : Chip :=
  (Chip.perform {} {} (.restore [1, 1, 0, 2, 1, 0xF0, 0x3C, 0xFF, 0x0F, 0x00, 0x00])).2.chip

def Rig.wornReset : Rig := (Rig.perform ⟨.worn, .monitored { clock := 7 } {}⟩ (.chip .reset)).2.2

def Rig.newReset : Rig :=
  (Rig.perform ⟨{ model := .mos8521 }, .monitored { clock := 7 } { alarmFlushes := 4 }⟩
    (.chip .reset)).2.2

def Rig.scanned : List Rig.Action :=
  [.chip (.write .ddra 0xFF), .chip (.write .pra 0xFD), .input (.keyboard (.set 1 4 true)),
    .chip (.readAt 0x11)]

theorem reset_forgets_history_worn :
    Chip.worn.portA.sampled = 0 ∧ Rig.wornReset.chip.portA.sampled ≠ Rig.newReset.chip.portA.sampled ∧
    ((Rig.wornReset.trace Rig.scanned).map Rig.sight).map Rig.Sight.withoutA =
      ((Rig.newReset.trace Rig.scanned).map Rig.sight).map Rig.Sight.withoutA ∧
    ((Rig.wornReset.run Rig.scanned).trace [.chip (.readAt 0x10), .chip .reset]).map Rig.sight =
      ((Rig.newReset.run Rig.scanned).trace [.chip (.readAt 0x10), .chip .reset]).map Rig.sight ∧
    Rig.wornReset.machine.monitor? = some ⟨[⟨false, 7⟩], 3, 0⟩ ∧
    Rig.newReset.machine.monitor? = some ⟨[], 3, 4⟩ ∧
    Rig.wornReset.perform (.chip .reset) = (.done, [.selectPaddles 3], Rig.wornReset) := by
  obtain ⟨alike, reset⟩ := reset_forgets_history
  obtain ⟨runs, reads⟩ :=
    alike Chip.worn { model := .mos8521 } { clock := 7 } {} { alarmFlushes := 4 }
  obtain ⟨-, -, -, again⟩ := reset Chip.worn { clock := 7 } {}
  exact ⟨by decide, by decide, runs Rig.scanned, reads Rig.scanned (.readAt 0x10) _ rfl,
    by decide +kernel, by decide +kernel, again⟩

end Keyscan
