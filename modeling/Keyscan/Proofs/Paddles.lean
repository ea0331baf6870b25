import Keyscan.Proofs.Deed
import Keyscan.Proofs.Pen.Edges
import Keyscan.Proofs.Snapshot.Transfer

/-! The paddle selection is kept three times: port A makes it, the chip holds it, and the machine holds
what the chip passed on. Writes to port A and resets bring the three together. A record sets the latter two
without regard to port A; only a snapshot of a chip on which they agreed leaves them so. -/

namespace Keyscan

namespace Event

def selection? : Event → Option Byte
  | .selectPaddles mask => some mask
  | _ => none

def selections (es : List Event) : List Byte := es.filterMap selection?

theorem selections_append (es es' : List Event) :
    selections (es ++ es') = selections es ++ selections es' :=
  List.filterMap_append

end Event

theorem Monitor.paddles_hear (m : Monitor) (es : List Event) :
    (es.foldl .hear m).paddles = (Event.selections es).getLast?.getD m.paddles := by
  induction es generalizing m with
  | nil => rfl
  | cons e es ih =>
    rw [List.foldl_cons, ih]
    cases e with
    | selectPaddles mask =>
      change _ = (mask :: Event.selections es).getLast?.getD m.paddles
      rw [List.getLast?_cons]
      rfl
    | _ => rfl

theorem Monitor.foldl_hear (m : Monitor) (es : List Event) : es.foldl .hear m =
    { penEdges := m.penEdges ++ Event.penEdges es
      paddles := (Event.selections es).getLast?.getD m.paddles
      alarmFlushes := m.alarmFlushes + es.count .flushAlarms } := by
  rw [← penEdges_hear, ← paddles_hear, ← alarmFlushes_hear]

namespace Machine

def paddles? (m : Machine) : Option Byte := m.monitor?.map (·.paddles)

theorem paddles?_hear (m : Machine) (es : List Event) :
    (m.hear es).paddles? = m.paddles?.map (Event.selections es).getLast?.getD := by
  cases m with
  | monitored i m => exact congrArg some (m.paddles_hear es)
  | bare _ _ => rfl

theorem paddles?_withInputs (m : Machine) (i : Inputs) : (m.withInputs i).paddles? = m.paddles? := by
  rw [paddles?, monitor?_withInputs, paddles?]

end Machine

def Reaction.PassesOn (r : Reaction) : Prop := Event.selections r.events = [r.chip.paddles]

theorem Reaction.PassesOn.after {r : Reaction} (es : List Event) (quiet : Event.selections es = [])
    (h : r.PassesOn) : (r.after es).PassesOn := by
  rw [PassesOn, Reaction.after, Event.selections_append, quiet]
  exact h

namespace Chip

variable {c d : Chip} {i : Inputs} {r : Reaction} {a : Action}

def Follows (c : Chip) : Prop := c.paddles = paddleMask c.portA.level

def Action.SetsPortA (a : Action) : Prop := a.Writes .pra ∨ a.Writes .ddra ∨ a = .reset

structure Keeps (c : Chip) (r : Reaction) : Prop where
  paddles : r.chip.paddles = c.paddles
  level : r.chip.portA.level = c.portA.level
  selections : Event.selections r.events = []

theorem selections_checkPen (c : Chip) (i : Inputs) : Event.selections (c.checkPen i).events = [] := by
  simp only [checkPen, sampleB]
  split <;> rfl

theorem Keeps.after (es : List Event) (quiet : Event.selections es = []) (h : Keeps c r) :
    Keeps c (r.after es) where
  paddles := h.paddles
  level := h.level
  selections := by rw [Reaction.after, Event.selections_append, quiet, h.selections]; rfl

theorem keeps_checkPen {c' : Chip} (paddles : c'.paddles = c.paddles)
    (level : c'.portA.level = c.portA.level) : Keeps c (c'.checkPen i) :=
  ⟨paddles, level, selections_checkPen c' i⟩

theorem follows_portAChanged (c : Chip) (i : Inputs) : (c.portAChanged i).chip.Follows := rfl

theorem passesOn_portAChanged (c : Chip) (i : Inputs) : (c.portAChanged i).PassesOn := by
  simp only [Reaction.PassesOn, portAChanged, Reaction.after, Event.selections_append,
    selections_checkPen]
  split <;> rfl

theorem keeps_read (c : Chip) (i : Inputs) (reg : Register) : Keeps c (c.read i reg) := by
  cases reg with
  | pra => exact Keeps.after [.flushAlarms] rfl (keeps_checkPen rfl rfl)
  | prb => exact Keeps.after [.flushAlarms] rfl (keeps_checkPen rfl rfl)
  | ddra => exact ⟨rfl, rfl, rfl⟩
  | ddrb => exact ⟨rfl, rfl, rfl⟩

theorem passesOn_apply (c : Chip) (rec : Snapshot.Record) : (c.apply rec).PassesOn := by
  have quiet : Event.selections (c.modelNotes rec.model) = [] := by
    rw [modelNotes]
    split
    · split <;> rfl
    · rfl
  simp only [Reaction.PassesOn, apply, Event.selections_append, quiet]
  cases rec.registers <;> rfl

theorem settled_perform (h : a.SetsPortA) :
    (c.perform i a).2.chip.Follows ∧ (c.perform i a).2.PassesOn := by
  rw [perform_eq]
  rcases h with h | h | rfl
  · obtain ⟨v, hd⟩ := Action.writes_iff.1 h
    rw [hd]
    exact ⟨follows_portAChanged _ i,
      .after [.flushAlarms, .wrote .pra v] rfl (passesOn_portAChanged _ i)⟩
  · obtain ⟨v, hd⟩ := Action.writes_iff.1 h
    rw [hd]
    exact ⟨follows_portAChanged _ i,
      .after [.flushAlarms, .wrote .ddra v] rfl (passesOn_portAChanged _ i)⟩
  · exact ⟨follows_portAChanged _ i, passesOn_portAChanged _ i⟩

theorem passesOn_perform (h : a.SetsPortA ∨ a.TakesRecord) : (c.perform i a).2.PassesOn := by
  rcases h with h | h
  · exact (settled_perform h).2
  · obtain ⟨rec, hd⟩ := Action.takesRecord_iff.1 h
    rw [perform_eq, hd]
    exact passesOn_apply c rec

theorem keeps_perform (h : ¬a.SetsPortA) (h' : ¬a.TakesRecord) : Keeps c (c.perform i a).2 := by
  rw [perform_eq]
  cases hd : a.deed with
  | read reg => exact keeps_read c i reg
  | write reg v =>
    have writes : a.Writes reg := Action.writes_iff.2 ⟨v, hd⟩
    cases reg with
    | pra => exact absurd (.inl writes) h
    | prb => exact Keeps.after [.flushAlarms, .wrote .prb v] rfl (keeps_checkPen rfl rfl)
    | ddra => exact absurd (.inr (.inl writes)) h
    | ddrb => exact Keeps.after [.flushAlarms, .wrote .ddrb v] rfl (keeps_checkPen rfl rfl)
  | checkPen => exact keeps_checkPen rfl rfl
  | reset => exact absurd (.inr (.inr (Action.deed_eq_reset.1 hd))) h
  | setAlarm on => exact ⟨rfl, rfl, rfl⟩
  | apply rec => exact absurd (Action.takesRecord_iff.2 ⟨rec, hd⟩) h'
  | nothing answer => exact ⟨rfl, rfl, rfl⟩

theorem Follows.perform (h : c.Follows) (ha : ¬a.TakesRecord) : (c.perform i a).2.chip.Follows := by
  by_cases sets : a.SetsPortA
  · exact (settled_perform sets).1
  · have keeps : Keeps c (c.perform i a).2 := keeps_perform sets ha
    rw [Follows, keeps.paddles, keeps.level, h]

theorem Follows.paddles_and (h : c.Follows) : c.paddles &&& 3 = c.paddles := by
  rw [h, paddleMask, BitVec.and_assoc, BitVec.and_self]

theorem Follows.restore (hd : d.Follows) (c : Chip) (i : Inputs) :
    (c.perform i (.restore d.save)).2.chip.Follows := by
  obtain ⟨es, restored⟩ := restore_save c hd.paddles_and
  simp only [Chip.perform, restored]
  exact hd

/-- Chips that new ones come to without foreign records: bytes that are restored cannot be read, or are
the snapshot of such a chip. -/
inductive Native : Chip → Prop
  | start (model : Model) : Native { model }
  | perform {c : Chip} (i : Inputs) (a : Action) :
      Native c → ¬a.TakesRecord → Native (c.perform i a).2.chip
  | restore {c d : Chip} (i : Inputs) :
      Native c → Native d → Native (c.perform i (.restore d.save)).2.chip

theorem Native.follows (h : c.Native) : c.Follows := by
  induction h with
  | start model => rfl
  | perform i a _ ha ih => exact ih.perform ha
  | restore i _ _ _ hd => exact hd.restore _ i

def Action.Native (a : Action) : Prop := a.TakesRecord → ∃ d : Chip, d.Native ∧ a = .restore d.save

theorem Follows.native (h : c.Follows) (ha : a.Native) : (c.perform i a).2.chip.Follows := by
  by_cases takes : a.TakesRecord
  · obtain ⟨d, hd, rfl⟩ := ha takes
    exact hd.follows.restore c i
  · exact h.perform takes

end Chip

namespace Rig

variable {r : Rig} {a : Action} {as : List Action}

def Action.Native : Action → Prop
  | .chip a => a.Native
  | .input _ | .clock _ => True

theorem follows_perform (h : r.chip.Follows) (ha : a.Native) : (r.perform a).2.2.chip.Follows := by
  cases a with
  | chip a => exact h.native ha
  | input c =>
    simp only [perform]
    split <;> exact h
  | clock t => exact h

theorem follows_trace (h : r.chip.Follows) (has : ∀ a ∈ as, a.Native) :
    ∀ s ∈ r.trace as, s.2.2.chip.Follows :=
  forall_trace (P := fun r => r.chip.Follows) (fun a ha _ h => follows_perform h (has a ha)) h

def InStep (r : Rig) : Prop := r.machine.paddles? = some r.chip.paddles

theorem inStep_hear {m : Machine} {re : Reaction} (monitored : m.monitor?.isSome = true)
    (h : re.PassesOn) : InStep ⟨re.chip, m.hear re.events⟩ := by
  obtain ⟨mask, held⟩ : ∃ mask, m.paddles? = some mask := by
    cases m with
    | monitored i m => exact ⟨_, rfl⟩
    | bare _ _ => cases monitored
  rw [InStep, Machine.paddles?_hear, held, h]
  rfl

theorem inStep_perform {x : Chip.Action} (monitored : r.machine.monitor?.isSome = true)
    (h : x.SetsPortA ∨ x.TakesRecord) : (r.perform (.chip x)).2.2.InStep :=
  inStep_hear monitored (Chip.passesOn_perform h)

theorem InStep.monitored (h : r.InStep) : r.machine.monitor?.isSome = true := by
  rw [InStep, Machine.paddles?] at h
  rw [← Option.isSome_map, h]
  rfl

theorem InStep.perform (h : r.InStep) (a : Action) : (r.perform a).2.2.InStep := by
  cases a with
  | chip a =>
    by_cases passes : a.SetsPortA ∨ a.TakesRecord
    · exact inStep_perform h.monitored passes
    · obtain ⟨sets, takes⟩ := not_or.1 passes
      have keeps := Chip.keeps_perform (c := r.chip) (i := r.machine.inputs) sets takes
      simp only [Rig.perform]
      rw [InStep, Machine.paddles?_hear, keeps.selections, keeps.paddles, h]
      rfl
  | input c =>
    simp only [Rig.perform]
    split
    · rw [InStep, Machine.paddles?_withInputs]
      exact h
    · exact h
  | clock t =>
    simp only [Rig.perform]
    rw [InStep, Machine.paddles?_withInputs]
    exact h

theorem inStep_trace (h : r.InStep) (as : List Action) : ∀ s ∈ r.trace as, s.2.2.InStep :=
  forall_trace (P := InStep) (fun a _ _ h => h.perform a) h

end Rig

/-- Over runs without foreign records, then over any runs, and then for a machine that only the chip
tells its selection. -/
theorem paddles_follow_portA :
    (∀ (c : Chip) (m : Machine) (as : List Rig.Action), c.Native → (∀ a ∈ as, a.Native) →
      c.paddles = (c.portA.level >>> 6) &&& 3 ∧
      ∀ s ∈ Rig.trace ⟨c, m⟩ as, s.2.2.chip.paddles = (s.2.2.chip.portA.level >>> 6) &&& 3) ∧
    (∀ c : Chip, c.Reachable → c.paddles.toNat ≤ 3 ∧
      ∀ (m : Machine) (a : Chip.Action) (rest : List Rig.Action), a.SetsPortA →
        (∀ x ∈ rest, x.Native) → ∀ s ∈ Rig.trace ⟨c, m⟩ (.chip a :: rest),
          s.2.2.chip.paddles = (s.2.2.chip.portA.level >>> 6) &&& 3) ∧
    ∀ (c : Chip) (i : Inputs) (m : Monitor) (past rest : List Rig.Action) (a : Chip.Action),
      a.SetsPortA ∨ a.TakesRecord →
      let r : Rig := ⟨c, .monitored i m⟩
      ∀ s ∈ (r.run past).trace (.chip a :: rest),
        s.2.2.machine.paddles? = some s.2.2.chip.paddles := by
  refine ⟨?_, ?_, ?_⟩
  · intro c m as hc has
    exact ⟨hc.follows, Rig.follows_trace (r := ⟨c, m⟩) hc.follows has⟩
  · intro c hc
    constructor
    · rw [← hc.paddles_and, BitVec.toNat_and]
      exact Nat.and_le_right
    · intro m a rest sets hrest s hs
      have follows := (Chip.settled_perform (c := c) (i := m.inputs) sets).1
      rcases List.mem_cons.1 hs with rfl | hs
      · exact follows
      · exact Rig.follows_trace follows hrest s hs
  · intro c i m past rest a passes r s hs
    have monitored : (r.run past).machine.monitor?.isSome = true := by
      rw [Rig.isSome_monitor_run]
      rfl
    have inStep := Rig.inStep_perform monitored passes
    rcases List.mem_cons.1 hs with rfl | hs
    · exact inStep
    · exact Rig.inStep_trace inStep rest s hs

def selectingTwo : Chip := (Chip.perform {} {} (.write .ddra 0x40)).2.chip

def givenOne : Chip := (Chip.perform {} {} (.apply ⟨⟨9, 9⟩, 7, 0xFD, true, none⟩)).2.chip

def ownRecords : List Rig.Action :=
  [.chip (.writeAt 0x12 0xC0), .input (.joysticks (.set 2 0x10)), .chip (.restore selectingTwo.save),
    .chip (.restore [2]), .chip (.writeAt 0x20 0x40)]

theorem paddles_follow_portA_records :
    (∀ a ∈ ownRecords, a.Native) ∧
    (∀ s ∈ Rig.trace ⟨{ model := .mos8521 }, .bare {} {}⟩ ownRecords,
      s.2.2.chip.paddles = (s.2.2.chip.portA.level >>> 6) &&& 3) ∧
    (Rig.trace ⟨{ model := .mos8521 }, .bare {} {}⟩ ownRecords).map (·.2.2.chip.paddles) =
      [0, 0, 2, 2, 3] ∧
    givenOne.Reachable ∧ givenOne.paddles ≠ (givenOne.portA.level >>> 6) &&& 3 ∧
    givenOne.paddles.toNat ≤ 3 ∧
    (∀ s ∈ Rig.trace ⟨givenOne, .bare {} {}⟩ [.chip .reset, .clock 5],
      s.2.2.chip.paddles = (s.2.2.chip.portA.level >>> 6) &&& 3) ∧
    ∀ s ∈ Rig.trace (Rig.run ⟨givenOne, .monitored {} {}⟩ [.chip (.writeAt 1 9)])
        [.chip (.restore [1, 0, 7, 2, 1]), .chip (.read .pra), .chip .reset],
      s.2.2.machine.paddles? = some s.2.2.chip.paddles := by
  obtain ⟨natively, anyhow, heard⟩ := paddles_follow_portA
  have two : selectingTwo.Native := .perform {} _ (.start .mos6526) id
  have one : givenOne.Reachable := .perform {} _ (.start .mos6526)
  have native : ∀ a ∈ ownRecords, a.Native := by
    have unread : ¬∃ r, Snapshot.Record.decode [2] = .ok r := by
      rintro ⟨r, decoded⟩
      cases decoded
    simp only [ownRecords, List.forall_mem_cons]
    exact ⟨False.elim, trivial, fun _ => ⟨selectingTwo, two, rfl⟩, fun h => absurd h unread,
      False.elim, by simp⟩
  obtain ⟨bounded, reset⟩ := anyhow givenOne one
  refine ⟨native, (natively _ _ ownRecords (.start .mos8521) native).2, by decide +kernel, one,
    by decide, bounded, reset _ .reset _ (.inr (.inr rfl)) ?_,
    heard _ _ _ [.chip (.writeAt 1 9)] _ _ (.inr ⟨_, rfl⟩)⟩
  intro x hx
  rw [List.mem_singleton.1 hx]
  trivial

end Keyscan
