import Keyscan.Proofs.Observation
import Mathlib.Logic.Function.Basic

namespace Keyscan

theorem Register.isSome_ofOffset? (o : BitVec 16) :
    (ofOffset? o).isSome = decide (o.toNat % 16 < 4) := by
  rw [Bool.eq_iff_iff, Option.isSome_iff_ne_none, ne_eq, ofOffset?_eq_none, Nat.not_le, decide_eq_true_iff]

namespace Chip

variable {c : Chip} {i : Inputs} {o : BitVec 16}

def Action.accesses : Action → Bool
  | .read _ | .write _ _ => true
  | .readAt o | .writeAt o _ => o.toNat % 16 < 4
  | .checkPen | .reset | .setAlarm _ | .apply _ | .restore _ => false

theorem flushes_deed (a : Action) : a.deed.flushes = if a.accesses then 1 else 0 := by
  cases a with
  | readAt o =>
    rw [Action.accesses, ← Register.isSome_ofOffset?, Action.deed]
    cases Register.ofOffset? o <;> rfl
  | writeAt o v =>
    rw [Action.accesses, ← Register.isSome_ofOffset?, Action.deed]
    cases Register.ofOffset? o <;> rfl
  | restore bytes =>
    rw [Action.deed]
    cases Snapshot.Record.decode bytes <;> rfl
  | _ => rfl

theorem flushes_perform (c : Chip) (i : Inputs) (a : Action) :
    (c.perform i a).2.events.count .flushAlarms = if a.accesses then 1 else 0 := by
  rw [perform_eq, flushes_reaction, flushes_deed]

def Action.folded : Action → Action
  | .readAt o => .readAt (.ofNat 16 (o.toNat % 16))
  | .writeAt o v => .writeAt (.ofNat 16 (o.toNat % 16)) v
  | a => a

theorem deed_folded (a : Action) : a.folded.deed = a.deed := by
  cases a with
  | readAt o => rw [Action.folded, Action.deed, Register.ofOffset?_mod, Action.deed]
  | writeAt o v => rw [Action.folded, Action.deed, Register.ofOffset?_mod, Action.deed]
  | _ => rfl

theorem perform_folded (c : Chip) (i : Inputs) (a : Action) : c.perform i a.folded = c.perform i a := by
  rw [perform_eq, perform_eq, deed_folded]

theorem perform_readAt_off (off : 4 ≤ o.toNat % 16) :
    c.perform i (.readAt o) = (.byte 0xFF, { chip := c }) := by
  rw [perform_eq, Action.deed, Register.ofOffset?_eq_none.2 off]
  rfl

theorem perform_writeAt_off {v : Byte} (off : 4 ≤ o.toNat % 16) :
    c.perform i (.writeAt o v) = (.done, { chip := c }) := by
  rw [perform_eq, Action.deed, Register.ofOffset?_eq_none.2 off]
  rfl

theorem read_direction {r : Register} (h : r = .ddra ∨ r = .ddrb) :
    c.read i r = { chip := c, events := [.flushAlarms] } := by
  rcases h with rfl | rfl <;> rfl

theorem perform_readAt {r : Register} (h : o.toNat % 16 = r.offset.toNat) :
    c.perform i (.readAt o) = c.perform i (.read r) := by
  rw [perform_eq, Action.deed, Register.ofOffset?_eq_some.2 h]
  rfl

end Chip

namespace Machine

def flushes? (m : Machine) : Option Nat := m.monitor?.map (·.alarmFlushes)

/-- The count as a word of sixty-four bits, which starts again at zero past the largest. -/
def flushWord? (m : Machine) : Option UInt64 := m.flushes?.map .ofNat

theorem flushes?_hear (m : Machine) (es : List Event) :
    (m.hear es).flushes? = m.flushes?.map (· + es.count .flushAlarms) := by
  cases m with
  | monitored i m => exact congrArg some (m.alarmFlushes_hear es)
  | bare _ _ => rfl

theorem hear_nil (m : Machine) : m.hear [] = m := by cases m <;> rfl

theorem flushes?_withInputs (m : Machine) (i : Inputs) : (m.withInputs i).flushes? = m.flushes? := by
  rw [flushes?, monitor?_withInputs, flushes?]

def overwrite (penEdges : List PenEdge) (paddles : Byte) : Machine → Machine
  | monitored i m => monitored i { m with penEdges, paddles }
  | bare keyboard joysticks => bare keyboard joysticks

theorem flushes?_overwrite (m : Machine) (penEdges : List PenEdge) (paddles : Byte) :
    (m.overwrite penEdges paddles).flushes? = m.flushes? := by
  cases m <;> rfl

end Machine

namespace Rig

def Step.accesses : Step → Bool
  | .act (.chip a) => a.accesses
  | .act (.input _) | .act (.clock _) | .peek _ | .save => false

theorem flushes?_take (r : Rig) (s : Step) :
    (r.take s).2.machine.flushes? =
      r.machine.flushes?.map (· + if s.accesses then 1 else 0) := by
  cases s with
  | act a =>
    cases a with
    | chip a =>
      have counted : (r.take (.act (.chip a))).2.machine.flushes? = r.machine.flushes?.map
          (· + (r.chip.perform r.machine.inputs a).2.events.count .flushAlarms) :=
        Machine.flushes?_hear ..
      rw [Chip.flushes_perform] at counted
      exact counted
    | input c =>
      simp only [take, perform]
      cases r.machine.inputs.change c <;> simp [Step.accesses, Machine.flushes?_withInputs]
    | clock t => simp [take, perform, Step.accesses, Machine.flushes?_withInputs]
  | peek reg => simp [take, Step.accesses]
  | save => simp [take, Step.accesses]

end Rig

structure Rack where
  chips : Nat → Chip
  machine : Machine

namespace Rack

variable {k : Rack} {slot : Nat}

/-- Steps of one of the chips. Any chip may be put into a slot, be it new, a copy of another or one that was
in other machines meanwhile, and what the machine has heard but for its count may be written over. -/
inductive Action
  | step (slot : Nat) (s : Rig.Step)
  | insert (slot : Nat) (c : Chip)
  | overwrite (penEdges : List PenEdge) (paddles : Byte)

abbrev Action.chip (slot : Nat) (a : Chip.Action) : Action := .step slot (.act (.chip a))

def rig (k : Rack) (slot : Nat) : Rig := ⟨k.chips slot, k.machine⟩

def put (k : Rack) (slot : Nat) (r : Rig) : Rack := ⟨Function.update k.chips slot r.chip, r.machine⟩

theorem put_chip (k : Rack) (slot : Nat) (m : Machine) :
    k.put slot ⟨k.chips slot, m⟩ = { k with machine := m } := by
  rw [put, Function.update_eq_self]

def perform (k : Rack) : Action → Outcome × Rack
  | .step slot s => (((k.rig slot).take s).1, k.put slot ((k.rig slot).take s).2)
  | .insert slot c => (.answer .done, k.put slot ⟨c, k.machine⟩)
  | .overwrite penEdges paddles =>
    (.answer .done, { k with machine := k.machine.overwrite penEdges paddles })

def run (k : Rack) (as : List Action) : Rack := as.foldl (fun k a => (k.perform a).2) k

def trace (k : Rack) : List Action → List (Outcome × Rack)
  | [] => []
  | a :: as => k.perform a :: trace (k.perform a).2 as

def Action.accesses : Action → Bool
  | .step _ s => s.accesses
  | .insert _ _ | .overwrite _ _ => false

theorem flushes?_perform (k : Rack) (a : Action) :
    (k.perform a).2.machine.flushes? =
      k.machine.flushes?.map (· + if a.accesses then 1 else 0) := by
  cases a with
  | step slot s => exact (k.rig slot).flushes?_take s
  | insert slot c => simp [perform, put, Action.accesses]
  | overwrite penEdges paddles => simp [perform, Machine.flushes?_overwrite, Action.accesses]

theorem flushes?_run (k : Rack) (as : List Action) :
    (k.run as).machine.flushes? = k.machine.flushes?.map (· + as.countP Action.accesses) := by
  induction as generalizing k with
  | nil => simp [run]
  | cons a as ih =>
    rw [run, List.foldl_cons, ← run, ih, flushes?_perform, Option.map_map, List.countP_cons]
    congr 1
    funext n
    exact (Nat.add_assoc ..).trans (congrArg (n + ·) (Nat.add_comm ..))

theorem flushWord?_run (k : Rack) (as : List Action) :
    (k.run as).machine.flushWord? =
      k.machine.flushWord?.map (· + .ofNat (as.countP Action.accesses)) := by
  rw [Machine.flushWord?, flushes?_run, Option.map_map, Machine.flushWord?, Option.map_map]
  congr 1
  funext n
  exact UInt64.ofNat_add n _

def Action.folded : Action → Action
  | .step slot (.act (.chip a)) => .step slot (.act (.chip a.folded))
  | a => a

theorem perform_folded (k : Rack) (a : Action) : k.perform a.folded = k.perform a := by
  cases a with
  | step slot s =>
    cases s with
    | act a =>
      cases a with
      | chip a => simp only [Action.folded, perform, Rig.take, Rig.perform, Chip.perform_folded]
      | input c => rfl
      | clock t => rfl
    | peek reg => rfl
    | save => rfl
  | insert slot c => rfl
  | overwrite penEdges paddles => rfl

theorem trace_folded (k : Rack) (as : List Action) : k.trace (as.map Action.folded) = k.trace as := by
  induction as generalizing k with
  | nil => rfl
  | cons a as ih => rw [List.map_cons, trace, perform_folded, ih, trace]

theorem perform_chip (k : Rack) (slot : Nat) (a : Chip.Action) :
    k.perform (.chip slot a) =
      let (answer, r) := (k.chips slot).perform k.machine.inputs a
      (.answer answer, k.put slot ⟨r.chip, k.machine.hear r.events⟩) := rfl

/-- A machine counts one flush for each access to a register of any of its chips. Places that hold no port
register do nothing, reads of a direction register do nothing else, and places sixteen apart are one. A word
holds the count exactly as long as the count fits into it. -/
theorem one_flush_for_each_access :
    (∀ (chips : Nat → Chip) (i : Inputs) (m : Monitor) (as : List Action),
      (run ⟨chips, .monitored i m⟩ as).machine.flushes? =
        some (m.alarmFlushes + as.countP Action.accesses)) ∧
    (∀ (chips : Nat → Chip) (i : Inputs) (m : Monitor) (as : List Action),
      (run ⟨chips, .monitored i m⟩ as).machine.flushWord? =
        some (.ofNat m.alarmFlushes + .ofNat (as.countP Action.accesses)) ∧
      (m.alarmFlushes + as.countP Action.accesses < UInt64.size →
        (run ⟨chips, .monitored i m⟩ as).machine.flushWord?.map UInt64.toNat =
          some (m.alarmFlushes + as.countP Action.accesses))) ∧
    (∀ (k : Rack) (slot : Nat) (o : BitVec 16) (v : Byte), 4 ≤ o.toNat % 16 →
      k.perform (.chip slot (.readAt o)) = (.answer (.byte 0xFF), k) ∧
      k.perform (.chip slot (.writeAt o v)) = (.answer .done, k)) ∧
    (∀ (chips : Nat → Chip) (i : Inputs) (m : Monitor) (slot : Nat) (r : Register) (o : BitVec 16),
      r = .ddra ∨ r = .ddrb → o.toNat % 16 = r.offset.toNat →
      ∀ a : Chip.Action, a = .read r ∨ a = .readAt o →
        perform ⟨chips, .monitored i m⟩ (.chip slot a) =
          (.answer (.byte ((chips slot).peek i r)),
            ⟨chips, .monitored i { m with alarmFlushes := m.alarmFlushes + 1 }⟩)) ∧
    (∀ (c : Chip) (i : Inputs) (a : Chip.Action), c.perform i a.folded = c.perform i a) ∧
    ∀ (k : Rack) (as : List Action), k.trace (as.map Action.folded) = k.trace as := by
  refine ⟨?_, ?_, ?_, ?_, Chip.perform_folded, trace_folded⟩
  · intro chips i m as
    exact flushes?_run _ as
  · intro chips i m as
    refine ⟨flushWord?_run _ as, ?_⟩
    intro fits
    rw [Machine.flushWord?, flushes?_run]
    exact congrArg some (UInt64.toNat_ofNat_of_lt' fits)
  · intro k slot o v off
    simp only [perform_chip, Chip.perform_readAt_off off, Chip.perform_writeAt_off off, put_chip,
      Machine.hear_nil, and_self]
  · intro chips i m slot r o direction place a ha
    have read : (chips slot).perform i a =
        (.byte ((chips slot).peek i r), { chip := chips slot, events := [.flushAlarms] }) := by
      rw [← Chip.read_direction direction]
      rcases ha with rfl | rfl
      · rfl
      · exact Chip.perform_readAt place
    simp only [perform_chip, Machine.inputs, read]
    exact congrArg (_, ·) (put_chip ⟨chips, _⟩ slot _)

def threeAccesses : List Action :=
  [.chip 0 (.write .ddra 0xFF), .step 1 (.act (.input (.joysticks (.set 1 0x10)))), .chip 1 (.readAt 0x1F3),
    .chip 0 .checkPen, .step 0 (.peek .prb), .insert 2 { model := .mos8521 }, .chip 2 (.writeAt 0x24 7),
    .step 1 .save, .chip 0 (.restore [1, 0, 0, 2, 1]), .overwrite [] 3, .chip 1 .reset, .chip 2 (.read .pra)]

theorem one_flush_for_each_access_three :
    let k : Rack := ⟨fun _ => {}, .monitored {} {}⟩
    (k.run threeAccesses).machine.flushes? = some 3 ∧
    0 + threeAccesses.countP Action.accesses < UInt64.size ∧
    (k.run threeAccesses).machine.flushWord?.map UInt64.toNat = some 3 ∧
    4 ≤ BitVec.toNat 0x24#16 % 16 ∧ k.perform (.chip 2 (.writeAt 0x24 7)) = (.answer .done, k) ∧
    BitVec.toNat 0x1F3#16 % 16 = Register.ddrb.offset.toNat ∧
    k.perform (.chip 1 (.readAt 0x1F3)) =
      (.answer (.byte 0), ⟨fun _ => {}, .monitored {} { alarmFlushes := 1 }⟩) ∧
    k.trace (threeAccesses.map Action.folded) = k.trace threeAccesses := by
  intro k
  obtain ⟨counted, word, off, direction, -, mirrored⟩ := one_flush_for_each_access
  have fits : 0 + threeAccesses.countP Action.accesses < UInt64.size := by decide
  exact ⟨counted k.chips {} {} threeAccesses, fits, (word k.chips {} {} threeAccesses).2 fits, by decide, (off k 2 0x24 7 (by decide)).2, by decide,
    direction k.chips {} {} 1 .ddrb 0x1F3 (.inr rfl) (by decide) _ (.inr rfl), mirrored k threeAccesses⟩

end Rack

end Keyscan
