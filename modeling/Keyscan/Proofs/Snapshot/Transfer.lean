import Keyscan.Proofs.Deed
import Keyscan.Proofs.Run
import Keyscan.Proofs.Snapshot.Codec

/-! A snapshot carries all of a chip but its model. A chip that is restored from one goes on as the
saved chip would, in any machine, because the model has no part in what a chip does. -/

namespace Keyscan

def Event.isModelNote : Event → Bool
  | .modelDiffers _ _ | .modelUnknown _ _ => true
  | _ => false

def Event.plain (es : List Event) : List Event := es.filter (!·.isModelNote)

namespace Chip

open Snapshot

variable {c c' : Chip} {i : Inputs}

theorem paddles_perform (c : Chip) (i : Inputs) (a : Action) :
    (c.perform i a).2.chip.paddles = c.paddles ∨
      ∃ b : Byte, (c.perform i a).2.chip.paddles = b &&& 3 := by
  rw [perform_eq]
  cases a.deed with
  | read r => exact .inl (by cases r <;> rfl)
  | write r v =>
    cases r with
    | pra => exact .inr ⟨_, rfl⟩
    | prb => exact .inl rfl
    | ddra => exact .inr ⟨_, rfl⟩
    | ddrb => exact .inl rfl
  | reset => exact .inr ⟨_, rfl⟩
  | apply r =>
    refine .inr ⟨r.outputBank, ?_⟩
    simp only [Deed.reaction, Chip.apply]
    cases r.registers <;> rfl
  | _ => exact .inl rfl

theorem Reachable.paddles_and (h : c.Reachable) : c.paddles &&& 3 = c.paddles := by
  induction h with
  | start model => rfl
  | @perform c i a _ ih =>
    rcases paddles_perform c i a with kept | ⟨b, set⟩
    · rw [kept, ih]
    · rw [set, BitVec.and_assoc, BitVec.and_self]

def withModel (c : Chip) (model : Model) : Chip := { c with model }

theorem wellFormed_capture (c : Chip) : c.capture.WellFormed where
  version := by simp [capture]; decide
  registers := rfl

theorem decode_save (c : Chip) : Record.decode c.save = .ok c.capture := by
  simpa [save] using Record.decode_encode c.wellFormed_capture []

theorem restore_save (d : Chip) (h : c.paddles &&& 3 = c.paddles) :
    ∃ es, d.restore c.save = .ok ⟨c.withModel d.model, es⟩ := by
  refine ⟨(d.apply c.capture).events, ?_⟩
  rw [restore, decode_save, Except.map]
  simp only [apply, capture, h]
  rfl

theorem capture_injective (h : c.capture = c'.capture) : c = c' := by
  obtain ⟨model, ⟨dataA, ddrA, sampledA⟩, ⟨dataB, ddrB, sampledB⟩, paddles, alarm⟩ := c
  obtain ⟨model', ⟨dataA', ddrA', sampledA'⟩, ⟨dataB', ddrB', sampledB'⟩, paddles', alarm'⟩ := c'
  simp only [capture, registers, Record.mk.injEq, Option.some.injEq, RegisterBlock.mk.injEq] at h
  obtain ⟨-, selector, rfl, rfl, rfl, rfl, rfl, rfl, rfl, rfl⟩ := h
  have same : model = model' := by
    simpa using congrArg Model.ofSelector? selector
  rw [same]

theorem save_injective (h : c.save = c'.save) : c = c' := by
  apply capture_injective
  have decoded : Record.decode c.save = Record.decode c'.save := by rw [h]
  rwa [decode_save, decode_save, Except.ok.injEq] at decoded

structure Blind (model : Model) (r r' : Reaction) : Prop where
  chip : r.chip = r'.chip.withModel model
  events : Event.plain r.events = Event.plain r'.events

theorem peek_withModel (c : Chip) (model : Model) (i : Inputs) (r : Register) :
    (c.withModel model).peek i r = c.peek i r := by
  cases r with
  | pra => rfl
  | prb => rfl
  | ddra => rfl
  | ddrb => rfl

theorem read_withModel (c : Chip) (model : Model) (i : Inputs) (r : Register) :
    Blind model ((c.withModel model).read i r) (c.read i r) := by
  cases r with
  | pra => exact ⟨rfl, rfl⟩
  | prb => exact ⟨rfl, rfl⟩
  | ddra => exact ⟨rfl, rfl⟩
  | ddrb => exact ⟨rfl, rfl⟩

theorem write_withModel (c : Chip) (model : Model) (i : Inputs) (r : Register) (v : Byte) :
    Blind model ((c.withModel model).write i r v) (c.write i r v) := by
  cases r with
  | pra => exact ⟨rfl, rfl⟩
  | prb => exact ⟨rfl, rfl⟩
  | ddra => exact ⟨rfl, rfl⟩
  | ddrb => exact ⟨rfl, rfl⟩

theorem plain_modelNotes (c : Chip) (selector : Byte) (es : List Event) :
    Event.plain (c.modelNotes selector ++ es) = Event.plain es := by
  have quiet : Event.plain (c.modelNotes selector) = [] := by
    rw [modelNotes]
    split
    · split <;> rfl
    · rfl
  rw [Event.plain, List.filter_append]
  exact congrArg (· ++ Event.plain es) quiet

theorem apply_withModel (c : Chip) (model : Model) (r : Record) :
    Blind model ((c.withModel model).apply r) (c.apply r) where
  chip := by
    simp only [apply]
    cases r.registers with
    | none => rfl
    | some b => rfl
  events := by simp only [apply, plain_modelNotes]

theorem perform_withModel (c : Chip) (model : Model) (i : Inputs) (a : Action) :
    ((c.withModel model).perform i a).1 = (c.perform i a).1 ∧
      Blind model ((c.withModel model).perform i a).2 (c.perform i a).2 := by
  rw [perform_eq, perform_eq]
  cases a.deed with
  | read r => exact ⟨congrArg Answer.byte (peek_withModel c model i r), read_withModel c model i r⟩
  | write r v => exact ⟨rfl, write_withModel c model i r v⟩
  | apply r => exact ⟨rfl, apply_withModel c model r⟩
  | _ => exact ⟨rfl, rfl, rfl⟩

end Chip

namespace Rig

variable {r r' : Rig}

structure Sight where
  answer : Answer
  events : List Event
  saved : List Byte

def sight (s : Answer × List Event × Rig) : Sight where
  answer := s.1
  events := Event.plain s.2.1
  saved := s.2.2.chip.save.eraseIdx 2

structure Alike (model : Model) (r r' : Rig) : Prop where
  chip : r.chip = r'.chip.withModel model
  inputs : r.machine.inputs = r'.machine.inputs

/-- Only a machine of one kind keeps a clock, so that a common run sets none unless both do. -/
def ClockedAlike (m m' : Machine) (as : List Action) : Prop :=
  m.monitor?.isSome = m'.monitor?.isSome ∨ ∀ t, .clock t ∉ as

theorem saved_withModel (c : Chip) (model : Model) :
    (c.withModel model).save.eraseIdx 2 = c.save.eraseIdx 2 := rfl

theorem Alike.perform {model : Model} {a : Action} (h : Alike model r r')
    (clocked : ClockedAlike r.machine r'.machine [a]) :
    sight (r.perform a) = sight (r'.perform a) ∧
      Alike model (r.perform a).2.2 (r'.perform a).2.2 := by
  obtain ⟨c, m⟩ := r
  obtain ⟨c', m'⟩ := r'
  obtain ⟨rfl, inputs⟩ := h
  simp only at inputs
  cases a with
  | chip a =>
    obtain ⟨answer, chip, events⟩ := Chip.perform_withModel c' model m'.inputs a
    refine ⟨?_, ?_, ?_⟩
    · simp only [sight, Rig.perform, inputs, answer, chip, events, saved_withModel]
    · simp only [Rig.perform, inputs, chip]
    · simp only [Rig.perform, Machine.inputs_hear, inputs]
  | input change =>
    simp only [Rig.perform, inputs]
    cases hi : m'.inputs.change change with
    | error e => exact ⟨rfl, rfl, inputs⟩
    | ok i =>
      have kept' : i.clock = m'.inputs.clock := Inputs.clock_change hi
      have kept : i.clock = m.inputs.clock := by rw [kept', inputs]
      refine ⟨rfl, rfl, ?_⟩
      simp only [Machine.inputs_withInputs kept, Machine.inputs_withInputs kept']
  | clock t =>
    have kind := clocked.resolve_right fun h => h t (List.mem_singleton.2 rfl)
    refine ⟨rfl, rfl, ?_⟩
    simp only [Rig.perform, inputs]
    exact Machine.inputs_withInputs_congr kind _

theorem Alike.trace {model : Model} {as : List Action} (h : Alike model r r')
    (clocked : ClockedAlike r.machine r'.machine as) :
    (r.trace as).map sight = (r'.trace as).map sight := by
  induction as generalizing r r' with
  | nil => rfl
  | cons a as ih =>
    have now : ClockedAlike r.machine r'.machine [a] := by
      refine clocked.imp_right fun h t ht => h t ?_
      exact List.mem_cons.2 (.inl (List.mem_singleton.1 ht))
    obtain ⟨seen, next⟩ := h.perform now
    have later : ClockedAlike (r.perform a).2.2.machine (r'.perform a).2.2.machine as := by
      rw [ClockedAlike, isSome_monitor_perform, isSome_monitor_perform]
      exact clocked.imp_right fun h t ht => h t (List.mem_cons_of_mem a ht)
    simp only [Rig.trace, List.map_cons, seen, ih next later]

theorem trace_withModel (c : Chip) (model : Model) {m m' : Machine} {as : List Action}
    (inputs : m.inputs = m'.inputs) (clocked : ClockedAlike m m' as) :
    (trace ⟨c.withModel model, m⟩ as).map sight = (trace ⟨c, m'⟩ as).map sight :=
  Alike.trace ⟨rfl, inputs⟩ clocked

end Rig

namespace Chip

theorem snapshot_transfers (c : Chip) (reachable : c.Reachable) (d : Chip) (m : Machine) :
    (∃ es, Rig.perform ⟨d, m⟩ (.chip (.restore c.save)) =
      (.done, es, ⟨c.withModel d.model, m.hear es⟩)) ∧
    (∀ (m m' : Machine) (as : List Rig.Action), m.inputs = m'.inputs → Rig.ClockedAlike m m' as →
      (Rig.trace ⟨c.withModel d.model, m⟩ as).map Rig.sight =
        (Rig.trace ⟨c, m'⟩ as).map Rig.sight) ∧
    (∀ c₁ c₂ : Chip, c₁.save = c₂.save → c₁ = c₂) ∧
    (∀ (c : Chip) (model : Model) (m m' : Machine) (as : List Rig.Action),
      m.inputs = m'.inputs → Rig.ClockedAlike m m' as →
      (Rig.trace ⟨c.withModel model, m⟩ as).map Rig.sight =
        (Rig.trace ⟨c, m'⟩ as).map Rig.sight) := by
  refine ⟨?_, ?_, ?_, ?_⟩
  · obtain ⟨es, restored⟩ := restore_save d reachable.paddles_and
    refine ⟨es, ?_⟩
    simp only [Rig.perform, perform, restored]
  · intro m m' as inputs clocked
    exact Rig.trace_withModel c d.model inputs clocked
  · intro c₁ c₂ h
    exact save_injective h
  · intro c model m m' as inputs clocked
    exact Rig.trace_withModel c model inputs clocked

def strayBank : Chip := (Chip.perform {} {} (.restore [1, 0, 7, 0xFE, 1])).2.chip

theorem snapshot_transfers_strayBank :
    strayBank.Reachable ∧ strayBank.paddles = 2 ∧
    (∃ es, Rig.perform ⟨{ model := .mos8521 }, .bare {} {}⟩ (.chip (.restore strayBank.save)) =
      (.done, es, ⟨strayBank.withModel .mos8521, .bare {} {}⟩)) ∧
    (Rig.trace ⟨strayBank.withModel .mos8521, .bare {} {}⟩
        [.chip (.writeAt 0x12 0xFF), .chip (.readAt 1)]).map Rig.sight =
      (Rig.trace ⟨strayBank, .monitored {} {}⟩
        [.chip (.writeAt 0x12 0xFF), .chip (.readAt 1)]).map Rig.sight := by
  have reachable : strayBank.Reachable := .perform {} _ (.start .mos6526)
  obtain ⟨restored, onward, -⟩ :=
    snapshot_transfers strayBank reachable { model := .mos8521 } (.bare {} {})
  refine ⟨reachable, by decide, restored, onward _ _ _ rfl (.inr ?_)⟩
  simp

end Chip

end Keyscan
