import Keyscan.Proofs.Board.Run
import Keyscan.Proofs.Keyboard.History
import Keyscan.Proofs.Paddles

/-! Things that can be set on a board one by one: keys, the SHIFT LOCK latch, the keyboard line and the port
registers. Only the last setting of each counts, in whatever order they come. What the board makes of
them, the sample of port B and the paddle selection, it makes anew each time. -/

namespace Keyscan

def Chip.register (c : Chip) : Register → Byte
  | .pra => c.portA.data
  | .prb => c.portB.data
  | .ddra => c.portA.ddr
  | .ddrb => c.portB.ddr

namespace Board

variable {b : Board} {a : Action} {as bs : List Action}

inductive Setting
  | key (k : Key)
  | latch
  | keyboardOn
  | register (r : Register)

abbrev Setting.Value : Setting → Type
  | .register _ => Byte
  | .key _ | .latch | .keyboardOn => Bool

variable {s : Setting}

def Action.effect : (s : Setting) → Action → Option s.Value
  | .key k, .input (.keyboard c) => c.effect k
  | .latch, .input (.keyboard c) => c.latchEffect
  | .keyboardOn, .input (.joysticks (.keyboard on)) => some on
  | .register r, .write o v => if o.toNat % 16 = r.offset.toNat then some v else none
  | _, _ => none

/-- Changes of the keyboard and of its line, and writes at any place. -/
def Action.Sets : Action → Prop
  | .input (.keyboard _) | .input (.joysticks (.keyboard _)) | .write _ _ => True
  | _ => False

def lastSet (s : Setting) (as : List Action) : Option s.Value := (as.filterMap (Action.effect s)).getLast?

def setting (b : Board) : (s : Setting) → s.Value
  | .key k => decide (k ∈ b.inputs.keyboard)
  | .latch => b.inputs.keyboard.shiftLock
  | .keyboardOn => b.inputs.joysticks.keyboardOn
  | .register r => b.chip.register r

theorem keyboard_perform (b : Board) (c : Keyboard.Change) :
    (b.perform (.input (.keyboard c))).2.inputs =
      { b.inputs with keyboard := b.inputs.keyboard.apply c } := by
  simp only [perform, change, Inputs.change, Keyboard.apply]
  cases b.inputs.keyboard.change c <;> rfl

theorem chip_perform_input (b : Board) (c : Inputs.Change) :
    (b.perform (.input c)).2.chip =
      { b.chip with portB.sampled := (b.perform (.input c)).2.chip.portB.sampled } := by
  simp only [perform, change]
  cases b.inputs.change c <;> rfl

theorem register_write (c : Chip) (i : Inputs) (r r' : Register) (v : Byte) :
    (c.write i r v).chip.register r' = if r' = r then v else c.register r' := by
  cases r <;> cases r' <;> rfl

theorem register_perform_write (b : Board) (o : BitVec 16) (v : Byte) (r : Register) :
    (b.perform (.write o v)).2.chip.register r =
      if o.toNat % 16 = r.offset.toNat then v else b.chip.register r := by
  simp only [perform, react, Chip.writeAt, ← Register.ofOffset?_eq_some]
  cases Register.ofOffset? o with
  | none => rfl
  | some r' =>
    simp only [register_write, Option.some.injEq, eq_comm]

theorem setting_perform (ha : a.Sets) :
    (b.perform a).2.setting s = (a.effect s).getD (b.setting s) := by
  match a with
  | .input (.keyboard c) =>
    cases s with
    | key k =>
      simp only [setting, keyboard_perform]
      rw [Bool.eq_iff_iff, decide_eq_true_iff, Keyboard.mem_apply]
      rfl
    | latch =>
      simp only [setting, keyboard_perform, Keyboard.shiftLock_apply]
      rfl
    | keyboardOn =>
      simp only [setting, keyboard_perform]
      rfl
    | register r =>
      simp only [setting]
      rw [chip_perform_input]
      cases r <;> rfl
  | .input (.joysticks (.keyboard on)) =>
    cases s with
    | register r => cases r <;> rfl
    | _ => rfl
  | .write o v =>
    cases s with
    | register r =>
      simp only [setting, register_perform_write, Action.effect]
      split <;> rfl
    | _ => rfl

theorem col_perform {row col : Fin 8} (ha : a.Sets) :
    decide (row ∈ (b.perform a).2.inputs.keyboard.col col) =
      (a.effect (.key ⟨row, col⟩)).getD (decide (row ∈ b.inputs.keyboard.col col)) := by
  match a with
  | .input (.keyboard c) =>
    rw [keyboard_perform, Bool.eq_iff_iff, decide_eq_true_iff]
    exact Keyboard.mem_col_apply
  | .input (.joysticks (.keyboard on)) => rfl
  | .write o v => rfl

def rest (b : Board) : Model × Byte × Bool × Joystick × Joystick × Bool × UInt64 :=
  (b.chip.model, b.chip.portA.sampled, b.chip.alarm, b.inputs.joysticks.one, b.inputs.joysticks.two,
    b.inputs.joysticks.swapped, b.inputs.clock)

theorem rest_perform (ha : a.Sets) : (b.perform a).2.rest = b.rest := by
  match a with
  | .input (.keyboard c) =>
    simp only [rest, keyboard_perform]
    rw [chip_perform_input]
  | .input (.joysticks (.keyboard on)) => rfl
  | .write o v =>
    simp only [perform, react, Chip.writeAt]
    cases Register.ofOffset? o with
    | none => rfl
    | some r => cases r <;> rfl

theorem lastSet_eq_none : lastSet s as = none ↔ ∀ a ∈ as, a.effect s = none := by
  rw [lastSet, List.getLast?_eq_none_iff, List.filterMap_eq_nil_iff]

theorem lastSet_ne_none : lastSet s as ≠ none ↔ ∃ a ∈ as, a.effect s ≠ none := by
  simp only [ne_eq, lastSet_eq_none, not_forall, exists_prop]

theorem Action.effect_write {o : BitVec 16} {v : Byte} {r : Register} :
    (Action.write o v).effect (.register r) ≠ none ↔ o.toNat % 16 = r.offset.toNat := by
  change (if o.toNat % 16 = r.offset.toNat then some v else none) ≠ none ↔ _
  simp

theorem lastSet_swap {a' : Action} (h : a.effect s = none ∨ a'.effect s = none) :
    lastSet s [a, a'] = lastSet s [a', a] := by
  rcases h with h | h <;> simp only [lastSet, List.filterMap_cons, h]

theorem Action.effect_write_offset {r r' : Register} (h : r ≠ r') (s : Setting) {v v' : Byte} :
    (write r.offset v).effect s = none ∨ (write r'.offset v').effect s = none := by
  cases s with
  | register q =>
    by_contra both
    obtain ⟨one, other⟩ := not_or.1 both
    have one := Register.ofOffset?_eq_some.2 (effect_write.1 one)
    have other := Register.ofOffset?_eq_some.2 (effect_write.1 other)
    rw [Register.ofOffset?_offset, Option.some.injEq] at one other
    exact h (one.trans other.symm)
  | _ => exact .inl rfl

theorem Action.Sets.loadless (ha : a.Sets) : ¬a.LoadsRegisters := by
  match a with
  | .input (.keyboard c) => exact id
  | .input (.joysticks (.keyboard on)) => exact id
  | .write o v => exact id

theorem perform_of_idle (ha : a.Sets) (idle : ∀ s, a.effect s = none) : (b.perform a).2 = b := by
  match a with
  | .input (.keyboard (.set row col on)) =>
    cases hk : Key.ofBytes row col with
    | error e => simp only [perform, change, Inputs.change, Keyboard.change, Keyboard.setKey, hk]; rfl
    | ok k =>
      have on_key : row.toNat = k.row ∧ col.toNat = k.col := Key.ofBytes_eq_ok.1 hk
      have nothing := idle (.key k)
      simp [Action.effect, Keyboard.Change.effect, on_key] at nothing
  | .input (.keyboard .releaseAll) => cases idle (.key ⟨0, 0⟩)
  | .input (.keyboard (.shiftLock on)) => cases idle .latch
  | .input (.keyboard (.load bits)) => cases idle .latch
  | .input (.joysticks (.keyboard on)) => cases idle .keyboardOn
  | .write o v =>
    simp only [perform, react, Chip.writeAt]
    cases hr : Register.ofOffset? o with
    | none => rfl
    | some r =>
      exact absurd (idle (.register r)) (Action.effect_write.2 (Register.ofOffset?_eq_some.1 hr))

theorem looks_of_effect (ha : a.Sets) (h : a.effect s ≠ none) : a.Looks := by
  match a with
  | .input (.keyboard (.set row col on)) =>
    cases s with
    | key k =>
      simp only [Action.effect, Keyboard.Change.effect, ne_eq, ite_eq_right_iff, reduceCtorEq,
        imp_false, not_not] at h
      simp only [Action.Looks]
      omega
    | _ => exact absurd rfl h
  | .input (.keyboard .releaseAll) => trivial
  | .input (.keyboard (.shiftLock on)) => trivial
  | .input (.keyboard (.load bits)) => trivial
  | .input (.joysticks (.keyboard on)) => trivial
  | .write o v =>
    cases s with
    | register r =>
      rw [Action.Looks, Action.effect_write.1 h]
      cases r <;> decide
    | _ => exact absurd rfl h

theorem fresh_run (has : ∀ a ∈ as, a.Sets) (h : ∃ s, lastSet s as ≠ none) (b : Board) :
    (b.run as).Fresh := by
  obtain ⟨s, hs⟩ := h
  obtain ⟨a, ha, effect⟩ := lastSet_ne_none.1 hs
  apply run_brings (P := Fresh)
  · exact fun x hx b hb => hb.perform (has x hx).loadless
  · exact ⟨a, ha, fun b => b.fresh_perform (looks_of_effect (has a ha) effect)⟩

theorem run_of_idle (has : ∀ a ∈ as, a.Sets) (idle : ∀ s, lastSet s as = none) (b : Board) :
    b.run as = b := by
  apply run_kept (f := id)
  intro a ha b
  exact perform_of_idle (has a ha) fun s => lastSet_eq_none.1 (idle s) a ha

theorem follows_run (has : ∀ a ∈ as, a.Sets)
    (h : lastSet (.register .pra) as ≠ none ∨ lastSet (.register .ddra) as ≠ none) (b : Board) :
    (b.run as).chip.Follows := by
  have keep : ∀ a ∈ as, ∀ b : Board, b.chip.Follows → (b.perform a).2.chip.Follows := by
    intro a ha b hb
    match a, has a ha with
    | .input c, _ =>
      rw [chip_perform_input]
      exact hb
    | .write o v, _ => exact hb.perform (a := .writeAt o v) id
  have brings {r : Register} (hr : r = .pra ∨ r = .ddra) (h : lastSet (.register r) as ≠ none) :
      ∃ a ∈ as, ∀ b : Board, (b.perform a).2.chip.Follows := by
    obtain ⟨a, ha, effect⟩ := lastSet_ne_none.1 h
    refine ⟨a, ha, fun b => ?_⟩
    match a, has a ha with
    | .input c, _ => exact absurd rfl effect
    | .write o v, _ =>
      have place : o.toNat % 16 = r.offset.toNat := Action.effect_write.1 effect
      have sets : (Chip.Action.writeAt o v).SetsPortA := by
        rcases hr with rfl | rfl
        · exact .inl place
        · exact .inr (.inl place)
      exact (Chip.settled_perform sets).1
  apply run_brings keep
  rcases h with h | h
  · exact brings (.inl rfl) h
  · exact brings (.inr rfl) h

theorem paddles_run_of_idle (has : ∀ a ∈ as, a.Sets) (pra : lastSet (.register .pra) as = none)
    (ddra : lastSet (.register .ddra) as = none) (b : Board) :
    (b.run as).chip.paddles = b.chip.paddles := by
  apply run_kept (f := fun b => b.chip.paddles)
  intro a ha b
  match a, has a ha with
  | .input c, _ => rw [chip_perform_input]
  | .write o v, _ =>
    have sets : ¬(Chip.Action.writeAt o v).SetsPortA := by
      rintro (h | h | h)
      · exact Action.effect_write.2 h (lastSet_eq_none.1 pra _ ha)
      · exact Action.effect_write.2 h (lastSet_eq_none.1 ddra _ ha)
      · cases h
    exact (Chip.keeps_perform sets id).paddles

theorem agree_of_settings {x y : Board} (settings : ∀ s, x.setting s = y.setting s)
    (cols : ∀ row col, decide (row ∈ x.inputs.keyboard.col col) =
      decide (row ∈ y.inputs.keyboard.col col)) (rest : x.rest = y.rest) :
    x.inputs = y.inputs ∧ x.chip =
      { y.chip with portB.sampled := x.chip.portB.sampled, paddles := x.chip.paddles } := by
  have keyboard : x.inputs.keyboard = y.inputs.keyboard := by
    refine Keyboard.ext (fun r => Byte.ext fun c => ?_) (fun c => Byte.ext fun r => ?_) (settings .latch)
    · exact decide_eq_decide.1 (settings (.key ⟨r, c⟩))
    · exact decide_eq_decide.1 (cols r c)
  have pra := settings (.register .pra)
  have prb := settings (.register .prb)
  have ddra := settings (.register .ddra)
  have ddrb := settings (.register .ddrb)
  have keyboardOn := settings .keyboardOn
  obtain ⟨⟨model, ⟨pra, ddra, sampledA⟩, ⟨prb, ddrb, sampledB⟩, paddles, alarm⟩,
    ⟨keyboard, ⟨one, two, swapped, on⟩, clock⟩⟩ := x
  obtain ⟨⟨model', ⟨pra', ddra', sampledA'⟩, ⟨prb', ddrb', sampledB'⟩, paddles', alarm'⟩,
    ⟨keyboard', ⟨one', two', swapped', on'⟩, clock'⟩⟩ := y
  simp_all [Board.rest, setting, Chip.register]

theorem run_eq_run (has : ∀ a ∈ as, a.Sets) (hbs : ∀ a ∈ bs, a.Sets)
    (h : ∀ s, lastSet s as = lastSet s bs) (b : Board) : b.run as = b.run bs := by
  obtain ⟨inputs, chip⟩ : (b.run as).inputs = (b.run bs).inputs ∧ (b.run as).chip =
      { (b.run bs).chip with
        portB.sampled := (b.run as).chip.portB.sampled, paddles := (b.run as).chip.paddles } := by
    apply agree_of_settings
    · intro s
      rw [run_eq_last (f := (setting · s)) fun a ha _ => setting_perform (has a ha),
        run_eq_last (f := (setting · s)) fun a ha _ => setting_perform (hbs a ha)]
      exact congrArg (Option.getD · _) (h s)
    · intro row col
      rw [run_eq_last (f := fun b => decide (row ∈ b.inputs.keyboard.col col))
          fun a ha _ => col_perform (has a ha),
        run_eq_last (f := fun b => decide (row ∈ b.inputs.keyboard.col col))
          fun a ha _ => col_perform (hbs a ha)]
      exact congrArg (Option.getD · _) (h (.key ⟨row, col⟩))
    · rw [run_kept (f := Board.rest) fun a ha _ => rest_perform (has a ha),
        run_kept (f := Board.rest) fun a ha _ => rest_perform (hbs a ha)]
  have sampled : (b.run as).chip.portB.sampled = (b.run bs).chip.portB.sampled := by
    -- A stale sample stays only where nothing at all is set.
    by_cases idle : ∀ s, lastSet s as = none
    · rw [run_of_idle has idle, run_of_idle hbs fun s => (h s).symm.trans (idle s)]
    · obtain ⟨s, hs⟩ := not_forall.1 idle
      calc (b.run as).chip.portB.sampled
          = (b.run as).chip.pinsB (b.run as).inputs := fresh_run has ⟨s, hs⟩ b
        _ = (b.run bs).chip.pinsB (b.run bs).inputs := by rw [chip, inputs]; rfl
        _ = (b.run bs).chip.portB.sampled := (fresh_run hbs ⟨s, h s ▸ hs⟩ b).symm
  have paddles : (b.run as).chip.paddles = (b.run bs).chip.paddles := by
    by_cases idle : lastSet (.register .pra) as = none ∧ lastSet (.register .ddra) as = none
    · rw [paddles_run_of_idle has idle.1 idle.2,
        paddles_run_of_idle hbs (h _ ▸ idle.1) (h _ ▸ idle.2)]
    · have sets := not_and_or.1 idle
      calc (b.run as).chip.paddles
          = paddleMask (b.run as).chip.portA.level := follows_run has sets b
        _ = paddleMask (b.run bs).chip.portA.level := by rw [chip]
        _ = (b.run bs).chip.paddles := (follows_run hbs (by rwa [← h, ← h]) b).symm
  have same : (b.run as).chip = (b.run bs).chip := by rw [chip, sampled, paddles]
  calc b.run as
      = ⟨(b.run as).chip, (b.run as).inputs⟩ := rfl
    _ = b.run bs := by rw [same, inputs]

theorem edges_perform (ha : a.Sets) : b.edges a =
    PenEdge.between b.chip.penSeen (b.perform a).2.chip.penSeen b.inputs.clock := by
  match a, ha with
  | .input c, _ =>
    simp only [edges, perform, change]
    cases hc : b.inputs.change c with
    | error e => exact PenEdge.between_self.symm
    | ok i =>
      rw [← Inputs.clock_change hc]
      exact (Chip.looked_checkPen (c := b.chip) rfl).edges
  | .write o v, _ => exact Chip.penEdges_perform b.chip b.inputs (a := .writeAt o v) id

theorem clock_perform (ha : a.Sets) : (b.perform a).2.inputs.clock = b.inputs.clock :=
  congrArg (·.2.2.2.2.2.2) (rest_perform ha)

theorem told_eq_turns (has : ∀ a ∈ as, a.Sets) (b : Board) :
    ∃ n, b.told as = PenEdge.turns b.chip.penSeen b.inputs.clock n := by
  induction as generalizing b with
  | nil => exact ⟨0, rfl⟩
  | cons a as ih =>
    obtain ⟨ha, has⟩ := List.forall_mem_cons.1 has
    obtain ⟨n, later⟩ := ih has (b.perform a).2
    rw [told_cons, edges_perform ha, later, clock_perform ha]
    exact PenEdge.between_append_turns _ _ _ n

theorem levelAfter_told (has : ∀ a ∈ as, a.Sets) (b : Board) :
    PenEdge.levelAfter b.chip.penSeen (b.told as) = (b.run as).chip.penSeen := by
  induction as generalizing b with
  | nil => rfl
  | cons a as ih =>
    obtain ⟨ha, has⟩ := List.forall_mem_cons.1 has
    rw [told_cons, PenEdge.levelAfter_append, edges_perform ha, PenEdge.levelAfter_between]
    exact ih has _

theorem told_but_pairs (has : ∀ a ∈ as, a.Sets) (hbs : ∀ a ∈ bs, a.Sets)
    (h : ∀ s, lastSet s as = lastSet s bs) (b : Board) : ∃ n n', n % 2 = n' % 2 ∧
      b.told as = PenEdge.turns b.chip.penSeen b.inputs.clock n ∧
      b.told bs = PenEdge.turns b.chip.penSeen b.inputs.clock n' := by
  obtain ⟨n, hn⟩ := told_eq_turns has b
  obtain ⟨n', hn'⟩ := told_eq_turns hbs b
  have level : PenEdge.levelAfter b.chip.penSeen (b.told as) =
      PenEdge.levelAfter b.chip.penSeen (b.told bs) := by
    rw [levelAfter_told has, levelAfter_told hbs, run_eq_run has hbs h]
  -- Both runs leave the line at one level, so the numbers of their edges differ by pairs.
  rw [hn, hn'] at level
  exact ⟨n, n', PenEdge.turns_parity level, hn, hn'⟩

end Board

namespace Chip

variable {c : Chip} {i : Inputs}

theorem selections_write (c : Chip) (i : Inputs) (r : Register) (v : Byte) :
    (r = .pra ∨ r = .ddra) ∧ Event.selections (c.write i r v).events = [(c.write i r v).chip.paddles] ∨
    ¬(r = .pra ∨ r = .ddra) ∧ Event.selections (c.write i r v).events = [] ∧
      (c.write i r v).chip.paddles = c.paddles := by
  have sets : (Action.write r v).SetsPortA ↔ r = .pra ∨ r = .ddra := by
    simp [Action.SetsPortA, Action.Writes]
  by_cases h : r = .pra ∨ r = .ddra
  · exact .inl ⟨h, (settled_perform (a := .write r v) (sets.2 h)).2⟩
  · have keeps : Keeps c (c.write i r v) := keeps_perform (a := .write r v) (mt sets.1 h) id
    exact .inr ⟨h, keeps.selections, keeps.paddles⟩

theorem writeAt_offset (c : Chip) (i : Inputs) (r : Register) (v : Byte) :
    c.writeAt i r.offset v = c.write i r v := by
  rw [writeAt, Register.ofOffset?_offset]

end Chip

namespace Rig

theorem run_writes (c : Chip) (i : Inputs) (m : Monitor) (r r' : Register) (v v' : Byte) :
    let first := c.write i r v
    let second := first.chip.write i r' v'
    run ⟨c, .monitored i m⟩ [.chip (.write r v), .chip (.write r' v')] = ⟨second.chip, .monitored i
      { penEdges := m.penEdges ++ (Event.penEdges first.events ++ Event.penEdges second.events)
        paddles :=
          if (r = .pra ∨ r = .ddra) ∨ (r' = .pra ∨ r' = .ddra) then second.chip.paddles else m.paddles
        alarmFlushes := m.alarmFlushes + 2 }⟩ := by
  intro first second
  have hear : run ⟨c, .monitored i m⟩ [.chip (.write r v), .chip (.write r' v')] =
      ⟨second.chip, .monitored i ((first.events ++ second.events).foldl .hear m)⟩ := by
    rw [List.foldl_append]
    rfl
  have flushes : (first.events ++ second.events).count .flushAlarms = 2 := by
    rw [List.count_append]
    exact congrArg₂ (· + ·) (Chip.flushes_reaction c i (.write r v))
      (Chip.flushes_reaction first.chip i (.write r' v'))
  have selected : (Event.selections (first.events ++ second.events)).getLast?.getD m.paddles =
      if (r = .pra ∨ r = .ddra) ∨ (r' = .pra ∨ r' = .ddra) then second.chip.paddles
      else m.paddles := by
    rw [Event.selections_append]
    rcases Chip.selections_write c i r v with ⟨hr, told⟩ | ⟨hr, told, _⟩ <;>
      rcases Chip.selections_write first.chip i r' v' with ⟨hr', told'⟩ | ⟨hr', told', kept⟩
    · rw [told, told', if_pos (.inl hr)]
      rfl
    · rw [told, told', if_pos (.inl hr), kept]
      rfl
    · rw [told, told', if_pos (.inr hr')]
      rfl
    · rw [told, told', if_neg (not_or.2 ⟨hr, hr'⟩)]
      rfl
  rw [hear, Monitor.foldl_hear, Event.penEdges_append, selected, flushes]

theorem writes_commute (c : Chip) (i : Inputs) (m : Monitor) {r r' : Register} (h : r ≠ r')
    (v v' : Byte) : ∃ (d : Chip) (m' : Monitor) (n n' : Nat), n % 2 = n' % 2 ∧
      run ⟨c, .monitored i m⟩ [.chip (.write r v), .chip (.write r' v')] = ⟨d, .monitored i
        { m' with penEdges := m.penEdges ++ PenEdge.turns c.penSeen i.clock n }⟩ ∧
      run ⟨c, .monitored i m⟩ [.chip (.write r' v'), .chip (.write r v)] = ⟨d, .monitored i
        { m' with penEdges := m.penEdges ++ PenEdge.turns c.penSeen i.clock n' }⟩ := by
  have told (r r' : Register) (v v' : Byte) :
      Board.told ⟨c, i⟩ [.write r.offset v, .write r'.offset v'] =
        Event.penEdges (c.write i r v).events ++
          Event.penEdges ((c.write i r v).chip.write i r' v').events := by
    simp only [Board.told, Board.trace, Board.edges, Board.perform, Board.react, Chip.writeAt_offset,
      List.flatMap_cons, List.flatMap_nil, List.append_nil]
  have last (s : Board.Setting) : Board.lastSet s [.write r.offset v, .write r'.offset v'] =
      Board.lastSet s [.write r'.offset v', .write r.offset v] :=
    Board.lastSet_swap (Board.Action.effect_write_offset h s)
  have same := Board.run_eq_run (by simp [Board.Action.Sets]) (by simp [Board.Action.Sets]) last ⟨c, i⟩
  obtain ⟨n, n', pairs, edges, edges'⟩ :=
    Board.told_but_pairs (by simp [Board.Action.Sets]) (by simp [Board.Action.Sets]) last ⟨c, i⟩
  simp only [Board.run, Board.perform, Board.react, Chip.writeAt_offset, Board.mk.injEq, and_true]
    at same
  rw [told] at edges edges'
  let second := (c.write i r v).chip.write i r' v'
  let paddles := if (r = .pra ∨ r = .ddra) ∨ (r' = .pra ∨ r' = .ddra) then second.chip.paddles
    else m.paddles
  refine ⟨second.chip, ⟨[], paddles, m.alarmFlushes + 2⟩, n, n', pairs, ?_, ?_⟩
  · rw [run_writes, edges]
  · rw [run_writes, edges', ← same]
    simp only [or_comm (a := r' = .pra ∨ r' = .ddra)]
    rfl

end Rig

/-- On a board, and for two writes to a chip in a machine, where the monitor is left the same as well. -/
theorem order_of_settings :
    (∀ (b : Board) (as bs : List Board.Action), (∀ a ∈ as, a.Sets) → (∀ a ∈ bs, a.Sets) →
      (∀ s, Board.lastSet s as = Board.lastSet s bs) →
      (b.run as).chip.save = (b.run bs).chip.save ∧
      (b.run as).chip.paddles = (b.run bs).chip.paddles ∧
      (∀ later, (b.run as).trace later = (b.run bs).trace later) ∧
      ∃ n n', n % 2 = n' % 2 ∧ b.told as = PenEdge.turns b.chip.penSeen b.inputs.clock n ∧
        b.told bs = PenEdge.turns b.chip.penSeen b.inputs.clock n') ∧
    ∀ (c : Chip) (i : Inputs) (m : Monitor) (r r' : Register) (v v' : Byte), r ≠ r' →
      ∃ (d : Chip) (m' : Monitor) (n n' : Nat), n % 2 = n' % 2 ∧
        Rig.run ⟨c, .monitored i m⟩ [.chip (.write r v), .chip (.write r' v')] = ⟨d, .monitored i
          { m' with penEdges := m.penEdges ++ PenEdge.turns c.penSeen i.clock n }⟩ ∧
        Rig.run ⟨c, .monitored i m⟩ [.chip (.write r' v'), .chip (.write r v)] = ⟨d, .monitored i
          { m' with penEdges := m.penEdges ++ PenEdge.turns c.penSeen i.clock n' }⟩ := by
  refine ⟨?_, ?_⟩
  · intro b as bs has hbs last
    have same : b.run as = b.run bs := Board.run_eq_run has hbs last b
    refine ⟨by rw [same], by rw [same], fun later => by rw [same], ?_⟩
    exact Board.told_but_pairs has hbs last b
  · intro c i m r r' v v' h
    exact Rig.writes_commute c i m h v v'

def Board.misled : Board := Board.run {} [.load [1, 1, 0, 1, 0, 0, 0, 0, 0, 0xFF, 0x00]]

def Board.rowFirst : List Board.Action :=
  [.write 0x12 0xFF, .write 0x20 0xFE, .input (.keyboard (.set 0 4 true)),
    .input (.keyboard (.set 9 9 true)), .input (.keyboard (.set 0 4 false)),
    .input (.keyboard (.shiftLock true))]

def Board.rowLast : List Board.Action :=
  [.input (.keyboard (.shiftLock true)), .input (.keyboard (.set 0 4 false)), .write 0 0x7F,
    .write 0x14 0x55, .write 0 0xFE, .write 2 0xFF]

theorem order_of_settings_misled :
    (∀ a ∈ Board.rowFirst, a.Sets) ∧ (∀ a ∈ Board.rowLast, a.Sets) ∧
    (∀ s, Board.lastSet s Board.rowFirst = Board.lastSet s Board.rowLast) ∧
    ¬Board.misled.Fresh ∧ ¬Board.misled.chip.Follows ∧
    (Board.misled.run Board.rowFirst).chip.save = (Board.misled.run Board.rowLast).chip.save ∧
    (Board.misled.run Board.rowFirst).chip.paddles = 3 ∧
    (Board.misled.told Board.rowFirst).map (·.asserted) = [false, true, false] ∧
    (Board.misled.told Board.rowLast).map (·.asserted) = [false] ∧
    ∃ (d : Chip) (m : Monitor) (n n' : Nat), n % 2 = n' % 2 ∧
      Rig.run ⟨Board.misled.chip, .monitored {} {}⟩
          [.chip (.write .ddrb 0xFF), .chip (.write .prb 0xFF)] =
        ⟨d, .monitored {} { m with penEdges := PenEdge.turns false 0 n }⟩ ∧
      Rig.run ⟨Board.misled.chip, .monitored {} {}⟩
          [.chip (.write .prb 0xFF), .chip (.write .ddrb 0xFF)] =
        ⟨d, .monitored {} { m with penEdges := PenEdge.turns false 0 n' }⟩ := by
  obtain ⟨onBoard, twoWrites⟩ := order_of_settings
  have first : ∀ a ∈ Board.rowFirst, a.Sets := by simp [Board.rowFirst, Board.Action.Sets]
  have last : ∀ a ∈ Board.rowLast, a.Sets := by simp [Board.rowLast, Board.Action.Sets]
  have agree (s : Board.Setting) : Board.lastSet s Board.rowFirst = Board.lastSet s Board.rowLast := by
    cases s with
    | key k =>
      revert k
      decide +kernel
    | latch => rfl
    | keyboardOn => rfl
    | register r => cases r <;> rfl
  obtain ⟨save, paddles, -, -⟩ := onBoard Board.misled _ _ first last agree
  refine ⟨first, last, agree, by unfold Board.Fresh Chip.Fresh; decide +kernel,
    by unfold Chip.Follows; decide, save, paddles.trans (by decide +kernel), by decide +kernel,
    by decide +kernel, twoWrites Board.misled.chip {} {} .ddrb .prb 0xFF 0xFF (by decide)⟩

end Keyscan
