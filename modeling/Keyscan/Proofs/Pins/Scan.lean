import Keyscan.Proofs.Keyboard.Ghost
import Keyscan.Proofs.Pins.Joined
import Keyscan.Proofs.Run

namespace Keyscan

structure Inputs.KeysOnly (i : Inputs) : Prop where
  keyboardOn : i.joysticks.keyboardOn = true
  stickOne : i.joysticks.one.pins = 0xFF
  stickTwo : i.joysticks.two.pins = 0xFF

namespace Chip

variable {c : Chip} {i : Inputs} {line : Fin 8} {a b : Byte}

structure Directed (c : Chip) (a b : Byte) : Prop where
  portA : c.portA.ddr = a
  portB : c.portB.ddr = b

theorem mem_lowLines_of_row (hc : c.Directed 0xFF 0) (hi : i.KeysOnly)
    (selected : c.portA.data = ~~~Byte.bit line) {l : Line} :
    l ∈ c.lowLines i ↔ l = .row line := by
  cases l with
  | row r => simp [lowLines, mem_lowRows, hc.portA, hi.stickTwo, selected]
  | col d => simp [lowLines, mem_lowCols, hc.portB, hi.stickOne]

theorem mem_rowPullers_of_col (hc : c.Directed 0 0xFF) (hi : i.KeysOnly)
    (selected : c.portB.data = ~~~Byte.bit line) {l : Line} :
    l ∈ c.rowPullers i ↔ l = .col line := by
  cases l with
  | row r => simp [rowPullers, mem_lowRows, hc.portA, hi.stickTwo]
  | col d =>
    -- The other columns are driven high, which keeps them from pulling.
    simp [rowPullers, mem_lowCols, hc.portB, hi.stickOne, selected]

theorem pinsB_of_row (hc : c.Directed 0xFF 0) (hi : i.KeysOnly)
    (selected : c.portA.data = ~~~Byte.bit line) :
    c.pinsB i = ~~~(i.keyboard.reach (.row line)).cols := by
  apply Byte.ext
  intro col
  have input : col ∉ c.portB.drivenHigh := by simp [hc.portB]
  rw [← not_iff_not, not_mem_pinsB hi.keyboardOn input, Byte.mem_not, not_not, ← LineSet.col_mem,
    Keyboard.mem_reach]
  simp only [mem_lowLines_of_row hc hi selected, exists_eq_left]

theorem pinsA_of_col (hc : c.Directed 0 0xFF) (hi : i.KeysOnly)
    (selected : c.portB.data = ~~~Byte.bit line) :
    c.pinsA i = ~~~(i.keyboard.reach (.col line)).rows := by
  apply Byte.ext
  intro row
  rw [← not_iff_not, not_mem_pinsA hi.keyboardOn, Byte.mem_not, not_not, ← LineSet.row_mem,
    Keyboard.mem_reach]
  simp only [mem_rowPullers_of_col hc hi selected, exists_eq_left]

/-- A probe drives one line low through a register and reads the other port. It leaves the directions
alone, so that the next probe finds them as it did. -/
structure Probes (i : Inputs) (drive sense : Register) (a b : Byte) (value : Fin 8 → Byte) : Prop where
  write : ∀ c : Chip, c.Directed a b → ∀ v, (c.write i drive v).chip.Directed a b
  read : ∀ c : Chip, c.Directed a b → (c.read i sense).chip.Directed a b
  peek : ∀ c : Chip, c.Directed a b → ∀ line,
    (c.write i drive (~~~Byte.bit line)).chip.peek i sense = value line

theorem probes_rows (hi : i.KeysOnly) :
    Probes i .pra .prb 0xFF 0 fun row => ~~~(i.keyboard.reach (.row row)).cols where
  write _ hc _ := ⟨hc.portA, hc.portB⟩
  read _ hc := ⟨hc.portA, hc.portB⟩
  peek _ hc _ := pinsB_of_row ⟨hc.portA, hc.portB⟩ hi rfl

theorem probes_cols (hi : i.KeysOnly) :
    Probes i .prb .pra 0 0xFF fun col => ~~~(i.keyboard.reach (.col col)).rows where
  write _ hc _ := ⟨hc.portA, hc.portB⟩
  read _ hc := ⟨hc.portA, hc.portB⟩
  peek _ hc _ := pinsA_of_col ⟨hc.portA, hc.portB⟩ hi rfl

end Chip

def Answer.byte? : Answer → Option Byte
  | .byte v => some v
  | _ => none

namespace Rig

variable {r : Rig} {drive sense : Register} {a b : Byte} {value : Fin 8 → Byte}

def reads (r : Rig) (as : List Action) : List Byte := (r.trace as).filterMap (·.1.byte?)

theorem reads_append (r : Rig) (as bs : List Action) :
    r.reads (as ++ bs) = r.reads as ++ (r.run as).reads bs := by
  rw [reads, trace_append, List.filterMap_append]
  rfl

def probe (drive sense : Register) (line : Fin 8) : List Action :=
  [.chip (.write drive (~~~Byte.bit line)), .chip (.read sense)]

def turn (a b : Byte) : List Action := [.chip (.write .ddra a), .chip (.write .ddrb b)]

def rowScan : List Action := turn 0xFF 0 ++ (List.finRange 8).flatMap (probe .pra .prb)

def colScan : List Action := turn 0 0xFF ++ (List.finRange 8).flatMap (probe .prb .pra)

theorem inputs_turn : (r.run (turn a b)).machine.inputs = r.machine.inputs := by
  simp only [turn, run, perform, Machine.inputs_hear]

theorem inputs_probe {line : Fin 8} :
    (r.run (probe drive sense line)).machine.inputs = r.machine.inputs := by
  simp only [probe, run, perform, Machine.inputs_hear]

theorem directed_probe (h : Chip.Probes r.machine.inputs drive sense a b value)
    (hc : r.chip.Directed a b) (line : Fin 8) :
    (r.run (probe drive sense line)).chip.Directed a b := by
  simp only [probe, run, perform, Chip.perform, Machine.inputs_hear]
  exact h.read _ (h.write _ hc _)

theorem reads_probe (h : Chip.Probes r.machine.inputs drive sense a b value)
    (hc : r.chip.Directed a b) (line : Fin 8) : r.reads (probe drive sense line) = [value line] := by
  simp only [reads, probe, trace, perform, Chip.perform, Machine.inputs_hear, List.filterMap_cons,
    List.filterMap_nil, Answer.byte?]
  rw [h.peek _ hc]

theorem reads_probes (h : Chip.Probes r.machine.inputs drive sense a b value)
    (hc : r.chip.Directed a b) (lines : List (Fin 8)) :
    r.reads (lines.flatMap (probe drive sense)) = lines.map value := by
  induction lines generalizing r with
  | nil => rfl
  | cons line lines ih =>
    have next : (r.run (probe drive sense line)).reads (lines.flatMap (probe drive sense)) =
        lines.map value := ih (inputs_probe.symm ▸ h) (directed_probe h hc line)
    rw [List.flatMap_cons, reads_append, reads_probe h hc, next]
    rfl

theorem reads_scan (h : Chip.Probes r.machine.inputs drive sense a b value) (lines : List (Fin 8)) :
    r.reads (turn a b ++ lines.flatMap (probe drive sense)) = lines.map value := by
  have probes : (r.run (turn a b)).reads (lines.flatMap (probe drive sense)) = lines.map value :=
    reads_probes (inputs_turn.symm ▸ h) ⟨rfl, rfl⟩ lines
  rw [reads_append, probes]
  rfl

theorem reads_rowScan (hi : r.machine.inputs.KeysOnly) :
    r.reads rowScan = (List.finRange 8).map fun row =>
      ~~~(r.machine.inputs.keyboard.reach (.row row)).cols :=
  reads_scan (Chip.probes_rows hi) _

theorem reads_colScan (hi : r.machine.inputs.KeysOnly) :
    r.reads colScan = (List.finRange 8).map fun col =>
      ~~~(r.machine.inputs.keyboard.reach (.col col)).rows :=
  reads_scan (Chip.probes_cols hi) _

def ShownByRow (bytes : List Byte) (k : Key) : Prop := ∃ v, bytes[k.row]? = some v ∧ k.col ∉ v

def ShownByCol (bytes : List Byte) (k : Key) : Prop := ∃ v, bytes[k.col]? = some v ∧ k.row ∉ v

theorem getElem?_map_finRange (f : Fin 8 → Byte) (j : Fin 8) :
    ((List.finRange 8).map f)[j]? = some (f j) := by
  simp

theorem shownByRow_rowScan (hi : r.machine.inputs.KeysOnly) (k : Key) :
    ShownByRow (r.reads rowScan) k ↔ r.machine.inputs.keyboard.Bridged k := by
  rw [ShownByRow, reads_rowScan hi, getElem?_map_finRange]
  simp only [Option.some.injEq, exists_eq_left', Byte.mem_not, not_not]
  rw [← LineSet.col_mem, Keyboard.mem_reach]
  rfl

theorem shownByCol_colScan (hi : r.machine.inputs.KeysOnly)
    (hk : r.machine.inputs.keyboard.Consistent) (k : Key) :
    ShownByCol (r.reads colScan) k ↔ r.machine.inputs.keyboard.Bridged k := by
  rw [ShownByCol, reads_colScan hi, getElem?_map_finRange]
  simp only [Option.some.injEq, exists_eq_left', Byte.mem_not, not_not]
  rw [← LineSet.row_mem, Keyboard.mem_reach]
  constructor
  · intro h
    exact h.symm hk
  · intro h
    exact h.symm hk

/-- Whatever the chip holds, both scans show the keys whose lines are joined. These are the closed
contacts and their ghosts, and there are no ghosts just when the contacts are closed under rectangles. -/
theorem scans_show_bridged (r : Rig) (hk : r.machine.inputs.keyboard.Reachable)
    (hi : r.machine.inputs.KeysOnly) :
    let m := r.machine.inputs.keyboard
    let rows := r.reads rowScan
    let cols := r.reads colScan
    rows.length = 8 ∧ cols.length = 8 ∧
    (∀ k, ShownByRow rows k ↔ m.Joined (.row k.row) (.col k.col)) ∧
    (∀ k, ShownByCol cols k ↔ ShownByRow rows k) ∧
    (∀ k, m.Closed k → ShownByRow rows k) ∧
    ((∀ k, ShownByRow rows k ↔ m.Closed k) ↔ m.RectangleClosed) := by
  intro m rows cols
  have byRow : ∀ k, ShownByRow rows k ↔ m.Bridged k := shownByRow_rowScan hi
  have byCol : ∀ k, ShownByCol cols k ↔ m.Bridged k := shownByCol_colScan hi hk.consistent
  refine ⟨?_, ?_, byRow, ?_, ?_, ?_⟩
  · simp only [rows, reads_rowScan hi, List.length_map, List.length_finRange]
  · simp only [cols, reads_colScan hi, List.length_map, List.length_finRange]
  · intro k
    rw [byCol, byRow]
  · intro k closed
    exact (byRow k).2 closed.bridged
  · rw [Keyboard.rectangleClosed_iff hk.consistent]
    apply forall_congr'
    intro k
    rw [byRow]
    exact ⟨fun same => same.1, fun closed => ⟨closed, Keyboard.Closed.bridged⟩⟩

theorem scans_show_bridged_corner :
    let r : Rig :=
      { chip := { portA := { data := 0x0F, ddr := 0xF0 }, portB := { data := 0x00, ddr := 0xFF } }
        machine := .monitored
          { keyboard := .replay [.set 0 0 true, .set 0 1 true, .set 1 1 true, .shiftLock true] } {} }
    let m := r.machine.inputs.keyboard
    m.Reachable ∧ r.machine.inputs.KeysOnly ∧
    ShownByRow (r.reads rowScan) ⟨1, 0⟩ ∧ ShownByCol (r.reads colScan) ⟨1, 0⟩ ∧
    ¬m.Closed ⟨1, 0⟩ ∧ ¬m.RectangleClosed := by
  intro r m
  have reachable : m.Reachable := ⟨_, rfl⟩
  have idle : r.machine.inputs.KeysOnly := ⟨rfl, by decide, by decide⟩
  have bridged : m.Joined (.row 1) (.col 0) := Keyboard.mem_reach.1 (by decide)
  have opened : ¬m.Closed ⟨1, 0⟩ := by decide
  obtain ⟨-, -, byRow, byCol, -, ghosts⟩ := scans_show_bridged r reachable idle
  have shown := (byRow ⟨1, 0⟩).2 bridged
  refine ⟨reachable, idle, shown, (byCol _).2 shown, opened, ?_⟩
  intro closed
  exact opened ((ghosts.2 closed _).1 shown)

end Rig

end Keyscan
