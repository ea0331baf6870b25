import Keyscan.Proofs.Checked.Keyboard
import Keyscan.Proofs.Keyboard.Flood

namespace Keyscan.Checked

/-- A line by its number, which need not lie on the matrix. -/
inductive Wire
  | row (r : Byte)
  | col (c : Byte)
  deriving DecidableEq

def Wire.of : Line → Wire
  | .row r => .row (.ofNat 8 r)
  | .col c => .col (.ofNat 8 c)

structure Stack where
  entries : Vector Wire 16 := .replicate 16 (.row 0)
  len : Nat := 0

def Stack.push (s : Stack) (l : Wire) : Except Trap Stack := do
  let entries ← store s.entries s.len l
  let len ← fit 32 (s.len + 1)
  return { entries, len }

def addLatch (m : Keyboard) (own other : Fin 8) (line mask : Byte) : Except Trap Byte := do
  if line.toNat = own ∧ m.shiftLock then
    return mask ||| (← one other)
  else
    return mask

def rowContacts (m : Keyboard) (row : Byte) : Except Trap Byte := do
  addLatch m Key.shiftLock.row Key.shiftLock.col row (← rowMask m row)

def colContacts (m : Keyboard) (col : Byte) : Except Trap Byte := do
  addLatch m Key.shiftLock.col Key.shiftLock.row col (← colMask m col)

def pushLines (wire : Byte → Wire) (fresh : Byte) (s : Stack) : Except Trap Stack :=
  eachLine (fun s line => do
    let bit ← one line
    if fresh &&& bit ≠ 0 then s.push (wire (.ofNat 8 line)) else return s) s

def expand (m : Keyboard) (marked : LineSet) (s : Stack) : Wire → Except Trap (LineSet × Stack)
  | .row r => do
    let fresh := (← rowContacts m r) &&& ~~~marked.cols
    let s ← pushLines .col fresh s
    return ({ marked with cols := marked.cols ||| fresh }, s)
  | .col c => do
    let fresh := (← colContacts m c) &&& ~~~marked.rows
    let s ← pushLines .row fresh s
    return ({ marked with rows := marked.rows ||| fresh }, s)

def drain (m : Keyboard) (rounds : Nat) (marked : LineSet) (s : Stack) : Except Trap LineSet :=
  match s.len, rounds with
  | 0, _ => .ok marked
  | _ + 1, 0 => .error .unfinished
  | len + 1, rounds + 1 => do
    let l ← fetch s.entries len
    let (marked, s) ← expand m marked { s with len } l
    drain m rounds marked s

def mark : Wire → Except Trap LineSet
  | .row r => do return { rows := ← one r.toNat }
  | .col c => do return { cols := ← one c.toNat }

def reach (m : Keyboard) (start : Wire) : Except Trap LineSet := do
  let marked ← mark start
  let s ← Stack.push {} start
  drain m 16 marked s

theorem addLatch_eq (m : Keyboard) (own other : Fin 8) (line mask : Byte) :
    addLatch m own other line mask =
      .ok (if m.shiftLock ∧ line.toNat = own then mask ||| .bit other else mask) := by
  simp only [addLatch, one_fin, and_comm]
  split <;> rfl

theorem rowContacts_answers (m : Keyboard) : Answers (rowContacts m) m.rowContacts (.index · 8) := by
  intro b
  rw [rowContacts, rowMask_answers]
  split
  · simp only [bind, Except.bind, addLatch_eq, Keyboard.rowContacts, Fin.ext_iff]
  · rfl

theorem colContacts_answers (m : Keyboard) : Answers (colContacts m) m.colContacts (.index · 8) := by
  intro b
  rw [colContacts, colMask_answers]
  split
  · simp only [bind, Except.bind, addLatch_eq, Keyboard.colContacts, Fin.ext_iff]
  · rfl

variable {m : Keyboard} {l start : Line} {pending rest : List Line} {marked : LineSet}
  {entries : Vector Wire 16} {s : Stack}

def Holds (entries : Vector Wire 16) : List Line → Prop
  | [] => True
  | l :: rest => entries[rest.length]? = some (.of l) ∧ Holds entries rest

theorem Holds.set (h : Holds entries pending) {place : Nat} (above : pending.length ≤ place)
    (room : place < 16) (w : Wire) : Holds (entries.set place w) pending := by
  induction pending with
  | nil => trivial
  | cons l rest ih =>
    rw [List.length_cons] at above
    refine ⟨?_, ih h.2 (by omega)⟩
    rw [Vector.getElem?_set_ne room (by omega)]
    exact h.1

structure Stack.Shows (s : Stack) (pending : List Line) : Prop where
  len : s.len = pending.length
  entries : Holds s.entries pending

theorem Stack.Shows.push (h : s.Shows pending) (room : pending.length < 16) (l : Line) :
    ∃ s', s.push (.of l) = .ok s' ∧ s'.Shows (l :: pending) := by
  have place : s.len < 16 := h.len ▸ room
  have counted : fit 32 (s.len + 1) = .ok (s.len + 1) := fit_of_lt (by decide) (by omega)
  refine ⟨⟨s.entries.set s.len (.of l), s.len + 1⟩, ?_, ?_, ?_, ?_⟩
  · simp only [Stack.push, store, dif_pos place, counted]
    rfl
  · exact congrArg (· + 1) h.len
  · simp [h.len]
  · exact h.entries.set h.len.ge place _

theorem Stack.Shows.pop (h : s.Shows (l :: rest)) :
    fetch s.entries rest.length = .ok (.of l) ∧ Stack.Shows { s with len := rest.length } rest := by
  obtain ⟨top, below⟩ := h.entries
  obtain ⟨inside, top⟩ := Vector.getElem?_eq_some_iff.1 top
  refine ⟨?_, rfl, below⟩
  rw [fetch, dif_pos inside, top]

theorem Stack.Shows.pushLines (h : s.Shows pending) (line : Fin 8 → Line) {wire : Byte → Wire}
    (named : ∀ i : Fin 8, wire (.ofNat 8 i) = .of (line i)) (fresh : Byte)
    (room : fresh.indices.length + pending.length ≤ 16) :
    ∃ s', Checked.pushLines wire fresh s = .ok s' ∧
      s'.Shows ((fresh.indices.map line).reverse ++ pending) := by
  rw [Checked.pushLines, eachLine_eq_foldlM]
  simp only [one_fin, bind, Except.bind, ne_eq, and_bit_eq_zero, not_not, named]
  rw [Byte.indices] at room ⊢
  generalize List.finRange 8 = is at room ⊢
  induction is generalizing s pending with
  | nil => exact ⟨s, rfl, h⟩
  | cons i is ih =>
    rw [List.foldlM_cons]
    by_cases hi : i ∈ fresh
    · have more : (i :: is).filter (· ∈ fresh) = i :: is.filter (· ∈ fresh) := by simp [hi]
      rw [more, List.length_cons] at room
      obtain ⟨s', pushed, shows'⟩ := h.push (by omega) (line i)
      obtain ⟨s'', done, shows''⟩ := ih shows' (by rw [List.length_cons]; omega)
      refine ⟨s'', ?_, ?_⟩
      · rw [if_pos hi, pushed]
        exact done
      · simpa [more] using shows''
    · have same : (i :: is).filter (· ∈ fresh) = is.filter (· ∈ fresh) := by simp [hi]
      rw [same] at room ⊢
      rw [if_neg hi]
      exact ih h room

theorem indices_zero : Byte.indices 0 = [] := by decide

theorem step_row {r : Fin 8} : Flood.step m ⟨marked, .row r :: rest⟩ =
    let fresh := m.rowContacts r &&& ~~~marked.cols
    ⟨{ marked with cols := marked.cols ||| fresh }, (fresh.indices.map .col).reverse ++ rest⟩ := by
  have contacts : m.contacts (.row r) \ marked = { cols := m.rowContacts r &&& ~~~marked.cols } :=
    congrArg (LineSet.mk · _) BitVec.zero_and
  have union (b : Byte) : marked ∪ { cols := b } = { marked with cols := marked.cols ||| b } :=
    congrArg (LineSet.mk · _) BitVec.or_zero
  have lines (b : Byte) : LineSet.toList { cols := b } = b.indices.map .col := by
    rw [LineSet.toList, indices_zero, List.map_nil, List.nil_append]
  rw [Flood.step, contacts, union, lines]

theorem step_col {c : Fin 8} : Flood.step m ⟨marked, .col c :: rest⟩ =
    let fresh := m.colContacts c &&& ~~~marked.rows
    ⟨{ marked with rows := marked.rows ||| fresh }, (fresh.indices.map .row).reverse ++ rest⟩ := by
  have contacts : m.contacts (.col c) \ marked = { rows := m.colContacts c &&& ~~~marked.rows } :=
    congrArg (LineSet.mk _) BitVec.zero_and
  have union (b : Byte) : marked ∪ { rows := b } = { marked with rows := marked.rows ||| b } :=
    congrArg (LineSet.mk _) BitVec.or_zero
  have lines (b : Byte) : LineSet.toList { rows := b } = b.indices.map .row := by
    rw [LineSet.toList, indices_zero, List.map_nil, List.append_nil]
  rw [Flood.step, contacts, union, lines]

theorem Stack.Shows.expand (h : s.Shows rest)
    (room : (Flood.step m ⟨marked, l :: rest⟩).pending.length ≤ 16) :
    ∃ s', Checked.expand m marked s (.of l) =
        .ok ((Flood.step m ⟨marked, l :: rest⟩).marked, s') ∧
      s'.Shows (Flood.step m ⟨marked, l :: rest⟩).pending := by
  cases l with
  | row r =>
    rw [step_row] at room ⊢
    simp only [List.length_append, List.length_reverse, List.length_map] at room
    obtain ⟨s', pushed, shows'⟩ := h.pushLines .col (fun _ => rfl) _ room
    refine ⟨s', ?_, shows'⟩
    simp only [Checked.expand, Wire.of, (rowContacts_answers m).fin, bind, Except.bind, pushed]
    rfl
  | col c =>
    rw [step_col] at room ⊢
    simp only [List.length_append, List.length_reverse, List.length_map] at room
    obtain ⟨s', pushed, shows'⟩ := h.pushLines .row (fun _ => rfl) _ room
    refine ⟨s', ?_, shows'⟩
    simp only [Checked.expand, Wire.of, (colContacts_answers m).fin, bind, Except.bind, pushed]
    rfl

theorem drain_run {f : Flood} (hf : f.Inv m start) (h : s.Shows f.pending) (n rounds : Nat) :
    ∃ s' : Stack, s'.Shows (f.run m n).pending ∧
      drain m (n + rounds) f.marked s = drain m rounds (f.run m n).marked s' := by
  induction n generalizing f s with
  | zero => exact ⟨s, h, by rw [Nat.zero_add]; rfl⟩
  | succ n ih =>
    match f with
    | ⟨marked, []⟩ =>
      have empty : s.len = 0 := h.len
      refine ⟨s, ?_, ?_⟩
      · rwa [Flood.run_of_pending_nil]
      · rw [Flood.run_of_pending_nil, drain.eq_def, drain.eq_def m rounds, empty]
    | ⟨marked, l :: rest⟩ =>
      have full : s.len = rest.length + 1 := h.len
      obtain ⟨top, below⟩ := h.pop
      -- The stack has room for the flood after the step, because no line is pending twice in it.
      obtain ⟨s', expanded, shows'⟩ := below.expand hf.step.length_pending_le
      obtain ⟨s'', shows'', drained⟩ := ih hf.step shows'
      refine ⟨s'', shows'', ?_⟩
      rw [Nat.succ_add, drain.eq_def, full]
      simp only [top, bind, Except.bind, expanded]
      exact drained

theorem drain_of_pending_nil {f : Flood} (h : s.Shows f.pending) (done : f.pending = [])
    (rounds : Nat) : drain m rounds f.marked s = .ok f.marked := by
  have empty : s.len = 0 := by rw [h.len, done, List.length_nil]
  rw [drain.eq_def, empty]

theorem reach_eq_drain (m : Keyboard) (l : Line) {n rounds : Nat} (h : n + rounds = 16) :
    ∃ s : Stack, s.Shows ((Flood.start l).run m n).pending ∧
      reach m (.of l) = drain m rounds ((Flood.start l).run m n).marked s := by
  have marked : mark (.of l) = .ok {l} := by
    cases l <;> simp only [Wire.of, mark, toNat_ofNat_fin, one_fin] <;> rfl
  have empty : Stack.Shows {} [] := ⟨rfl, trivial⟩
  obtain ⟨s, pushed, shows'⟩ := empty.push (by decide) l
  obtain ⟨s', shows'', drained⟩ := drain_run (Flood.inv_start m l) shows' n rounds
  refine ⟨s', shows'', ?_⟩
  rw [h] at drained
  simp only [reach, marked, bind, Except.bind, pushed]
  exact drained

theorem reach_of (m : Keyboard) (l : Line) : reach m (.of l) = .ok (m.reach l) := by
  have enough : (Flood.start l).left.card ≤ 16 := (Finset.card_le_univ _).trans_eq Line.card
  obtain ⟨s, shows', drained⟩ := reach_eq_drain m l (Nat.add_zero 16)
  rw [drained]
  exact drain_of_pending_nil shows' ((Flood.inv_start m l).pending_run enough) 0

theorem reach_row_answers (m : Keyboard) :
    Answers (reach m ∘ .row) (m.reach ∘ .row) (.shift · 8) :=
  .of_fin (fun r => reach_of m (.row r))
    fun b off => by simp only [Function.comp_apply, reach, mark, one_off off, bind, Except.bind]

example (m : Keyboard) : reach m (.row 9) = .error (.shift 9 8) := rfl

theorem reach_col_answers (m : Keyboard) :
    Answers (reach m ∘ .col) (m.reach ∘ .col) (.shift · 8) :=
  .of_fin (fun c => reach_of m (.col c))
    fun b off => by simp only [Function.comp_apply, reach, mark, one_off off, bind, Except.bind]

/-- The calls of a keyboard do as the keyboard does. Only a number off the matrix stops one, and then the
keyboard is as before. -/
structure Sound (m : Keyboard) : Prop where
  change : ∀ c, (change c).run m = if onMatrix c then .ok () (m.apply c) else .error offMatrix m
  rowMask : Answers (rowMask m) m.row (.index · 8)
  colMask : Answers (colMask m) m.col (.index · 8)
  isPressed : ∀ row col, isPressed m row col = .ok (m.isPressed row col)
  pressedCount : pressedCount m = .ok m.pressedCount
  toBits : toBits m = .ok m.toBits
  isConsistent : isConsistent m = .ok (decide m.Consistent)
  rowContacts : Answers (rowContacts m) m.rowContacts (.index · 8)
  colContacts : Answers (colContacts m) m.colContacts (.index · 8)
  reachRow : Answers (reach m ∘ .row) (m.reach ∘ .row) (.shift · 8)
  reachCol : Answers (reach m ∘ .col) (m.reach ∘ .col) (.shift · 8)

theorem sound (m : Keyboard) : Sound m where
  change := run_change_eq_ite m
  rowMask := rowMask_answers m
  colMask := colMask_answers m
  isPressed := isPressed_eq m
  pressedCount := pressedCount_eq m
  toBits := toBits_eq m
  isConsistent := isConsistent_eq m
  rowContacts := rowContacts_answers m
  colContacts := colContacts_answers m
  reachRow := reach_row_answers m
  reachCol := reach_col_answers m

end Keyscan.Checked
