import Keyscan.Joysticks
import Mathlib.Data.List.Induction

namespace Keyscan

namespace Socket

def number : Socket → Byte
  | one => 1
  | two => 2

theorem ofByte?_eq_some {b : Byte} {s : Socket} : ofByte? b = some s ↔ b = s.number := by
  rw [ofByte?]
  cases s with
  | one => split <;> simp_all [number]
  | two => split <;> simp_all [number]

theorem other_eq_iff {s s' : Socket} : s.other = s' ↔ s = s'.other := by
  constructor
  · rintro rfl
    rw [other_other]
  · rintro rfl
    rw [other_other]

theorem eq_other_of_ne {s s' : Socket} (h : s ≠ s') : s = s'.other := by
  revert h
  cases s <;> cases s' <;> decide

end Socket

namespace Joysticks

variable {j : Joysticks} {past : List Change} {c : Change} {s : Socket} {state : Byte}

def caller (swapped : Bool) (s : Socket) : Byte := if swapped then s.other.number else s.number

theorem route_eq_some {port : Byte} : j.route port = some s ↔ port = caller j.swapped s := by
  rw [route, caller, Option.map_eq_some_iff]
  cases j.swapped with
  | false => simp [Socket.ofByte?_eq_some]
  | true =>
    simp [Socket.ofByte?_eq_some, Socket.other_eq_iff]

def replay (past : List Change) : Joysticks := past.foldl change {}

theorem replay_concat (past : List Change) (c : Change) :
    replay (past ++ [c]) = (replay past).change c := by
  simp [replay]

def Change.swap? : Change → Option Bool
  | .swap on => some on
  | .set .. | .keyboard _ | .releaseAll => none

def swapAfter (past : List Change) : Bool := (past.filterMap Change.swap?).getLast?.getD false

theorem swapAfter_concat (past : List Change) (c : Change) :
    swapAfter (past ++ [c]) = c.swap?.getD (swapAfter past) := by
  cases hc : c.swap? <;> simp [swapAfter, hc]

theorem swapped_change (j : Joysticks) (c : Change) :
    (j.change c).swapped = c.swap?.getD j.swapped := by
  cases c with
  | set port state =>
    rw [change, set]
    cases j.route port with
    | none => rfl
    | some s => cases s <;> rfl
  | _ => rfl

theorem swapped_replay (past : List Change) : (replay past).swapped = swapAfter past := by
  induction past using List.reverseRecOn with
  | nil => rfl
  | append_singleton past c ih => rw [replay_concat, swapped_change, swapAfter_concat, ih]

/-- Changes that a socket notices: its joystick is set, by the number that is routed to it, or both are let
go. -/
def Change.BearsOn (swapped : Bool) (s : Socket) : Change → Prop
  | .set port _ => port = caller swapped s
  | .releaseAll => True
  | .swap _ | .keyboard _ => False

instance (swapped : Bool) (s : Socket) (c : Change) : Decidable (c.BearsOn swapped s) :=
  match c with
  | .set port _ => inferInstanceAs (Decidable (port = caller swapped s))
  | .releaseAll => .isTrue trivial
  | .swap _ | .keyboard _ => .isFalse id

theorem stick_set (h : Change.BearsOn j.swapped s (.set port state)) :
    (j.set port state).stick s = .hold state := by
  rw [set, route_eq_some.2 h]
  exact stick_plug ..

theorem stick_releaseAll (j : Joysticks) (s : Socket) : j.releaseAll.stick s = {} := by cases s <;> rfl

theorem stick_change_of_not_bearsOn (h : ¬c.BearsOn j.swapped s) :
    (j.change c).stick s = j.stick s := by
  cases c with
  | set port state =>
    rw [change, set]
    cases hr : j.route port with
    | none => rfl
    | some s' =>
      have apart : s' ≠ s := by
        rintro rfl
        exact h (route_eq_some.1 hr)
      rw [Socket.eq_other_of_ne apart.symm]
      exact stick_plug_other ..
  | swap on => cases s <;> rfl
  | keyboard on => cases s <;> rfl
  | releaseAll => exact absurd trivial h

def At (past : List Change) (i : Nat) (p : Bool → Change → Prop) : Prop :=
  ∃ c ∈ past[i]?, p (swapAfter (past.take i)) c

instance (past : List Change) (i : Nat) (p : Bool → Change → Prop) [∀ swapped c, Decidable (p swapped c)] :
    Decidable (At past i p) :=
  inferInstanceAs (Decidable (∃ c ∈ past[i]?, p (swapAfter (past.take i)) c))

theorem At.lt {i : Nat} {p : Bool → Change → Prop} (h : At past i p) : i < past.length := by
  obtain ⟨c, hc, -⟩ := h
  exact (List.getElem?_eq_some_iff.1 hc).1

theorem at_concat {i : Nat} {p : Bool → Change → Prop} :
    At (past ++ [c]) i p ↔ At past i p ∨ i = past.length ∧ p (swapAfter past) c := by
  rcases Nat.lt_trichotomy i past.length with inside | rfl | beyond
  · rw [At, List.getElem?_append_left inside, List.take_append_of_le_length (Nat.le_of_lt inside)]
    exact (or_iff_left fun last => Nat.ne_of_lt inside last.1).symm
  · simp [At]
  · refine iff_of_false (fun h => ?_) ?_
    · have inside := h.lt
      rw [List.length_append, List.length_singleton] at inside
      omega
    · rintro (h | h)
      · exact Nat.lt_asymm beyond h.lt
      · exact Nat.ne_of_gt beyond h.1

/-- One of the changes set a state on the socket, and none since bears on the socket. -/
def LastSet (s : Socket) (past : List Change) (state : Byte) : Prop :=
  ∃ i, At past i (fun swapped c => c = .set (caller swapped s) state) ∧
    ∀ j < past.length, i < j → ¬At past j fun swapped c => c.BearsOn swapped s

theorem lastSet_concat : LastSet s (past ++ [c]) state ↔
    c = .set (caller (swapAfter past) s) state ∨
      ¬c.BearsOn (swapAfter past) s ∧ LastSet s past state := by
  constructor
  · rintro ⟨i, set, since⟩
    rcases at_concat.1 set with old | ⟨-, now⟩
    · right
      refine ⟨?_, i, old, ?_⟩
      · intro bears
        exact since past.length (by simp) old.lt (at_concat.2 (.inr ⟨rfl, bears⟩))
      · intro j hj later noticed
        exact since j (by simp; omega) later (at_concat.2 (.inl noticed))
    · exact .inl now
  · rintro (now | ⟨spares, i, set, since⟩)
    · refine ⟨past.length, at_concat.2 (.inr ⟨rfl, now⟩), ?_⟩
      intro j hj later
      rw [List.length_append, List.length_singleton] at hj
      omega
    · refine ⟨i, at_concat.2 (.inl set), ?_⟩
      intro j _ later noticed
      rcases at_concat.1 noticed with old | ⟨-, bears⟩
      · exact since j old.lt later old
      · exact spares bears

structure Leaves (s : Socket) (past : List Change) (k : Joystick) : Prop where
  held : ∀ state, LastSet s past state → k = .hold state
  idle : (∀ state, ¬LastSet s past state) → k = {}

theorem Leaves.concat {k : Joystick} (h : Leaves s past k) (hc : ¬c.BearsOn (swapAfter past) s) :
    Leaves s (past ++ [c]) k where
  held state last := by
    rcases lastSet_concat.1 last with now | before
    · exact absurd (now ▸ rfl) hc
    · exact h.held state before.2
  idle none := h.idle fun state last => none state (lastSet_concat.2 (.inr ⟨hc, last⟩))

theorem leaves_set : Leaves s (past ++ [.set (caller (swapAfter past) s) state]) (.hold state) where
  held state' last := by
    rcases lastSet_concat.1 last with now | before
    · cases now
      rfl
    · exact absurd rfl before.1
  idle none := absurd (lastSet_concat.2 (.inl rfl)) (none state)

theorem leaves_releaseAll : Leaves s (past ++ [.releaseAll]) {} where
  held state last := by
    rcases lastSet_concat.1 last with now | before
    · cases now
    · exact absurd trivial before.1
  idle _ := rfl

theorem leaves_replay (past : List Change) (s : Socket) : Leaves s past ((replay past).stick s) := by
  induction past using List.reverseRecOn with
  | nil =>
    refine ⟨?_, fun _ => by cases s <;> rfl⟩
    rintro state ⟨i, set, -⟩
    exact absurd set.lt (Nat.not_lt_zero i)
  | append_singleton past c ih =>
    rw [replay_concat]
    -- A change that bears on the socket leaves what it says, whatever was there; any other leaves what was there.
    by_cases bears : c.BearsOn (swapAfter past) s
    · cases c with
      | set port state =>
        rw [change, stick_set (by rwa [swapped_replay])]
        obtain rfl : port = caller (swapAfter past) s := bears
        exact leaves_set
      | releaseAll =>
        rw [change, stick_releaseAll]
        exact leaves_releaseAll
      | swap on => exact bears.elim
      | keyboard on => exact bears.elim
    · rw [stick_change_of_not_bearsOn (by rwa [swapped_replay])]
      exact ih.concat bears

theorem pins_hold (state : Byte) : (Joystick.hold state).pins = ~~~(state &&& 0x1F) := by
  apply Byte.ext
  intro i
  have apart : i ∈ (0xE0 : Byte) → i ∉ (0x1F : Byte) := by
    revert i
    decide
  simp only [Joystick.pins, Joystick.hold, Byte.mem_or, Byte.mem_not, Byte.mem_and, not_and_or]
  tauto

theorem pins_number (j : Joysticks) (s : Socket) : j.pins s.number = (j.stick s).pins := by
  rw [pins, Socket.ofByte?_eq_some.2 rfl]

theorem pins_congr {j' : Joysticks} (h : ∀ s, j.stick s = j'.stick s) (port : Byte) :
    j.pins port = j'.pins port := by
  rw [pins, pins]
  cases Socket.ofByte? port with
  | none => rfl
  | some s => exact congrArg Joystick.pins (h s)

theorem mem_pins_of_unwired (j : Joysticks) (port : Byte) {i : Fin 8} (hi : 5 ≤ i.val) :
    i ∈ j.pins port := by
  rw [pins]
  cases Socket.ofByte? port with
  | none => exact Byte.mem_full
  | some s =>
    have unwired : i ∈ (0xE0 : Byte) := by
      revert i
      decide
    exact Byte.mem_or.2 (.inr unwired)

theorem set_of_off {port : Byte} (one : port ≠ 1) (two : port ≠ 2) : j.set port state = j := by
  have off : j.route port = none := by
    rw [route, Socket.ofByte?, if_neg one, if_neg two]
    rfl
  rw [set, off]

theorem sockets_show_last_set (past : List Change) :
    (∀ s : Socket,
      (∀ state, LastSet s past state → (replay past).pins s.number = ~~~(state &&& 0x1F)) ∧
      ((∀ state, ¬LastSet s past state) → (replay past).pins s.number = 0xFF)) ∧
    (∀ (on : Bool) (port : Byte),
      (replay (past ++ [.swap on])).pins port = (replay past).pins port ∧
      (replay (past ++ [.keyboard on])).pins port = (replay past).pins port) ∧
    (∀ port state : Byte, port ≠ 1 → port ≠ 2 → replay (past ++ [.set port state]) = replay past) ∧
    ∀ (port : Byte) (i : Fin 8), 5 ≤ i.val → i ∈ (replay past).pins port := by
  refine ⟨?_, ?_, ?_, ?_⟩
  · intro s
    obtain ⟨held, idle⟩ := leaves_replay past s
    rw [pins_number]
    constructor
    · intro state last
      rw [held state last, pins_hold]
    · intro none
      rw [idle none]
      rfl
  · intro on port
    rw [replay_concat, replay_concat]
    constructor
    · exact pins_congr (fun s => stick_change_of_not_bearsOn id) port
    · exact pins_congr (fun s => stick_change_of_not_bearsOn id) port
  · intro port state one two
    rw [replay_concat]
    exact set_of_off one two
  · intro port i hi
    exact mem_pins_of_unwired _ port hi

def heldThroughSwaps : List Change :=
  [.set 1 0x1F, .swap true, .set 2 0x35, .keyboard false, .set 3 0xFF, .swap false, .set 2 0x08]

theorem sockets_show_last_set_heldThroughSwaps :
    LastSet .one heldThroughSwaps 0x35 ∧ (replay heldThroughSwaps).pins 1 = 0xEA ∧
    LastSet .two heldThroughSwaps 0x08 ∧ (replay heldThroughSwaps).pins 2 = 0xF7 ∧
    (replay (heldThroughSwaps ++ [.releaseAll])).pins 1 = 0xFF := by
  have one : LastSet .one heldThroughSwaps 0x35 := ⟨2, ⟨_, rfl, rfl⟩, by decide⟩
  have two : LastSet .two heldThroughSwaps 0x08 := ⟨6, ⟨_, rfl, rfl⟩, by decide⟩
  have none : ∀ state, ¬LastSet .one (heldThroughSwaps ++ [.releaseAll]) state := by
    intro state last
    rcases lastSet_concat.1 last with now | before
    · cases now
    · exact before.1 trivial
  obtain ⟨shown, -⟩ := sockets_show_last_set heldThroughSwaps
  obtain ⟨released, -⟩ := sockets_show_last_set (heldThroughSwaps ++ [.releaseAll])
  exact ⟨one, (shown .one).1 0x35 one, two, (shown .two).1 0x08 two, (released .one).2 none⟩

end Joysticks

end Keyscan
