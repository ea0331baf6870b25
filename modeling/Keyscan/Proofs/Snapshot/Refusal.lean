import Keyscan.Board
import Keyscan.Proofs.Snapshot.Transfer

namespace Keyscan

namespace Snapshot

variable {bytes : List Byte}

def place (bytes : List Byte) (n : Nat) : Byte := bytes.getD n 0

/-- The reason to refuse some bytes. The version is looked at before the body is, and the alarm flag
before the registers. -/
def refusal? (bytes : List Byte) : Option Error :=
  if bytes.length < 2 then some (.truncated .version)
  else if 1 < place bytes 0 ∨ place bytes 0 = 1 ∧ 1 < place bytes 1 then
    some (.futureVersion ⟨place bytes 0, place bytes 1⟩ ⟨1, 1⟩)
  else if bytes.length = 2 then some (.truncated .model)
  else if bytes.length = 3 then some (.truncated .outputBank)
  else if bytes.length = 4 then some (.truncated .alarmFlag)
  else if 1 < place bytes 4 then some (.invalidFlag .alarmFlag (place bytes 4))
  else if 1 ≤ place bytes 1 ∧ bytes.length < 11 then some (.truncated .registers)
  else none

def RegisterBlock.ofPlaces (bytes : List Byte) (first : Nat) : RegisterBlock where
  pra := place bytes first
  prb := place bytes (first + 1)
  ddra := place bytes (first + 2)
  ddrb := place bytes (first + 3)
  sampledA := place bytes (first + 4)
  sampledB := place bytes (first + 5)

def Record.ofPlaces (bytes : List Byte) : Record where
  version := ⟨place bytes 0, place bytes 1⟩
  model := place bytes 2
  outputBank := place bytes 3
  alarm := place bytes 4 = 1
  registers := if 1 ≤ place bytes 1 then some (.ofPlaces bytes 5) else none

theorem RegisterBlock.decode_eq : decode bytes =
    if bytes.length < 6 then .error (.truncated .registers) else .ok (ofPlaces bytes 0) := by
  match bytes with
  | [] => rfl
  | [_] => rfl
  | [_, _] => rfl
  | [_, _, _] => rfl
  | [_, _, _, _] => rfl
  | [_, _, _, _, _] => rfl
  | _ :: _ :: _ :: _ :: _ :: _ :: rest => exact (if_neg (by simp)).symm

theorem decodeFlag_eq {field : Field} {b : Byte} : decodeFlag field b =
    if 1 < b then .error (.invalidFlag field b) else .ok (decide (b = 1)) := by
  rw [decodeFlag]
  split
  · next zero => rw [zero]; rfl
  · split
    · next one => rw [one]; rfl
    · exact (if_pos (by bv_omega)).symm

theorem Version.current_lt {v : Version} :
    current < v ↔ 1 < v.major ∨ v.major = 1 ∧ 1 < v.minor := by
  rw [lt_def, eq_comm]
  rfl

namespace Record

theorem decodeRegisters_eq {v : Version} : decodeRegisters v bytes =
    if 1 ≤ v.minor ∧ bytes.length < 6 then .error (.truncated .registers)
    else .ok (if 1 ≤ v.minor then some (.ofPlaces bytes 0) else none) := by
  simp only [decodeRegisters, Version.hasRegisters_iff, RegisterBlock.decode_eq]
  by_cases has : 1 ≤ v.minor
  · by_cases short : bytes.length < 6
    · rw [if_pos has, if_pos short, if_pos ⟨has, short⟩]
      rfl
    · rw [if_pos has, if_neg short, if_neg (not_and.2 fun _ => short), if_pos has]
      rfl
  · rw [if_neg has, if_neg fun h => has h.1, if_neg has]

theorem decode_eq (bytes : List Byte) : decode bytes =
    match refusal? bytes with
    | some e => .error e
    | none => .ok (ofPlaces bytes) := by
  rcases bytes with _ | ⟨major, _ | ⟨minor, rest⟩⟩
  · rfl
  · rfl
  have versioned : ¬(major :: minor :: rest).length < 2 := by simp
  have newer_iff : Version.current < ⟨major, minor⟩ ↔ 1 < major ∨ major = 1 ∧ 1 < minor :=
    Version.current_lt
  rw [decode, refusal?, if_neg versioned]
  simp only [place, List.getD_cons_zero, List.getD_cons_succ, ← newer_iff]
  by_cases newer : Version.current < ⟨major, minor⟩
  · rw [if_pos newer, if_pos newer]
    rfl
  rw [if_neg newer, if_neg newer]
  rcases rest with _ | ⟨model, _ | ⟨bank, _ | ⟨flag, rest⟩⟩⟩
  · rfl
  · rfl
  · rfl
  have length : (major :: minor :: model :: bank :: flag :: rest).length = rest.length + 5 := rfl
  have short : rest.length + 5 < 11 ↔ rest.length < 6 := by omega
  rw [length, if_neg (by omega), if_neg (by omega), if_neg (by omega), decodeBody, decodeFlag_eq,
    decodeRegisters_eq]
  simp only [List.getD_cons_zero, List.getD_cons_succ, short]
  by_cases wrong : 1 < flag
  · rw [if_pos wrong, if_pos wrong]
    rfl
  rw [if_neg wrong, if_neg wrong]
  by_cases cut : 1 ≤ minor ∧ rest.length < 6
  · rw [if_pos cut, if_pos cut]
    rfl
  · rw [if_neg cut, if_neg cut]
    rfl

end Record

end Snapshot

open Snapshot

namespace Machine

def withPaddles (mask : Byte) : Machine → Machine
  | monitored i m => monitored i { m with paddles := mask }
  | bare keyboard joysticks => bare keyboard joysticks

theorem hear_plain (m : Machine) (es : List Event) : m.hear (Event.plain es) = m.hear es := by
  have unheard (m : Monitor) (e : Event) : (if !e.isModelNote then m.hear e else m) = m.hear e := by
    cases e <;> rfl
  cases m with
  | monitored i m =>
    rw [hear, hear, Event.plain, List.foldl_filter]
    simp only [unheard]
  | bare _ _ => rfl

theorem hear_selectPaddles (m : Machine) (mask : Byte) :
    m.hear [.selectPaddles mask] = m.withPaddles mask := by cases m <;> rfl

end Machine

namespace Chip

variable {c : Chip} {bytes : List Byte}

def loaded (c : Chip) (bytes : List Byte) : Chip :=
  { c with
    paddles := .ofNat 8 ((place bytes 3).toNat % 4)
    alarm := place bytes 4 = 1
    portA :=
      if 1 ≤ place bytes 1 then ⟨place bytes 5, place bytes 7, place bytes 9⟩ else c.portA
    portB :=
      if 1 ≤ place bytes 1 then ⟨place bytes 6, place bytes 8, place bytes 10⟩ else c.portB }

theorem and_three (b : Byte) : b &&& 3 = .ofNat 8 (b.toNat % 4) := by
  apply BitVec.eq_of_toNat_eq
  rw [BitVec.toNat_and, BitVec.toNat_ofNat]
  exact (Nat.and_two_pow_sub_one_eq_mod b.toNat 2).trans (by omega)

theorem chip_apply_ofPlaces : (c.apply (.ofPlaces bytes)).chip = c.loaded bytes := by
  simp only [apply, Record.ofPlaces, loaded, and_three]
  by_cases has : 1 ≤ place bytes 1
  · simp only [if_pos has]
    rfl
  · simp only [if_neg has]
    rfl

theorem plain_apply_ofPlaces :
    Event.plain (c.apply (.ofPlaces bytes)).events = [.selectPaddles (c.loaded bytes).paddles] := by
  simp only [apply, plain_modelNotes, Record.ofPlaces, loaded, and_three]
  rfl

theorem restore_eq (c : Chip) (bytes : List Byte) : c.restore bytes =
    match refusal? bytes with
    | some e => .error e
    | none => .ok (c.apply (.ofPlaces bytes)) := by
  rw [restore, Record.decode_eq]
  cases refusal? bytes <;> rfl

theorem restore_by_place (c : Chip) (bytes : List Byte) :
    (∀ m : Machine,
      match refusal? bytes with
      | some e => Rig.perform ⟨c, m⟩ (.chip (.restore bytes)) = (.refused e, [], ⟨c, m⟩)
      | none => ∃ es, Event.plain es = [.selectPaddles (c.loaded bytes).paddles] ∧
          Rig.perform ⟨c, m⟩ (.chip (.restore bytes)) =
            (.done, es, ⟨c.loaded bytes, m.withPaddles (c.loaded bytes).paddles⟩)) ∧
    ∀ i : Inputs, Board.perform ⟨c, i⟩ (.load bytes) =
      match refusal? bytes with
      | some e => (.refused e, ⟨c, i⟩)
      | none => (.done, ⟨c.loaded bytes, i⟩) := by
  constructor
  · intro m
    simp only [Rig.perform, perform, restore_eq]
    cases refusal? bytes with
    | some e => cases m <;> rfl
    | none =>
      refine ⟨(c.apply (.ofPlaces bytes)).events, plain_apply_ofPlaces, ?_⟩
      rw [chip_apply_ofPlaces, ← m.hear_plain, plain_apply_ofPlaces, Machine.hear_selectPaddles]
  · intro i
    simp only [Board.perform, restore_eq]
    cases refusal? bytes with
    | some e => rfl
    | none => simp only [Board.react, chip_apply_ofPlaces]

end Chip

end Keyscan
