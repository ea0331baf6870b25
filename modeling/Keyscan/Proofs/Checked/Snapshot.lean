import Keyscan.Proofs.Checked.Basic
import Keyscan.Snapshot.Record

namespace Keyscan.Checked

open Snapshot

inductive Stop
  | trap (t : Trap)
  | refused (e : Error)
  deriving DecidableEq

abbrev Reader := StateT Nat (Except Stop)

def check {α : Type} (x : Except Trap α) : Reader α := StateT.lift (x.mapError .trap)

def accept {α : Type} (x : Except Error α) : Reader α := StateT.lift (x.mapError .refused)

def nextByte (bytes : List Byte) (field : Field) : Reader Byte := do
  let pos ← get
  match bytes[pos]? with
  | none => accept (.error (.truncated field))
  | some b =>
    set (← check (fit 32 (pos + 1)))
    return b

def registers (bytes : List Byte) : Reader RegisterBlock := do
  let pra ← nextByte bytes .registers
  let prb ← nextByte bytes .registers
  let ddra ← nextByte bytes .registers
  let ddrb ← nextByte bytes .registers
  let sampledA ← nextByte bytes .registers
  let sampledB ← nextByte bytes .registers
  return { pra, prb, ddra, ddrb, sampledA, sampledB }

def afterFlag (version : Version) (model outputBank flag : Byte) (bytes : List Byte) : Reader Record := do
  let alarm ← accept (decodeFlag .alarmFlag flag)
  let registers ← if version.hasRegisters then some <$> registers bytes else pure none
  return { version, model, outputBank, alarm, registers }

def body (version : Version) (bytes : List Byte) : Reader Record := do
  let model ← nextByte bytes .model
  let outputBank ← nextByte bytes .outputBank
  afterFlag version model outputBank (← nextByte bytes .alarmFlag) bytes

def record (bytes : List Byte) : Reader Record := do
  let major ← nextByte bytes .version
  let minor ← nextByte bytes .version
  if Version.current < ⟨major, minor⟩ then
    accept (.error (.futureVersion ⟨major, minor⟩ .current))
  else
    body ⟨major, minor⟩ bytes

theorem read_afterFlag (version : Version) (model bank flag : Byte) (bytes : List Byte) :
    (afterFlag version model bank flag
      (version.major :: version.minor :: model :: bank :: flag :: bytes)).run' 5 =
      (Record.decodeBody version (model :: bank :: flag :: bytes)).mapError .refused := by
  rw [afterFlag, Record.decodeBody]
  cases decodeFlag .alarmFlag flag with
  | error e => rfl
  | ok alarm =>
    rw [Record.decodeRegisters]
    cases version.hasRegisters with
    | false => rfl
    | true =>
      -- The cursor is at five, and the six bytes of a block may end anywhere.
      rcases bytes with
        _ | ⟨pra, _ | ⟨prb, _ | ⟨ddra, _ | ⟨ddrb, _ | ⟨sampledA, _ | ⟨sampledB, _⟩⟩⟩⟩⟩⟩ <;> rfl

theorem read_record (bytes : List Byte) :
    (record bytes).run' 0 = (Record.decode bytes).mapError .refused := by
  rcases bytes with _ | ⟨major, _ | ⟨minor, bytes⟩⟩
  · rfl
  · rfl
  · have versioned : (record (major :: minor :: bytes)).run' 0 =
      ((if Version.current < ⟨major, minor⟩ then
          accept (.error (.futureVersion ⟨major, minor⟩ .current))
        else body ⟨major, minor⟩ (major :: minor :: bytes) : Reader Record).run' 2) := rfl
    rw [versioned, Record.decode]
    split
    · rfl
    · rcases bytes with _ | ⟨model, _ | ⟨bank, _ | ⟨flag, bytes⟩⟩⟩
      · rfl
      · rfl
      · rfl
      · exact read_afterFlag ⟨major, minor⟩ model bank flag bytes

end Keyscan.Checked
