import Keyscan.Snapshot.Error

/-! Snapshot records and their bytes: two for the version, then the model selector, the output bank and
the alarm flag, then six registers unless the minor version is zero. Bytes after the record are ignored. -/

namespace Keyscan.Snapshot

structure RegisterBlock where
  pra : Byte
  prb : Byte
  ddra : Byte
  ddrb : Byte
  sampledA : Byte
  sampledB : Byte
  deriving DecidableEq

structure Record where
  version : Version
  model : Byte
  outputBank : Byte
  alarm : Bool
  registers : Option RegisterBlock
  deriving DecidableEq

def RegisterBlock.encode (b : RegisterBlock) : List Byte :=
  [b.pra, b.prb, b.ddra, b.ddrb, b.sampledA, b.sampledB]

def RegisterBlock.decode : List Byte → Except Error RegisterBlock
  | pra :: prb :: ddra :: ddrb :: sampledA :: sampledB :: _ =>
    .ok { pra, prb, ddra, ddrb, sampledA, sampledB }
  | _ => .error (.truncated .registers)

@[simp] theorem RegisterBlock.decode_encode (b : RegisterBlock) (rest : List Byte) :
    decode (b.encode ++ rest) = .ok b := rfl

def encodeFlag (on : Bool) : Byte := if on then 1 else 0

def decodeFlag (field : Field) (b : Byte) : Except Error Bool :=
  if b = 0 then .ok false else if b = 1 then .ok true else .error (.invalidFlag field b)

@[simp] theorem decodeFlag_encodeFlag (field : Field) (on : Bool) :
    decodeFlag field (encodeFlag on) = .ok on := by cases on <;> rfl

namespace Record

def encode (r : Record) : List Byte :=
  [r.version.major, r.version.minor, r.model, r.outputBank, encodeFlag r.alarm] ++
    (r.registers.map RegisterBlock.encode).getD []

def decodeRegisters (v : Version) (bytes : List Byte) : Except Error (Option RegisterBlock) :=
  if v.hasRegisters then (RegisterBlock.decode bytes).map some else .ok none

def decodeBody (version : Version) : List Byte → Except Error Record
  | [] => .error (.truncated .model)
  | [_] => .error (.truncated .outputBank)
  | [_, _] => .error (.truncated .alarmFlag)
  | model :: outputBank :: flag :: rest => do
    let alarm ← decodeFlag .alarmFlag flag
    let registers ← decodeRegisters version rest
    return { version, model, outputBank, alarm, registers }

def decode : List Byte → Except Error Record
  | major :: minor :: rest =>
    if Version.current < ⟨major, minor⟩ then .error (.futureVersion ⟨major, minor⟩ .current)
    else decodeBody ⟨major, minor⟩ rest
  | _ => .error (.truncated .version)

end Record

end Keyscan.Snapshot
