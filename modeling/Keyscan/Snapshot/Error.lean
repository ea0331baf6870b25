import Keyscan.Snapshot.Version

namespace Keyscan.Snapshot

inductive Field
  | version | model | outputBank | alarmFlag | registers
  deriving DecidableEq

def Field.text : Field → String
  | version => "version"
  | model => "model"
  | outputBank => "output bank"
  | alarmFlag => "alarm flag"
  | registers => "registers"

inductive Error
  | futureVersion (found supported : Version)
  | truncated (field : Field)
  | invalidFlag (field : Field) (value : Byte)
  deriving DecidableEq

def Error.message : Error → String
  | futureVersion found supported =>
    "snapshot version " ++ found.text ++ " is newer than supported version " ++ supported.text
  | truncated field => "snapshot truncated at " ++ field.text
  | invalidFlag field value => "invalid flag byte 0x" ++ value.hex ++ " for " ++ field.text

end Keyscan.Snapshot
