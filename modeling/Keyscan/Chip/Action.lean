import Keyscan.Chip.Snapshot

namespace Keyscan

inductive Answer
  | done
  | byte (value : Byte)
  | fault (error : Fault)
  | refused (error : Snapshot.Error)

namespace Chip

inductive Action
  | read (r : Register)
  | write (r : Register) (value : Byte)
  | readAt (offset : BitVec 16)
  | writeAt (offset : BitVec 16) (value : Byte)
  | checkPen
  | reset
  | setAlarm (on : Bool)
  | apply (r : Snapshot.Record)
  | restore (bytes : List Byte)

def perform (c : Chip) (i : Inputs) : Action → Answer × Reaction
  | .read r => (.byte (c.peek i r), c.read i r)
  | .write r v => (.done, c.write i r v)
  | .readAt o => (.byte (c.peekAt i o), c.readAt i o)
  | .writeAt o v => (.done, c.writeAt i o v)
  | .checkPen => (.done, c.checkPen i)
  | .reset => (.done, c.reset i)
  | .setAlarm on => (.done, { chip := { c with alarm := on } })
  | .apply r => (.done, c.apply r)
  | .restore bytes =>
    match c.restore bytes with
    | .ok r => (.done, r)
    | .error e => (.refused e, { chip := c })

end Chip

end Keyscan
