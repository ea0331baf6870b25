import Keyscan.Model
import Keyscan.Register

namespace Keyscan

/-- A change of the light pen line, which is active low, and the time of it. -/
structure PenEdge where
  asserted : Bool
  clock : UInt64
  deriving DecidableEq

inductive Event
  | flushAlarms
  | wrote (register : Register) (value : Byte)
  | paddlesChanged (old new : Byte)
  | selectPaddles (mask : Byte)
  | penEdge (edge : PenEdge)
  | modelDiffers (found kept : Model)
  | modelUnknown (selector : Byte) (kept : Model)
  deriving DecidableEq

inductive LogLevel
  | trace | debug | warn
  deriving DecidableEq

structure LogLine where
  level : LogLevel
  text : String
  deriving DecidableEq

def Event.log? : Event → Option LogLine
  | .flushAlarms | .selectPaddles _ => none
  | .wrote r v => some ⟨.trace, "CIA1 " ++ r.name ++ " <- $" ++ v.upperHex⟩
  | .paddlesChanged old new =>
    some ⟨.debug, s!"CIA1 paddle select {old.toNat} -> {new.toNat}"⟩
  | .penEdge e =>
    some ⟨.debug,
      "CIA1 light pen line " ++ (if e.asserted then "low" else "high") ++ s!" at {e.clock.toNat}"⟩
  | .modelDiffers found kept =>
    some ⟨.warn, "CIA1 snapshot model " ++ found.name ++ " differs from configured " ++ kept.name ++
      ", keeping configured model"⟩
  | .modelUnknown selector kept =>
    some ⟨.warn, s!"CIA1 snapshot has unknown model selector {selector.toNat}, keeping configured "
      ++ kept.name⟩

end Keyscan
