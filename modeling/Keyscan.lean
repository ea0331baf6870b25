import Keyscan.Board
import Keyscan.Keyboard.Layout
import Keyscan.Rig
import Keyscan.Proofs.Keyboard.Flood
import Keyscan.Proofs.Keyboard.Ghost
import Keyscan.Proofs.Keyboard.History
import Keyscan.Proofs.Keyboard.Merge
import Keyscan.Proofs.Pins.Joined
import Keyscan.Proofs.Pins.Grounding
import Keyscan.Proofs.Pins.Monotone
import Keyscan.Proofs.Run
import Keyscan.Proofs.Snapshot.Transfer
import Keyscan.Proofs.Pins.Scan
import Keyscan.Proofs.Pen.Edges
import Keyscan.Proofs.Pen.Sampling
import Keyscan.Proofs.Pen.Alternation
import Keyscan.Proofs.Pen.Freshness
import Keyscan.Proofs.Pins.Contention
import Keyscan.Proofs.Pins.Levels
import Keyscan.Proofs.Pins.Latch
import Keyscan.Proofs.Snapshot.Refusal
import Keyscan.Proofs.Checked.Access
import Keyscan.Proofs.Paddles
import Keyscan.Proofs.Board.Settings
import Keyscan.Proofs.Observation
import Keyscan.Proofs.Reset
import Keyscan.Proofs.Wiring
import Keyscan.Proofs.Keyboard.Closure
import Keyscan.Proofs.Keyboard.Components
import Keyscan.Proofs.Keyboard.Canonical
import Keyscan.Proofs.Keyboard.Schedule
import Keyscan.Proofs.Routing
import Keyscan.Proofs.Flushes
