import BeeRpc.Wire.Varint
import BeeRpc.Wire.Document
import BeeRpc.Wire.Slot
import BeeRpc.Wire.Field
import BeeRpc.Wire.Relength
import BeeRpc.Naming.System
import BeeRpc.Naming.Dict
import BeeRpc.Effect.Outcome
import BeeRpc.Buffer
import BeeRpc.HashTypes
import BeeRpc.Registry
import BeeRpc.LengthsTree
import BeeRpc.Measure
import BeeRpc.Driver
import BeeRpc.Reader
import BeeRpc.Message
import BeeRpc.Pointers
import BeeRpc.Builder
import BeeRpc.Built
import BeeRpc.BuildMultiblock
import BeeRpc.Parser
import BeeRpc.Forest
import BeeRpc.Writer
import BeeRpc.Control
import BeeRpc.Receive
import BeeRpc.Acts
import BeeRpc.StoreInvariant
import BeeRpc.Tally
import BeeRpc.Termination
import BeeRpc.Absorb
import BeeRpc.Course
import BeeRpc.Duplex
import BeeRpc.Relay
import BeeRpc.Network
import BeeRpc.Journey
import BeeRpc.BeeFile
import BeeRpc.Settings
import BeeRpc.Host
import BeeRpc.Repeat
import BeeRpc.Cut
import BeeRpc.Arrival
import BeeRpc.Memory
import BeeRpc.Sender
import BeeRpc.SkipFilter
import BeeRpc.Framing
import BeeRpc.Transfer
import BeeRpc.Skips
import BeeRpc.RoundTrip
import BeeRpc.Rehydrate
import BeeRpc.Levels
import BeeRpc.Nesting
import BeeRpc.Rewriting
import BeeRpc.Validation
import BeeRpc.Spelling
import BeeRpc.Traffic
import BeeRpc.Intake
import BeeRpc.Unwritten
import BeeRpc.Refusal
import BeeRpc.Fractal
import BeeRpc.Agreement
import BeeRpc.Truncation
import BeeRpc.Container
import BeeRpc.Inheritance
import BeeRpc.Positions
import BeeRpc.Interleaving.Insertion
import BeeRpc.FlowControl
import BeeRpc.Splitter
import BeeRpc.Walk
import BeeRpc.Swap
import BeeRpc.Split
import BeeRpc.Resilience
import BeeRpc.Enclosing
import BeeRpc.Interleaving.Run
import BeeRpc.Outbound
import BeeRpc.Signal
import BeeRpc.Cache
import BeeRpc.Faults
import BeeRpc.Interleaving.Crew
import BeeRpc.Sharing
import BeeRpc.Races
import BeeRpc.Threads
import BeeRpc.Alone
import BeeRpc.Progress
