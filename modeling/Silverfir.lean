import Silverfir.Lib.Run
import Silverfir.Lib.Eff
import Silverfir.Lib.Stack
import Silverfir.Fetch
import Silverfir.Trace
import Silverfir.SlotCount
import Silverfir.Jumps
import Silverfir.InPlaceDt
import Silverfir.ControlFlow
import Silverfir.FrameExit
import Silverfir.Operands
import Silverfir.Vm
import Silverfir.Exec
import Silverfir.Instantiate
import Silverfir.Machine
import Silverfir.Arity
import Silverfir.Activation
import Silverfir.Heights
import Silverfir.ValueTypes
import Silverfir.Tags
import Silverfir.Shape
import Silverfir.Parsed
import Silverfir.Linked
import Silverfir.Bulk
import Silverfir.Parser
import Silverfir.Records
import Silverfir.Indices
import Silverfir.Writes
import Silverfir.Store
import Silverfir.Loaded
import Silverfir.Phases
import Silverfir.Sizes
import Silverfir.Calls
import Silverfir.Links
import Silverfir.LinkSafety
import Silverfir.Resolution
import Silverfir.ConstExpr
import Silverfir.Parts
import Silverfir.Effects
import Silverfir.Instantiated
import Silverfir.Defined
import Silverfir.Totality
import Silverfir.Lib.Lockstep
import Silverfir.InPlaceTco
import Silverfir.Agreement
import Silverfir.Lib.CallStack
import Silverfir.Moves
import Silverfir.Counters
import Silverfir.Threads
import Silverfir.SlotIndices
import Silverfir.Invocations
import Silverfir.Executed
import Silverfir.Immutable
import Silverfir.MemoryPresence
import Silverfir.Lib.Access
import Silverfir.Wasi
import Silverfir.WasiBounds
import Silverfir.Runtime
import Silverfir.RefCounts
import Silverfir.TableEntries
import Silverfir.ReferenceDefaults
import Silverfir.Smath
import Silverfir.LebReaders
import Silverfir.MemAccess
import Silverfir.Growth
import Silverfir.WasiErrors
import Silverfir.Integers
import Silverfir.InstrLengths
import Silverfir.DroppedSegments
import Silverfir.ElementApplication
import Silverfir.RoundTrip
import Silverfir.LocalCounts
import Silverfir.Delimited
import Silverfir.Matching
import Silverfir.ModuleNames
import Silverfir.SjsonText
import Silverfir.AssertedReaders
import Silverfir.AssertedSections
import Silverfir.AssertedParser
import Silverfir.ParserTotality
import Silverfir.ConstReads
import Silverfir.ListRuns
import Silverfir.VecRuns
import Silverfir.VstrRuns
import Silverfir.LinkLoop
import Silverfir.ContextInvariant
import Silverfir.StackRoom
import Silverfir.ActiveCalls
import Silverfir.StackBounds
import Silverfir.CallRoom
import Silverfir.Lib.Bisim
import Silverfir.LabelMachine
import Silverfir.FrameLabels
import Silverfir.LabelRuns
import Silverfir.LocalSlots
import Silverfir.Equipped
import Silverfir.Progress
import Silverfir.Lib.Countdown
import Silverfir.Metering
import Silverfir.Termination
import Silverfir.Isolation
