import Squint.Lib.Trace
import Squint.Lib.Run
import Squint.Lib.BoundedQueue
import Squint.Lib.Ring
import Squint.Lib.Lines
import Squint.Lib.Numerals
import Squint.Lib.Graph
import Squint.Lib.Levels
import Squint.Lib.PersistentMemory
import Squint.Lib.CrashLogic
import Squint.Lib.Crc
import Squint.Lib.Ranges
import Squint.Lib.SearchTree
import Squint.IR.Program
import Squint.IR.Passes
import Squint.IR.Insertion
import Squint.IR.Extension
import Squint.IR.Declarations
import Squint.IR.Schedule
import Squint.IR.Marks
import Squint.IR.Semantics
import Squint.IR.Control
import Squint.IR.Action
import Squint.IR.Nesting
import Squint.IR.Simulation
import Squint.IR.Preservation
import Squint.IR.Guard
import Squint.IR.Coverage
import Squint.IR.Placement
import Squint.IR.Acts
import Squint.IR.Exactness
import Squint.IR.Renaming
import Squint.IR.Dressing
import Squint.IR.Commutation
import Squint.IR.Visits
import Squint.IR.FenceVisits
import Squint.IR.Reentry
import Squint.IR.Dominance
import Squint.IR.SSA
import Squint.IR.Verifier
import Squint.IR.Legacy
import Squint.IR.Preconditions
import Squint.IR.Reports
import Squint.IR.Executed
import Squint.IR.LegacyExactness
import Squint.IR.LegacyPreservation
import Squint.IR.FlushTransfers
import Squint.IR.EntryStyle
import Squint.IR.Twins
import Squint.IR.StyleAgreement
import Squint.Kernel.Modules
import Squint.Kernel.Device
import Squint.Kernel.Backpressure
import Squint.Kernel.Evaluation
import Squint.Kernel.Overflow
import Squint.Kernel.Wakeup
import Squint.Kernel.Interruption
import Squint.Kernel.ReadFaults
import Squint.Kernel.Readers
import Squint.Kernel.TraceText
import Squint.Kernel.Fragments
import Squint.Kernel.Headers
import Squint.Kernel.TraceParser
import Squint.Kernel.Wrappers
import Squint.Kernel.StackTrace
import Squint.Kernel.Records
import Squint.Kernel.MockReader
import Squint.Kernel.RoundTrip
import Squint.Pipeline
import Squint.Nova.Primitives
import Squint.Nova.Journal
import Squint.Nova.Recovery
import Squint.Nova.Transactions
import Squint.Nova.Restart
import Squint.Nova.Inodes
import Squint.Nova.LogEntries
import Squint.Nova.NameOps
import Squint.Nova.ParentEntries
import Squint.Nova.Layout
import Squint.Nova.NameRuns
import Squint.Nova.RangeTree
import Squint.Nova.FreeList
import Squint.Nova.Allocation
import Squint.Nova.BlockMap
import Squint.Nova.BlockRuns
