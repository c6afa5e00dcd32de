import PFPSanitizer.Lib.Machine
import PFPSanitizer.Lib.Schedules
import PFPSanitizer.Lib.DirectMapped
import PFPSanitizer.Lib.Handoff
import PFPSanitizer.Lib.Weave
import PFPSanitizer.Lib.Filtering
import PFPSanitizer.Lib.Growing
import PFPSanitizer.Lib.Lifetimes
import PFPSanitizer.Lib.Parentheses
import PFPSanitizer.Lib.Worklist
import PFPSanitizer.Lib.Pairing
import PFPSanitizer.Lib.RealFunctions
import PFPSanitizer.Lib.SingleAssignment
import PFPSanitizer.Lib.ParallelCopy
import PFPSanitizer.Lib.Chunks
import PFPSanitizer.Lib.Expressions
import PFPSanitizer.Lib.Scientific
import PFPSanitizer.Lib.Binary64
import PFPSanitizer.Lib.Representable
import PFPSanitizer.Runtime.Queues
import PFPSanitizer.Runtime.Steps
import PFPSanitizer.Runtime.Ownership
import PFPSanitizer.Runtime.Tasks
import PFPSanitizer.Runtime.Progress
import PFPSanitizer.Runtime.Delivery
import PFPSanitizer.Runtime.RoundRobin
import PFPSanitizer.Runtime.BufferIndex
import PFPSanitizer.Runtime.Cursors
import PFPSanitizer.Runtime.Transport
import PFPSanitizer.Runtime.Waiting
import PFPSanitizer.Runtime.Temporaries
import PFPSanitizer.Runtime.LockKey
import PFPSanitizer.Runtime.RoundTrip
import PFPSanitizer.Runtime.Plain
import PFPSanitizer.Runtime.IdealMemory
import PFPSanitizer.Runtime.MathLib
import PFPSanitizer.Runtime.Exact
import PFPSanitizer.Runtime.Finish
import PFPSanitizer.Runtime.Termination
import PFPSanitizer.Runtime.Clones
import PFPSanitizer.Runtime.ShadowCheck
import PFPSanitizer.Runtime.ShadowMemory
import PFPSanitizer.Runtime.Branches
import PFPSanitizer.Runtime.Ulps
import PFPSanitizer.Runtime.FpCore
import PFPSanitizer.Runtime.Cancellation
import PFPSanitizer.Runtime.Counters
import PFPSanitizer.Runtime.Reports
import PFPSanitizer.Runtime.Slices
import PFPSanitizer.Runtime.ExactBits
import PFPSanitizer.Runtime.InitOnce
import PFPSanitizer.Runtime.KeyBlock
import PFPSanitizer.Runtime.Sessions
import PFPSanitizer.Runtime.Traces
import PFPSanitizer.Runtime.Depth
import PFPSanitizer.Pass.Buffers
import PFPSanitizer.Pass.Switches
import PFPSanitizer.Pass.Synchronous
import PFPSanitizer.Pass.IR
import PFPSanitizer.Pass.Channel
import PFPSanitizer.Pass.Paths
import PFPSanitizer.Pass.Calls
import PFPSanitizer.Pass.Shadow
import PFPSanitizer.Pass.Removal
import PFPSanitizer.Pass.Execution
import PFPSanitizer.Pass.StraightLine
import PFPSanitizer.Pass.MathCalls
import PFPSanitizer.Pass.Exactness
import PFPSanitizer.Pass.Operands
import PFPSanitizer.Pass.Phis
import PFPSanitizer.Pass.Stores
import PFPSanitizer.Pass.Renaming
import PFPSanitizer.Pass.Returns
import PFPSanitizer.Pass.Encoding
import PFPSanitizer.Pass.Lockstep
import PFPSanitizer.Pass.Bindings
import PFPSanitizer.Pass.Casts
import PFPSanitizer.Pass.Loops
import PFPSanitizer.Pass.Slots
