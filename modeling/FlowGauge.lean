import FlowGauge.Code.Assembler
import FlowGauge.Digest
import FlowGauge.Flow.Dot
import FlowGauge.Json.Text
import FlowGauge.Proofs.Graph.Dominators
import FlowGauge.Ranking
import FlowGauge.Session
import FlowGauge.Proofs.Flow.Construction
import FlowGauge.Proofs.Flow.Dominance
import FlowGauge.Proofs.Graph.Sweep
import FlowGauge.Proofs.Flow.Loops
import FlowGauge.Proofs.BitSet
import FlowGauge.Proofs.DataFlow.Solver
import FlowGauge.Proofs.DataFlow.Definitions
import FlowGauge.Proofs.DataFlow.Reaching
import FlowGauge.Proofs.DataFlow.Chains
import FlowGauge.Proofs.DataFlow.Exposure
import FlowGauge.Proofs.DataFlow.Liveness
import FlowGauge.Proofs.Graph.Termination
import FlowGauge.Proofs.Flow.Validation
import FlowGauge.Proofs.Trust
import FlowGauge.Proofs.Flow.Frontiers
import FlowGauge.Proofs.DataFlow.Interference
import FlowGauge.Proofs.Flow.Nesting
import FlowGauge.Proofs.Timing.Context
import FlowGauge.Proofs.Timing.CriticalPath
import FlowGauge.Proofs.Batch
import FlowGauge.Proofs.Quality.Acceptance
import FlowGauge.Proofs.Timing.Bounds
import FlowGauge.Proofs.Json.Lawful
import FlowGauge.Proofs.Json.RoundTrip
import FlowGauge.Proofs.DeadCode
import FlowGauge.Proofs.Graph.Agreement
import FlowGauge.Proofs.Graph.StackSearch
import FlowGauge.Proofs.Timing.CycleSums
import FlowGauge.Proofs.Flow.Preheader
import FlowGauge.Proofs.DataFlow.LiveRanges
import FlowGauge.Proofs.Graph.Traversals
import FlowGauge.Proofs.Graph.Preorder
import FlowGauge.Proofs.DataFlow.ChainOrder
import FlowGauge.Proofs.DataFlow.CoarseRanges
import FlowGauge.Proofs.DataFlow.Incoming
import FlowGauge.Proofs.Sorting
import FlowGauge.Proofs.Ranking
import FlowGauge.Proofs.Timing.Recommendations
import FlowGauge.Proofs.Quality.Opportunities
import FlowGauge.Proofs.BitSet.Changes
import FlowGauge.Proofs.DataFlow.Equations
import FlowGauge.Proofs.Flow.Drawing
import FlowGauge.Proofs.Timing.MemoryAccounting
import FlowGauge.Proofs.DataFlow.ConflictGraph
import FlowGauge.Proofs.Code.Sizes
