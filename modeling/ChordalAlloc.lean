import ChordalAlloc.Allocation
import ChordalAlloc.Code.Assembly
import ChordalAlloc.Proofs.Checks
import ChordalAlloc.Proofs.Execution
import ChordalAlloc.Proofs.View
import ChordalAlloc.Proofs.WellFormed
import ChordalAlloc.Proofs.Equations
import ChordalAlloc.Proofs.Liveness
import ChordalAlloc.Proofs.Extremality
import ChordalAlloc.Proofs.Adjacency
import ChordalAlloc.Proofs.Interference
import ChordalAlloc.Proofs.Ways
import ChordalAlloc.Proofs.Registers
import ChordalAlloc.Proofs.Audit
import ChordalAlloc.Proofs.Partition
import ChordalAlloc.Proofs.Trim
import ChordalAlloc.Proofs.Detour
import ChordalAlloc.Proofs.AddedCopy
import ChordalAlloc.Proofs.Following
import ChordalAlloc.Proofs.Records
import ChordalAlloc.Proofs.Lowering
import ChordalAlloc.Proofs.DroppedCopy
import ChordalAlloc.Proofs.MergeGraph
import ChordalAlloc.Proofs.ClassGraph
import ChordalAlloc.Proofs.PhiClasses
import ChordalAlloc.Proofs.Merging
import ChordalAlloc.Proofs.KeptCopies
import ChordalAlloc.Proofs.Assignment
import ChordalAlloc.Proofs.Allocation
import ChordalAlloc.Proofs.Strictness
import ChordalAlloc.Proofs.Colorability
import ChordalAlloc.Proofs.Chordality
import ChordalAlloc.Proofs.Lookups
import ChordalAlloc.Proofs.KeyQueue
import ChordalAlloc.Proofs.Elimination
import ChordalAlloc.Proofs.Optimality
import ChordalAlloc.Proofs.LiveRanges
import ChordalAlloc.Proofs.Layout
import ChordalAlloc.Proofs.EdgeCode
import ChordalAlloc.Proofs.PhiEdges
import ChordalAlloc.Proofs.Acceptance
import ChordalAlloc.Proofs.Closure
import ChordalAlloc.Proofs.Additions
import ChordalAlloc.Proofs.Removal
import ChordalAlloc.Proofs.Statistics
import ChordalAlloc.Proofs.Density
import ChordalAlloc.Proofs.FinishOrder
import ChordalAlloc.Proofs.Histories
import ChordalAlloc.Proofs.Numbering
import ChordalAlloc.Proofs.SetHistories
import ChordalAlloc.Proofs.EdgeCount
import ChordalAlloc.Proofs.Summaries
import ChordalAlloc.Proofs.Ranks
import ChordalAlloc.Proofs.EdgeLists
import ChordalAlloc.Proofs.AnalysisWithin
import ChordalAlloc.Proofs.PartitionWithin
import ChordalAlloc.Proofs.MergingWithin
import ChordalAlloc.Proofs.ColoringWithin
import ChordalAlloc.Proofs.AllocationWithin
