import FlowGraph.Graph.Build
import FlowGraph.Graph.Loop
import FlowGraph.Graph.Walk
import FlowGraph.Graph.Dot
import FlowGraph.Placement
import FlowGraph.Proofs.Path
import FlowGraph.Proofs.Traversal.Marking
import FlowGraph.Proofs.Traversal.Recording
import FlowGraph.Proofs.Traversal.Following
import FlowGraph.Proofs.Graph.Build
import FlowGraph.Proofs.Dominance
import FlowGraph.Proofs.Placement
import FlowGraph.Proofs.Loop
import FlowGraph.Proofs.Traversal.Sorting
import FlowGraph.Proofs.Edges
import FlowGraph.Proofs.Traversal.Recursion
import FlowGraph.Proofs.Traversal.Cycles
import FlowGraph.Proofs.BranchOrder
import FlowGraph.Proofs.Ends
import FlowGraph.Proofs.Changing
import FlowGraph.Proofs.Graph.Progress
import FlowGraph.Proofs.Traversal.Failing
import FlowGraph.Proofs.Traversal.Lookup
import FlowGraph.Proofs.LoopSearch
import FlowGraph.Proofs.Errors
import FlowGraph.Proofs.Merge
import FlowGraph.Proofs.DeadCode
import FlowGraph.Proofs.LoopExit
import FlowGraph.Proofs.Meet
import FlowGraph.Proofs.ContinueBlock
import FlowGraph.Proofs.Undominated
import FlowGraph.Proofs.Renaming.Basic
import FlowGraph.Proofs.Renaming.Traversal
import FlowGraph.Proofs.Renaming.Graph
import FlowGraph.Proofs.Renaming
import FlowGraph.Proofs.WrittenMerges.Traversal
import FlowGraph.Proofs.WrittenMerges
import FlowGraph.Proofs.DepthLimit
import FlowGraph.Proofs.Walk
import FlowGraph.Proofs.Dot.Quoted
import FlowGraph.Proofs.Dot.Document
import FlowGraph.Proofs.Graph.Dot
import FlowGraph.Proofs.Lineage
import FlowGraph.Proofs.Detour
