import FlowGraph.Traversal.Basic
/-!
# Flow graphs

A graph is what a traversal found together with immediate dominators. It keeps
no blocks: the queries that look a block up take the view to resolve it with.
-/

namespace FlowGraph

/-- What a traversal found, and the dominator tree. Both may be of any shape here; what
they are like in a graph that was built is proved, not assumed. -/
structure Graph where
  entry : BlockId
  traversal : Traversal
  /-- The immediate dominators found; the entry is its own. -/
  idoms : Std.TreeMap BlockId BlockId

namespace Graph

/-- The reachable blocks in the order they were done. -/
def postOrder (g : Graph) : List BlockId := g.traversal.order.toList

/-- The reachable blocks, each before the targets of its recorded edges. -/
def reversePostOrder (g : Graph) : List BlockId := g.postOrder.reverse

/-- The number of reachable blocks. -/
def size (g : Graph) : Nat := g.traversal.order.size

/-- The rank of a block in the post-order, from 1. It fits into 32 bits unless every
identifier is reachable (`rank_lt_size_of_build`). -/
def rank? (g : Graph) (b : BlockId) : Option Nat := g.traversal.rank? b

/-- Whether the traversal came to the block. -/
def isReachable (g : Graph) (b : BlockId) : Bool := (g.rank? b).isSome

/-- The sources of the recorded edges into a block, in the order of recording. -/
def preds (g : Graph) (b : BlockId) : List BlockId := g.traversal.preds.neighbours b

/-- The targets of the recorded edges out of a block, in the order of recording. -/
def succs (g : Graph) (b : BlockId) : List BlockId := g.traversal.succs.neighbours b

/-- The edges that close a cycle, once for each time they were followed. These
are not recorded. -/
def backEdges (g : Graph) : List Edge := g.traversal.backEdges.toList

/-- The edges from a loop header to its merge block that were recorded when the
merge was followed. A branch may lead there as well. -/
def mergeEdges (g : Graph) : List Edge := g.traversal.mergeEdges.toList

/-- The immediate dominator of a block, `none` for an unreachable one. -/
def idom? (g : Graph) (b : BlockId) : Option BlockId := g.idoms[b]?

end Graph

end FlowGraph
