/-!
# Options of a graph
-/

namespace FlowGraph

/-- How a graph is built. -/
structure Options where
  /-- Every loop header also leads to its merge block, after its branches. -/
  followMerges : Bool := true
  /-- How many blocks the path of the traversal may hold. -/
  maxDepth : Nat := 65536
deriving DecidableEq

namespace Options

/-- What is used unless options are given. -/
def standard : Options := {}

/-- Only the branches that are written. -/
def literal : Options := { followMerges := false }

end Options

end FlowGraph
