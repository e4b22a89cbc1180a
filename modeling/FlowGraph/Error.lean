import FlowGraph.BlockId
/-!
# Errors

Each error is a cause. `Error.message` words it, and `Error.report` adds the
place that reports it when the cause is a broken invariant.
-/

namespace FlowGraph

/-- An assumption about a graph that turned out to be false. -/
inductive Violation where
  | undominated (pred block : BlockId)
  | chainsNeverMeet (a b : BlockId)
  | chainEnds (block dominator other : BlockId)
  | endlessWalk (block : BlockId)
  /-- A violation in the words of whoever found it. -/
  | stated (message : String)
deriving DecidableEq

def Violation.message : Violation → String
  | undominated pred block => s!"predecessor {pred} of {block} has no immediate dominator"
  | chainsNeverMeet a b => s!"dominator chains of {a} and {b} never meet"
  | chainEnds block dominator other =>
    s!"dominator chain of {block} ends at {dominator} without reaching {other}"
  | endlessWalk block => s!"predecessor walk from {block} did not terminate"
  | stated message => message

/-- Why there is no graph, or no answer to a query. -/
inductive Error where
  | unreachable (block : BlockId)
  | unvisited (block : BlockId)
  | unknown (block : BlockId)
  | tooDeep (limit : Nat)
  | invariant (violation : Violation)
deriving DecidableEq

/-- A line of a source file. -/
structure Site where
  file : String
  line : Nat

namespace Error

def message : Error → String
  | unreachable block => s!"Block {block} is unreachable and has no immediate dominator"
  | unvisited block => s!"Block {block} was never visited by the post-order traversal"
  | unknown block => s!"Block {block} is not part of the function"
  | tooDeep limit => s!"Reach the maximum recursion level allowed - {limit}"
  | invariant violation => violation.message

/-- The message, and for a broken invariant the line that found it. -/
def report (site : Site) : Error → String
  | invariant violation =>
    s!"Invariant violation - {site.file}:{site.line}: {violation.message}"
  | e => e.message

end Error

end FlowGraph
