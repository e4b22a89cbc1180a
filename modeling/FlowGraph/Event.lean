import FlowGraph.BlockId
/-!
# The log

Operations that log return what they log beside their result, oldest first,
also when the result is an error.
-/

namespace FlowGraph

/-- An edge of a graph, from `source` to `target`. -/
structure Edge where
  source : BlockId
  target : BlockId
deriving DecidableEq

/-- How much detail a log has to keep to hold an event. -/
inductive Level where
  | trace
  | debug
deriving DecidableEq

def Level.name : Level → String
  | trace => "TRACE"
  | debug => "DEBUG"

/-- What is logged: edges as they are found, each graph that is built, and what became
of a placement or a batch. -/
inductive Event where
  | backEdge (edge : Edge)
  | mergeEdge (edge : Edge)
  | built (entry : BlockId) (blocks backEdges mergeEdges : Nat)
  | lifted (dominator entry : BlockId)
  | failures (failed total : Nat)
deriving DecidableEq

namespace Event

def level : Event → Level
  | backEdge _ | mergeEdge _ => .trace
  | built .. | lifted .. | failures .. => .debug

def message : Event → String
  | backEdge e => s!"back edge {e.source} -> {e.target}"
  | mergeEdge e => s!"loop merge edge {e.source} -> {e.target}"
  | built entry blocks backEdges mergeEdges =>
    s!"built CFG for entry {entry}: {blocks} reachable blocks, " ++
      s!"{backEdges} back edges, {mergeEdges} loop merge edges"
  | lifted dominator entry =>
    s!"dominator {dominator} is a continue block, lifting to entry {entry}"
  | failures failed total => s!"{failed} of {total} functions failed control flow analysis"

/-- The event as a line of a log. -/
def line (e : Event) : String := s!"{e.level.name} {e.message}"

end Event

/-- A result and what was logged on the way to it. -/
structure Logged (α : Type) where
  value : α
  events : Array Event := #[]

end FlowGraph
