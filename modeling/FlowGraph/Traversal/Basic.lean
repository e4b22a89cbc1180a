import FlowGraph.Source
import FlowGraph.Options
import FlowGraph.Event
import FlowGraph.Adjacency
/-!
# What a traversal finds

A traversal follows the exits of a block: its branches and, where the options
ask for it, the merge block of the loop it heads. It marks the blocks that it
meets, ranks those that are done, and sorts the edges that it follows: an edge
to a block that is still on the path closes a cycle and is a back edge, every
other edge is recorded between the blocks at its ends.
-/

namespace FlowGraph

/-- How far the traversal is with a block that it has met. Ranks are natural numbers
here. They fit into 32 bits unless the traversal ranks every identifier there is
(`State.Visited.rank_lt_size`). -/
inductive Mark where
  | onPath
  | done (rank : Nat)
deriving DecidableEq

/-- A way from a block to another that the traversal follows. -/
inductive Exit where
  | branch (target : BlockId)
  | merge (target : BlockId)
deriving DecidableEq

def Exit.target : Exit → BlockId
  | branch target | merge target => target

/-- The exits of a block in the order they are followed. -/
def Block.exits (b : Block) (opts : Options) : List Exit :=
  b.successors.map .branch ++
    if opts.followMerges then b.merge.loopBlock?.toList.map .merge else []

/-- What a traversal has found. -/
structure Traversal where
  marks : Std.TreeMap BlockId Mark := ∅
  /-- The blocks that are done, in the order they were ranked. -/
  order : Array BlockId := #[]
  preds : Adjacency := ∅
  succs : Adjacency := ∅
  backEdges : Array Edge := #[]
  /-- The edges that were recorded for a merge. -/
  mergeEdges : Array Edge := #[]

namespace Traversal

/-- The mark of a block, `none` for one that was not met. -/
def mark? (t : Traversal) (b : BlockId) : Option Mark := t.marks[b]?

/-- The rank of a block, `none` for one that is not done. -/
def rank? (t : Traversal) (b : BlockId) : Option Nat :=
  match t.mark? b with
  | some (.done rank) => some rank
  | _ => none

/-- Puts a block on the path. -/
def enter (t : Traversal) (b : BlockId) : Traversal :=
  { t with marks := t.marks.insert b .onPath }

/-- Gives `b` the next rank; the first is 1. -/
def finish (t : Traversal) (b : BlockId) : Traversal :=
  { t with marks := t.marks.insert b (.done (t.order.size + 1)), order := t.order.push b }

/-- Records an edge at both of its ends, unless it is recorded already. -/
def addEdge (t : Traversal) (e : Edge) : Traversal :=
  { t with preds := t.preds.add e.target e.source, succs := t.succs.add e.source e.target }

/-- Keeps an edge that closes a cycle. It may be kept more than once. -/
def addBackEdge (t : Traversal) (e : Edge) : Traversal :=
  { t with backEdges := t.backEdges.push e }

/-- Notes that an edge was followed for a merge. -/
def addMergeEdge (t : Traversal) (e : Edge) : Traversal :=
  { t with mergeEdges := t.mergeEdges.push e }

theorem mark?_enter (t : Traversal) (b x : BlockId) :
    (t.enter b).mark? x = if b = x then some .onPath else t.mark? x := by
  simp [enter, mark?, Std.TreeMap.getElem?_insert]

theorem mark?_finish (t : Traversal) (b x : BlockId) :
    (t.finish b).mark? x = if b = x then some (.done (t.order.size + 1)) else t.mark? x := by
  simp [finish, mark?, Std.TreeMap.getElem?_insert]

@[simp] theorem mark?_addEdge (t : Traversal) (e : Edge) (x : BlockId) :
    (t.addEdge e).mark? x = t.mark? x := rfl

@[simp] theorem mark?_addBackEdge (t : Traversal) (e : Edge) (x : BlockId) :
    (t.addBackEdge e).mark? x = t.mark? x := rfl

@[simp] theorem mark?_addMergeEdge (t : Traversal) (e : Edge) (x : BlockId) :
    (t.addMergeEdge e).mark? x = t.mark? x := rfl

end Traversal

end FlowGraph
