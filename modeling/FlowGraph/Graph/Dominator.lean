import FlowGraph.Graph.Basic
/-!
# Dominators

The immediate dominators of a graph form a tree with the entry at its root.
The dominators of a block are its ancestors, itself included, and the nearest
common dominator of two blocks is the nearest common ancestor.

`commonDominator` also serves while the tree is being built, when it knows only
some of the blocks. It climbs from the block of smaller rank, since a dominator
has the larger rank.
-/

namespace FlowGraph.Graph

/-- The rank of a block that has an immediate dominator. -/
def dominatedRank (g : Graph) (b : BlockId) : Except Error Nat :=
  match g.idom? b with
  | none => .error (.unreachable b)
  | some _ =>
    match g.rank? b with
    | some rank => .ok rank
    | none => .error (.unvisited b)

/-- The immediate dominator of `b`, on the way to meet `other`. -/
def stepUp (g : Graph) (b other : BlockId) : Except Error BlockId :=
  match g.idom? b with
  | none => .error (.unreachable b)
  | some d => if d = b then .error (.invariant (.chainEnds b d other)) else .ok d

/-- Climbs from `a` and `b` until they meet, in at most the given number of steps. -/
def climb (g : Graph) : Nat → BlockId → BlockId → Except Error BlockId
  | 0, a, b => if a = b then .ok a else .error (.invariant (.chainsNeverMeet a b))
  | budget + 1, a, b =>
    if a = b then
      .ok a
    else do
      let rankA ← g.dominatedRank a
      let rankB ← g.dominatedRank b
      if rankA < rankB then
        g.climb budget (← g.stepUp a b) b
      else
        g.climb budget a (← g.stepUp b a)

/-- The nearest block that dominates both `a` and `b`. Two equal blocks meet
without a step, even if they have no dominator. -/
def commonDominator (g : Graph) (a b : BlockId) : Except Error BlockId :=
  g.climb (2 * g.idoms.size + 2) a b

/-- The dominators of `b` above those already in `below`, in at most the given
number of steps. -/
def chain (g : Graph) : Nat → BlockId → Array BlockId → Array BlockId
  | 0, b, below => below.push b
  | steps + 1, b, below =>
    match g.idom? b with
    | none => below.push b
    | some d => if d = b then below.push b else g.chain steps d (below.push b)

/-- The blocks that dominate `b`, from `b` up to the entry; none for an
unreachable block. -/
def dominators (g : Graph) (b : BlockId) : List BlockId :=
  match g.idom? b with
  | none => []
  | some _ => (g.chain g.idoms.size b #[]).toList

/-- Whether `a` is among the dominators of `b`, which takes both to be reachable. -/
def dominates (g : Graph) (a b : BlockId) : Bool :=
  g.isReachable a && (g.dominators b).contains a

end FlowGraph.Graph
