import FlowGraph.Graph.Basic
/-!
# Enclosing loops

The innermost loop around a block is found by walking back over recorded
predecessors until a loop header comes up. From the merge block of a loop or
selection the walk goes straight to the header that owns it. A merge block lies
outside its loop, so the owning loop header does not count then.

Recorded edges close no cycle, so the walk meets each block at most once.
-/

namespace FlowGraph.Graph

/-- Where the walk goes from a block. -/
structure Approach where
  next : BlockId
  /-- The walk leaves the merge block of the loop that `next` heads. -/
  skipsHeader : Bool
deriving DecidableEq

/-- The first of the predecessors that owns `b` as its merge block, or else
`first`. Every predecessor up to it must resolve. -/
def approach (view : View) (b first : BlockId) : List BlockId → Except Error Approach
  | [] => .ok ⟨first, false⟩
  | pred :: preds =>
    match view pred with
    | none => .error (.unknown pred)
    | some block =>
      match block.merge with
      | .loop mergeBlock => if mergeBlock = b then .ok ⟨pred, true⟩ else approach view b first preds
      | .selection nextBlock => if nextBlock = b then .ok ⟨pred, false⟩ else approach view b first preds
      | .none => approach view b first preds

/-- One step of the walk from `b`, which goes on as `rest`. -/
def searchStep (g : Graph) (view : View) (rest : BlockId → Except Error (Option BlockId))
    (b : BlockId) : Except Error (Option BlockId) :=
  match g.preds b with
  | [] => .ok none
  | first :: preds => do
    let a ← approach view b first (first :: preds)
    if a.skipsHeader then
      rest a.next
    else if (← view.resolve a.next).merge.isLoop then
      return some a.next
    else
      rest a.next

/-- Walks back in at most the given number of steps; `start` is where the walk began. -/
def searchLoop (g : Graph) (view : View) (start : BlockId) :
    Nat → BlockId → Except Error (Option BlockId)
  | 0, _ => .error (.invariant (.endlessWalk start))
  | steps + 1, b => g.searchStep view (searchLoop g view start steps) b

theorem searchLoop_succ {g : Graph} {view : View} (start : BlockId) (steps : Nat) (b : BlockId) :
    g.searchLoop view start (steps + 1) b = g.searchStep view (g.searchLoop view start steps) b := rfl

/-- The header of the innermost loop around `b`, other than `b` itself. -/
def loopHeader? (g : Graph) (view : View) (b : BlockId) : Except Error (Option BlockId) :=
  g.searchLoop view b (g.size + 1) b

end FlowGraph.Graph
