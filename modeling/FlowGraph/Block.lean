import FlowGraph.BlockId
/-!
# Basic blocks

A block ends in a terminator, which names the blocks control may go to next,
and may carry a merge: the block where the paths of a structured loop or
selection that it heads come together again. What a block computes is of no
concern here.
-/

namespace FlowGraph

/-- One arm of a multi-way branch: the value it matches and where it goes. -/
structure Case where
  value : UInt64
  target : BlockId
deriving DecidableEq

/-- How a block ends. From `ret`, `unreachable` and `kill` control goes to no other block. -/
inductive Terminator where
  | direct (target : BlockId)
  | select (ifTrue ifFalse : BlockId)
  | multiSelect (cases : List Case) (default : Option BlockId)
  | ret
  | unreachable
  | kill
deriving DecidableEq

namespace Terminator

/-- The branch targets in the order they are written, a default last. A target
that is written twice is listed twice. -/
def targets : Terminator → List BlockId
  | direct target => [target]
  | select ifTrue ifFalse => [ifTrue, ifFalse]
  | multiSelect cases default => cases.map Case.target ++ default.toList
  | ret | unreachable | kill => []

/-- The kind of terminator, as it is shown in drawings. -/
def kindName : Terminator → String
  | direct _ => "direct"
  | select _ _ => "select"
  | multiSelect _ _ => "multi_select"
  | ret => "return"
  | unreachable => "unreachable"
  | kill => "kill"

end Terminator

/-- Where structured control flow that starts at a block comes together. -/
inductive Merge where
  | none
  | loop (mergeBlock : BlockId)
  | selection (nextBlock : BlockId)
deriving DecidableEq

namespace Merge

/-- The kind of merge, as it is shown in drawings. -/
def kindName : Merge → String
  | none => "none"
  | loop _ => "loop"
  | selection _ => "selection"

def isLoop : Merge → Bool
  | loop _ => true
  | _ => false

/-- The merge block, if this is the merge of a loop. -/
def loopBlock? : Merge → Option BlockId
  | loop mergeBlock => some mergeBlock
  | _ => Option.none

end Merge

/-- As much of a block as control flow depends on. -/
structure Block where
  terminator : Terminator
  merge : Merge := .none
deriving DecidableEq

namespace Block

/-- A multi-way branch on the positions of `targets`. -/
def branchTable (targets : List BlockId) (default : Option BlockId) : Block where
  terminator := .multiSelect (targets.mapIdx fun i target => ⟨UInt64.ofNat i, target⟩) default

/-- A block has one merge, so this replaces the one it had. -/
def withMerge (b : Block) (merge : Merge) : Block := { b with merge }

/-- The blocks that the terminator branches to. -/
def successors (b : Block) : List BlockId := b.terminator.targets

end Block

end FlowGraph
