import FlowGraph.Graph.Dominator
/-!
# Where a declaration goes

A value that is used in several blocks has to be declared in a block that
dominates them all. A placement takes the uses in one by one and keeps the
nearest such block.
-/

namespace FlowGraph

/-- The uses taken in so far, of which only the place for the declaration is kept. -/
structure Placement where
  /-- The nearest block that dominates every use, `none` before the first. -/
  point : Option BlockId := none
deriving DecidableEq

namespace Placement

/-- Takes in a use. An unreachable block needs no declaration. -/
def add (g : Graph) (b : BlockId) (p : Placement) : Except Error Placement :=
  match g.idom? b with
  | none => .ok p
  | some _ =>
    match p.point with
    | none => .ok ⟨some b⟩
    | some current =>
      if current = b then .ok p else (g.commonDominator b current).map fun d => ⟨some d⟩

/-- Takes in uses up to the first that fails, and keeps those before it. -/
def addAll (g : Graph) (p : Placement) : List BlockId → Placement × Option Error
  | [] => (p, none)
  | b :: bs =>
    match p.add g b with
    | .ok q => q.addAll g bs
    | .error e => (p, some e)

/-- Whether one of the targets has a rank above `rank`; each must have one. -/
def anyAbove (g : Graph) (rank : Nat) : List BlockId → Except Error Bool
  | [] => .ok false
  | target :: targets =>
    match g.rank? target with
    | none => .error (.unvisited target)
    | some r => (anyAbove g rank targets).map (decide (rank < r) || ·)

/-- Whether `b` is a continue block: one that branches to a block of greater
rank, as only a branch back to a loop header does. -/
def isContinue (g : Graph) (view : View) (b : BlockId) : Except Error Bool :=
  match g.rank? b with
  | none => .error (.unvisited b)
  | some rank => do anyAbove g rank (← view.resolve b).successors

/-- Moves the declaration to the entry if it is in a continue block: what is
declared there is not in scope in the loop body. -/
def lift (g : Graph) (view : View) (p : Placement) : Logged (Except Error Placement) :=
  match p.point with
  | none => ⟨.ok p, #[]⟩
  | some d =>
    match isContinue g view d with
    | .error e => ⟨.error e, #[]⟩
    | .ok false => ⟨.ok p, #[]⟩
    | .ok true => ⟨.ok ⟨some g.entry⟩, #[.lifted d g.entry]⟩

end Placement

end FlowGraph
