import FlowGraph.Graph.Basic
/-!
# Walks

A walk visits blocks along recorded edges, each block once and a block before
those it leads to. A visitor decides at each block whether the walk goes on to
the successors. Several walks may share the set of blocks they have seen.
-/

namespace FlowGraph

/-- The blocks seen so far, and those visited in the order of their visits. -/
structure Walk where
  seen : Std.TreeSet BlockId := ∅
  visited : Array BlockId := #[]

namespace Walk

/-- A block that is visited is seen from then on. -/
def visit (w : Walk) (b : BlockId) : Walk where
  seen := w.seen.insert b
  visited := w.visited.push b

theorem size_seen_visit {w : Walk} {b : BlockId} (h : w.seen.contains b = false) :
    BlockId.count - (w.visit b).seen.size < BlockId.count - w.seen.size := by
  have := BlockId.size_set_le (w.visit b).seen
  simp only [visit, Std.TreeSet.size_insert, h] at this ⊢
  simp only [Bool.false_eq_true, if_false] at this ⊢
  omega

/-- Visits what the stack leads to, top first. -/
def run (g : Graph) (goesOn : BlockId → Bool) (w : Walk) (stack : List BlockId) : Walk :=
  match stack with
  | [] => w
  | b :: stack =>
    match _ : w.seen.contains b with
    | true => run g goesOn w stack
    | false => run g goesOn (w.visit b) (if goesOn b then g.succs b ++ stack else stack)
termination_by (BlockId.count - w.seen.size, stack.length)
decreasing_by
  · right; simp
  · left; exact size_seen_visit ‹_›

section

variable {g : Graph} {goesOn : BlockId → Bool} {w : Walk} {b : BlockId} {stack : List BlockId}

@[simp] theorem run_nil : run g goesOn w [] = w := by rw [run]

theorem run_of_seen (h : w.seen.contains b = true) :
    run g goesOn w (b :: stack) = run g goesOn w stack := by
  rw [run]
  split
  · rfl
  · next hn => rw [h] at hn; cases hn

theorem run_of_unseen (h : w.seen.contains b = false) :
    run g goesOn w (b :: stack) =
      run g goesOn (w.visit b) (if goesOn b then g.succs b ++ stack else stack) := by
  rw [run]
  split
  · next hn => rw [h] at hn; cases hn
  · rfl

end

end Walk

/-- The walk from `b`, where blocks in `seen` count as visited before. -/
def Graph.walkFrom (g : Graph) (seen : Std.TreeSet BlockId) (b : BlockId)
    (goesOn : BlockId → Bool) : Walk :=
  Walk.run g goesOn { seen } [b]

end FlowGraph
