import FlowGraph.BlockId
/-!
# Ordered neighbours

For each block the list of its neighbours, in the order they were first added
and without repetition.
-/

namespace FlowGraph

/-- `l` with `b` at its end, unless it is in `l` already. -/
def addNew (l : List BlockId) (b : BlockId) : List BlockId :=
  if b ∈ l then l else l ++ [b]

theorem mem_addNew {l : List BlockId} {b x : BlockId} : x ∈ addNew l b ↔ x ∈ l ∨ x = b := by
  unfold addNew; split <;> simp_all

theorem nodup_addNew {l : List BlockId} (b : BlockId) (h : l.Nodup) : (addNew l b).Nodup := by
  unfold addNew; split
  · exact h
  · next hb =>
    refine List.nodup_append.2 ⟨h, by simp, ?_⟩
    rintro a ha _ hc rfl
    exact hb (List.mem_singleton.1 hc ▸ ha)

/-- The lists of neighbours. A block without a list has no neighbours. -/
structure Adjacency where
  lists : Std.TreeMap BlockId (List BlockId) := ∅

namespace Adjacency

instance : EmptyCollection Adjacency := ⟨{}⟩

/-- The neighbours of a block, none for one that was never given any. -/
def neighbours (a : Adjacency) (b : BlockId) : List BlockId := a.lists.getD b []

/-- Makes `b` a neighbour of `a`. -/
def add (adj : Adjacency) (a b : BlockId) : Adjacency :=
  { lists := adj.lists.insert a (addNew (adj.neighbours a) b) }

@[simp] theorem neighbours_empty (b : BlockId) : (∅ : Adjacency).neighbours b = [] :=
  Std.TreeMap.getD_emptyc

theorem neighbours_add (adj : Adjacency) (a b x : BlockId) :
    (adj.add a b).neighbours x = if a = x then addNew (adj.neighbours a) b else adj.neighbours x := by
  simp [neighbours, add, Std.TreeMap.getD_insert]

end Adjacency

end FlowGraph
