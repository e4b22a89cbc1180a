import FlowGraph.Graph.Dominator
import FlowGraph.Traversal.Run
/-!
# Building graphs

A graph is built by a traversal and one pass over the blocks it found, last
done first. Every recorded predecessor of a block was done after it, so the
pass knows the dominators of all predecessors when it gets to the block. The
immediate dominator of a block is the nearest common dominator of its
predecessors.

A `Batch` is what comes of several sources, which are built apart from each other.
-/

namespace FlowGraph

namespace Graph

/-- The graph with `d` as the immediate dominator of `b`. -/
def withIdom (g : Graph) (b d : BlockId) : Graph := { g with idoms := g.idoms.insert b d }

@[simp] theorem entry_withIdom (g : Graph) (b d : BlockId) : (g.withIdom b d).entry = g.entry := rfl

theorem idom?_withIdom (g : Graph) (b d x : BlockId) :
    (g.withIdom b d).idom? x = if b = x then some d else g.idom? x := by
  simp [withIdom, idom?, Std.TreeMap.getElem?_insert]

/-- Gives `b` its immediate dominator from its predecessors. The entry keeps
its own, and a block without predecessors gets none. -/
def assignDominator (g : Graph) (b : BlockId) : Except Error Graph :=
  if b = g.entry then
    .ok g
  else
    match g.preds b with
    | [] => .ok g
    | pred :: preds =>
      match g.idom? pred with
      | none => .error (.invariant (.undominated pred b))
      | some _ => do
        let d ← preds.foldlM g.commonDominator pred
        return g.withIdom b d

/-- The pass over all blocks. It ends at the first block that fails. -/
def assignDominators (g : Graph) : Except Error Graph :=
  g.reversePostOrder.foldlM assignDominator g

/-- What the pass starts from: only the entry has a dominator, itself. -/
def single (entry : BlockId) (t : Traversal) : Graph :=
  ⟨entry, t, Std.TreeMap.empty.insert entry entry⟩

@[simp] theorem entry_single (entry : BlockId) (t : Traversal) : (single entry t).entry = entry := rfl

theorem idom?_single (entry : BlockId) (t : Traversal) (x : BlockId) :
    (single entry t).idom? x = if entry = x then some entry else none := by
  simp [single, idom?, Std.TreeMap.getElem?_insert]

/-- The graph of what a traversal found. -/
def ofFound (entry : BlockId) (found : Logged (Except Error Traversal)) :
    Logged (Except Error Graph) :=
  match found.value with
  | .error e => ⟨.error e, found.events⟩
  | .ok t =>
    match assignDominators (single entry t) with
    | .error e => ⟨.error e, found.events⟩
    | .ok g =>
      ⟨.ok g, found.events.push
        (.built g.entry g.size g.traversal.backEdges.size g.traversal.mergeEdges.size)⟩

/-- The graph of a source. -/
def build (src : Source) (opts : Options := .standard) : Logged (Except Error Graph) :=
  ofFound src.entry (Traversal.run src opts)

end Graph

/-! ## Several sources -/

/-- The builds of several sources, in their order, each with its own log. -/
structure Batch where
  builds : List (Logged (Except Error Graph))

/-- Builds the graphs of independent sources side by side. -/
def Graph.buildAll (srcs : List Source) (opts : Options := .standard) : Batch where
  builds := srcs.map (Graph.build · opts)

namespace Batch

/-- The graph of each source, or why it has none. -/
def value (batch : Batch) : List (Except Error Graph) := batch.builds.map (·.value)

/-- What is logged after all builds: how many have failed, if any. -/
def summary (batch : Batch) : Array Event :=
  let failed := batch.value.countP fun built => !built.isOk
  if failed = 0 then #[] else #[.failures failed batch.builds.length]

/-- The part of the log that the thread asking for the batch writes. It runs a
single build itself, and leaves two or more to other threads. -/
def events (batch : Batch) : Array Event :=
  match batch.builds with
  | [build] => build.events ++ batch.summary
  | _ => batch.summary

end Batch

end FlowGraph
