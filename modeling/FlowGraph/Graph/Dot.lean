import FlowGraph.Graph.Basic
import FlowGraph.Dot.Document
/-!
# Graphs as DOT

The blocks in reverse post-order, the entry in green; then the edges: recorded
ones solid, or dashed where they were recorded for a merge, back edges dotted,
and the dominator tree in blue if it is asked for.
-/

namespace FlowGraph.Graph

open Dot

/-- The name of a block in the text, where `%` may not stand. -/
def nodeName (b : BlockId) : String := "B" ++ toString b.raw.toNat

/-- How a block ends and, if it has a merge, of which kind. -/
def kindText (block : Block) : String :=
  match block.merge with
  | .none => block.terminator.kindName
  | merge => block.terminator.kindName ++ " (" ++ merge.kindName ++ ")"

/-- The identifier and rank of a block, and its kind if the view resolves it. -/
def label (g : Graph) (view : View) (b : BlockId) : String :=
  toString b ++ " #" ++ toString ((g.rank? b).getD 0) ++
    match view b with
    | none => ""
    | some block => "\n" ++ kindText block

/-- The node of a block, filled if it is the entry. -/
def nodeStatement (g : Graph) (view : View) (b : BlockId) : Statement :=
  .node (nodeName b) (g.label view b)
    (if b = g.entry then [⟨"style", "filled"⟩, ⟨"fillcolor", "lightgreen"⟩] else [])

def edgeStatement (e : Edge) (attrs : List Attribute) : Statement :=
  .edge (nodeName e.source) (nodeName e.target) attrs

/-- The recorded edges out of a block. -/
def edgeStatements (g : Graph) (b : BlockId) : List Statement :=
  (g.succs b).map fun target =>
    edgeStatement ⟨b, target⟩ (if ⟨b, target⟩ ∈ g.mergeEdges then [⟨"style", "dashed"⟩] else [])

def backEdgeStatement (e : Edge) : Statement := edgeStatement e [⟨"style", "dotted"⟩]

/-- The edge to a block from its parent in the dominator tree. -/
def idomStatement? (g : Graph) (b : BlockId) : Option Statement :=
  match g.idom? b with
  | none => none
  | some d =>
    if d = b then none
    else some (edgeStatement ⟨d, b⟩ [⟨"color", "blue"⟩, ⟨"constraint", "false"⟩])

/-- The drawing of a graph. Blank lines stand between the nodes, the edges and the
dominator tree. -/
def toDocument (g : Graph) (view : View) (title : Option String) (dominators : Bool) :
    Document where
  name := "CFG"
  title := title
  statements :=
    g.reversePostOrder.map (g.nodeStatement view) ++ [.blank] ++
      g.reversePostOrder.flatMap g.edgeStatements ++
      g.backEdges.map backEdgeStatement ++
      if dominators then .blank :: g.reversePostOrder.filterMap g.idomStatement? else []

/-- The graph as a DOT text. -/
def toDot (g : Graph) (view : View) (title : Option String) (dominators : Bool) : String :=
  (g.toDocument view title dominators).render

end FlowGraph.Graph
