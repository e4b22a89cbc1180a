import FlowGraph.Block
import FlowGraph.Error
/-!
# Where blocks come from

A `Body` is a finite map of blocks with an entry. A `Source` is all that a
graph is built from: any way to resolve identifiers, an entry, and the block
at which the traversal starts. The last two are the same block in every
`Consistent` source, and so in the source of a body.
-/

namespace FlowGraph

/-- Resolves identifiers, `none` for one that names no block. -/
abbrev View := BlockId → Option Block

/-- The block that an identifier names. -/
def View.resolve (view : View) (b : BlockId) : Except Error Block :=
  match view b with
  | some block => .ok block
  | none => .error (.unknown b)

/-- What a graph is built from. -/
structure Source where
  entry : BlockId
  /-- The block at which the traversal starts. -/
  root : BlockId := entry
  block : View

/-- The traversal starts at the entry. -/
def Source.Consistent (s : Source) : Prop := s.root = s.entry

instance (s : Source) : Decidable s.Consistent := inferInstanceAs (Decidable (_ = _))

/-- The blocks of a function and its entry, which need not be among them. -/
structure Body where
  entry : BlockId
  blocks : Std.TreeMap BlockId Block := ∅

namespace Body

/-- The look-up in a body. -/
def get? (body : Body) : View := fun id => body.blocks[id]?

/-- A block that had the identifier is replaced. -/
def insert (body : Body) (id : BlockId) (block : Block) : Body :=
  { body with blocks := body.blocks.insert id block }

/-- Later pairs replace earlier ones of the same identifier. -/
def ofList (entry : BlockId) (blocks : List (BlockId × Block)) : Body :=
  blocks.foldl (fun body b => body.insert b.1 b.2) { entry }

/-- The number of blocks, reachable or not. -/
def size (body : Body) : Nat := body.blocks.size

def isEmpty (body : Body) : Bool := body.blocks.isEmpty

/-- The identifiers in use, sorted. -/
def ids (body : Body) : List BlockId := body.blocks.keys

/-- A body as a source, with the traversal starting at its entry. -/
def source (body : Body) : Source where
  entry := body.entry
  block := body.get?

theorem consistent_source (body : Body) : body.source.Consistent := rfl

theorem get?_insert (body : Body) (id : BlockId) (block : Block) (x : BlockId) :
    (body.insert id block).get? x = if id = x then some block else body.get? x := by
  simp [insert, get?, Std.TreeMap.getElem?_insert]

end Body

end FlowGraph
