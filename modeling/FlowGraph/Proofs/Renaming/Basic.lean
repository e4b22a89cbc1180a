import FlowGraph.Traversal.Basic
/-!
# Renamed identifiers

What becomes of blocks, sources, errors and log entries when each identifier
`b` is replaced by `p b`. Merges and terminators keep their kinds, and a text
that somebody stated stays as it is.

`EndsRenamed p R x y` says that two computations end alike: in values related
by `R`, or in the same error about the renamed blocks. It is proved along the
two computations, like `Ends` is along one.
-/

namespace FlowGraph

variable {p : BlockId → BlockId}

/-! ## Blocks -/

def Case.rename (p : BlockId → BlockId) (c : Case) : Case := { c with target := p c.target }

/-- The same terminator, but for the blocks that it names. -/
def Terminator.rename (p : BlockId → BlockId) : Terminator → Terminator
  | direct target => direct (p target)
  | select ifTrue ifFalse => select (p ifTrue) (p ifFalse)
  | multiSelect cases default => multiSelect (cases.map (Case.rename p)) (default.map p)
  | ret => ret
  | unreachable => unreachable
  | kill => kill

def Merge.rename (p : BlockId → BlockId) : Merge → Merge
  | none => none
  | loop mergeBlock => loop (p mergeBlock)
  | selection nextBlock => selection (p nextBlock)

/-- The block with renamed targets. What it is called itself is up to its source. -/
def Block.rename (p : BlockId → BlockId) (b : Block) : Block where
  terminator := b.terminator.rename p
  merge := b.merge.rename p

def Exit.rename (p : BlockId → BlockId) : Exit → Exit
  | branch target => branch (p target)
  | merge target => merge (p target)

@[simp] theorem Terminator.targets_rename (t : Terminator) :
    (t.rename p).targets = t.targets.map p := by
  cases t with
  | multiSelect cases default =>
    simp only [rename, targets, List.map_append, List.map_map, Option.toList_map]
    rfl
  | _ => rfl

@[simp] theorem Merge.isLoop_rename (m : Merge) : (m.rename p).isLoop = m.isLoop := by
  cases m <;> rfl

@[simp] theorem Merge.loopBlock?_rename (m : Merge) :
    (m.rename p).loopBlock? = m.loopBlock?.map p := by
  cases m <;> rfl

@[simp] theorem Block.successors_rename (b : Block) :
    (b.rename p).successors = b.successors.map p :=
  b.terminator.targets_rename

@[simp] theorem Block.merge_rename (b : Block) : (b.rename p).merge = b.merge.rename p := rfl

@[simp] theorem Exit.target_rename (exit : Exit) : (exit.rename p).target = p exit.target := by
  cases exit <;> rfl

@[simp] theorem Block.exits_rename (b : Block) (opts : Options) :
    (b.rename p).exits opts = (b.exits opts).map (Exit.rename p) := by
  unfold exits
  split <;> simp [Option.toList_map, Function.comp_def, Exit.rename]

/-! ## Sources -/

/-- The second view resolves what a block is renamed to as the first resolves
the block. -/
def View.Renames (p : BlockId → BlockId) (view view' : View) : Prop :=
  ∀ b, view' (p b) = (view b).map (Block.rename p)

/-- The second source is the first with its identifiers renamed. -/
structure Source.Renames (p : BlockId → BlockId) (src src' : Source) : Prop where
  entry : src'.entry = p src.entry
  root : src'.root = p src.root
  block : src.block.Renames p src'.block

/-- The body with its entry, the identifiers of its blocks, their targets and
their merges renamed. -/
def Body.rename (p : BlockId → BlockId) (body : Body) : Body where
  entry := p body.entry
  blocks := .ofList (body.blocks.toList.map fun entry => (p entry.1, entry.2.rename p))

theorem Body.renames_rename (hp : Function.Injective p) (body : Body) :
    body.source.Renames p (body.rename p).source := by
  refine ⟨rfl, rfl, fun b => ?_⟩
  change (Std.TreeMap.ofList _ compare)[p b]? = body.blocks[b]?.map (Block.rename p)
  cases hb : body.blocks[b]? with
  | none =>
    apply Std.TreeMap.getElem?_ofList_of_contains_eq_false
    rw [List.map_map, ← Bool.not_eq_true, List.contains_iff_mem]
    intro hmem
    obtain ⟨⟨c, block⟩, hc, hcb⟩ := List.mem_map.1 hmem
    obtain rfl : c = b := hp hcb
    rw [Std.TreeMap.mem_toList_iff_getElem?_eq_some, hb] at hc
    cases hc
  | some block =>
    refine Std.TreeMap.getElem?_ofList_of_mem (k := p b) (BlockId.compare_eq_iff.2 rfl) ?_ ?_
    · refine List.pairwise_map.2 (Std.TreeMap.distinct_keys_toList.imp fun {c d} hcd he => ?_)
      exact hcd (BlockId.compare_eq_iff.2 (hp (BlockId.compare_eq_iff.1 he)))
    · exact List.mem_map.2 ⟨(b, block), Std.TreeMap.mem_toList_iff_getElem?_eq_some.2 hb, rfl⟩

/-! ## Errors and events -/

/-- The violation found among renamed blocks. One in the words of its finder stays as
it is. -/
def Violation.rename (p : BlockId → BlockId) : Violation → Violation
  | undominated pred block => undominated (p pred) (p block)
  | chainsNeverMeet a b => chainsNeverMeet (p a) (p b)
  | chainEnds block dominator other => chainEnds (p block) (p dominator) (p other)
  | endlessWalk block => endlessWalk (p block)
  | stated message => stated message

/-- The same error about renamed blocks. -/
def Error.rename (p : BlockId → BlockId) : Error → Error
  | unreachable block => unreachable (p block)
  | unvisited block => unvisited (p block)
  | unknown block => unknown (p block)
  | tooDeep limit => tooDeep limit
  | invariant violation => invariant (violation.rename p)

def Edge.rename (p : BlockId → BlockId) (e : Edge) : Edge := ⟨p e.source, p e.target⟩

/-- The same event about renamed blocks. Counts do not change. -/
def Event.rename (p : BlockId → BlockId) : Event → Event
  | backEdge edge => backEdge (edge.rename p)
  | mergeEdge edge => mergeEdge (edge.rename p)
  | built entry blocks backEdges mergeEdges => built (p entry) blocks backEdges mergeEdges
  | lifted dominator entry => lifted (p dominator) (p entry)
  | failures failed total => failures failed total

/-! ## Computations -/

section

variable {α α' β β' γ γ' : Type} {R : α → α' → Prop} {S : β → β' → Prop}
  {x : Except Error α} {x' : Except Error α'}

/-- The second computation ends in a value related to that of the first, or in
the error of the first with its blocks renamed. -/
inductive EndsRenamed (p : BlockId → BlockId) (R : α → α' → Prop) :
    Except Error α → Except Error α' → Prop
  | ok {a : α} {a' : α'} : R a a' → EndsRenamed p R (.ok a) (.ok a')
  | error (e : Error) : EndsRenamed p R (.error e) (.error (e.rename p))

namespace EndsRenamed

theorem of_ok {a : α} (h : EndsRenamed p R x x') (hx : x = .ok a) : ∃ a', x' = .ok a' ∧ R a a' := by
  subst hx
  cases h with
  | ok ha => exact ⟨_, rfl, ha⟩

theorem of_error {e : Error} (h : EndsRenamed p R x x') (hx : x = .error e) :
    x' = .error (e.rename p) := by
  subst hx
  cases h with
  | error => rfl

theorem bind {f : α → Except Error β} {f' : α' → Except Error β'} (h : EndsRenamed p R x x')
    (hf : ∀ a a', R a a' → EndsRenamed p S (f a) (f' a')) :
    EndsRenamed p S (x >>= f) (x' >>= f') := by
  cases h with
  | ok ha => exact hf _ _ ha
  | error e => exact .error e

theorem map {f : α → β} {f' : α' → β'} (h : EndsRenamed p R x x')
    (hf : ∀ a a', R a a' → S (f a) (f' a')) : EndsRenamed p S (x.map f) (x'.map f') := by
  cases h with
  | ok ha => exact .ok (hf _ _ ha)
  | error e => exact .error e

theorem foldlM {m : γ → γ'} {f : α → γ → Except Error α} {f' : α' → γ' → Except Error α'}
    (step : ∀ a a' c, R a a' → EndsRenamed p R (f a c) (f' a' (m c))) (l : List γ) :
    ∀ a a', R a a' → EndsRenamed p R (l.foldlM f a) ((l.map m).foldlM f' a') := by
  induction l with
  | nil => exact fun a a' ha => .ok ha
  | cons c l ih =>
    intro a a' ha
    rw [List.map_cons, List.foldlM_cons, List.foldlM_cons]
    exact (step a a' c ha).bind ih

/-- Values related by a function leave nothing open. -/
theorem eq_map {f : α → α'} (h : EndsRenamed p (fun a a' => a' = f a) x x') :
    x' = (x.map f).mapError (Error.rename p) := by
  cases h with
  | ok ha => rw [ha]; rfl
  | error e => rfl

end EndsRenamed

/-- The results are alike, and so is all that was logged. -/
structure Logged.Renames (p : BlockId → BlockId) (R : α → α' → Prop)
    (r : Logged (Except Error α)) (r' : Logged (Except Error α')) : Prop where
  value : EndsRenamed p R r.value r'.value
  events : r'.events = r.events.map (Event.rename p)

end

theorem View.Renames.resolve {view view' : View} (h : view.Renames p view') (b : BlockId) :
    EndsRenamed p (fun block block' => block' = block.rename p) (view.resolve b)
      (view'.resolve (p b)) := by
  unfold View.resolve
  rw [h b]
  cases view b with
  | none => exact .error _
  | some block => exact .ok rfl

end FlowGraph
