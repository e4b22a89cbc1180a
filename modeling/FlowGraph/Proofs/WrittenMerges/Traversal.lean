import FlowGraph.Proofs.Traversal.Step
/-!
# Merges written out as branches

A traversal that follows merges treats the merge block of a loop as one more
branch target of the header, apart from noting the edge. `WritesMerges` relates a
source to one where the merge blocks are branch targets, and `plain` drops from a
state what was noted of merges. A step of the one traversal and the plain step of
the other are the same (`State.step_plain`), and so are the whole traversals
(`run_plain`), with their failures and their logs.
-/

namespace FlowGraph

/-! ## Blocks -/

/-- Where the first block heads a loop, the second branches to the successors of
the first and then to the merge block, on whatever values. Otherwise they are the
same. -/
inductive Block.WritesMerge : Block → Block → Prop
  | loop {b : Block} {m : BlockId} (cases : List Case) : b.merge = .loop m →
      cases.map Case.target = b.successors ++ [m] →
      WritesMerge b { b with terminator := .multiSelect cases none }
  | kept {b : Block} : b.merge.isLoop = false → WritesMerge b b

/-- The second source is the first with its merges written out. -/
structure Source.WritesMerges (src src' : Source) : Prop where
  entry : src'.entry = src.entry
  root : src'.root = src.root
  block : ∀ b, Option.Rel Block.WritesMerge (src.block b) (src'.block b)

/-- The exit as a branch. -/
def Exit.plain (exit : Exit) : Exit := .branch exit.target

theorem Block.WritesMerge.exits {b b' : Block} (h : b.WritesMerge b') (opts : Options) :
    b'.exits { opts with followMerges := false } =
      (b.exits { opts with followMerges := true }).map Exit.plain := by
  have hbranches : ∀ l : List BlockId, (l.map Exit.branch).map Exit.plain = l.map Exit.branch := by
    intro l
    rw [List.map_map]
    rfl
  unfold Block.exits
  rw [List.map_append, hbranches]
  cases h with
  | loop cases hm hcases =>
    simp [successors, Terminator.targets, hm, hcases, Merge.loopBlock?, Exit.plain, Exit.target]
  | kept hm =>
    have hnone : b.merge.loopBlock? = none := by
      cases hmerge : b.merge with
      | loop m => rw [hmerge] at hm; cases hm
      | none | selection => rfl
    simp [hnone]

/-- The block with its merge, if it has that of a loop, as its last branch target. -/
def Block.writeMerge (b : Block) : Block :=
  match b.merge with
  | .loop m => (branchTable (b.successors ++ [m]) none).withMerge b.merge
  | _ => b

theorem Block.successors_branchTable (targets : List BlockId) :
    (branchTable targets none).successors = targets := by
  have htargets : (targets.mapIdx fun i target => Case.mk (UInt64.ofNat i) target).map Case.target =
      targets := List.ext_getElem (by simp) fun i _ _ => by simp
  simp only [branchTable, successors, Terminator.targets, htargets, Option.toList_none, List.append_nil]

theorem Block.writesMerge_writeMerge (b : Block) : b.WritesMerge b.writeMerge := by
  unfold writeMerge
  cases hm : b.merge with
  | loop m =>
    have htargets := Block.successors_branchTable (b.successors ++ [m])
    simp only [branchTable, successors, Terminator.targets, Option.toList_none, List.append_nil] at htargets
    have hcase := Block.WritesMerge.loop _ hm htargets
    rw [hm] at hcase
    exact hcase
  | none | selection => exact .kept (by rw [hm]; rfl)

/-- The body with every loop merge written out as a branch. -/
def Body.writeMerges (body : Body) : Body :=
  { body with blocks := body.blocks.map fun _ block => block.writeMerge }

theorem Body.writesMerges_writeMerges (body : Body) :
    body.source.WritesMerges body.writeMerges.source := by
  refine ⟨rfl, rfl, fun b => ?_⟩
  simp only [source, get?, writeMerges, Std.TreeMap.getElem?_map]
  cases body.blocks[b]? with
  | none => exact .none
  | some block => exact .some block.writesMerge_writeMerge

/-! ## What was noted of merges -/

/-- The event, if it is not about an edge to a merge block, and without their number. -/
def Event.plain : Event → Option Event
  | mergeEdge _ => none
  | built entry blocks backEdges _ => some (built entry blocks backEdges 0)
  | e => some e

/-- The result, and of the log what a run without merges has as well. -/
def Logged.plain {α : Type} (f : α → α) (r : Logged (Except Error α)) : Logged (Except Error α) where
  value := r.value.map f
  events := r.events.filterMap Event.plain

theorem filterMap_plain_push (events : Array Event) (e : Event) :
    (events.push e).filterMap Event.plain =
      match e.plain with
      | none => events.filterMap Event.plain
      | some e' => (events.filterMap Event.plain).push e' := by
  rw [Array.filterMap_push (Array.size_push e)]
  cases e.plain <;> rfl

namespace Traversal

/-- What was found, without the edges that were noted for a merge. -/
def plain (t : Traversal) : Traversal := { t with mergeEdges := #[] }

/-- A frame that follows its merges as branches. -/
def Frame.plain (f : Frame) : Frame := { f with exits := f.exits.map Exit.plain }

namespace State

/-- The state of the run that follows the merges as branches. -/
def plain (s : State) : State where
  path := s.path.map Frame.plain
  depth := s.depth
  found := s.found.plain
  events := s.events.filterMap Event.plain

end State

def Outcome.plain : Outcome → Outcome
  | next s => next s.plain
  | halt result => halt (result.plain Traversal.plain)

/-! ## Steps -/

namespace State

variable {src src' : Source}

/-- Noting the edge leaves no trace in the plain state. -/
theorem plain_noteMerge (b : BlockId) (exit : Exit) (s : State) :
    (s.noteMerge b exit).plain = s.plain := by
  cases exit with
  | branch target => rfl
  | merge target =>
    have hevents := filterMap_plain_push s.events (.mergeEdge ⟨b, target⟩)
    exact congrArg (State.mk (s.path.map Frame.plain) s.depth s.found.plain) hevents

theorem plain_leave (b : BlockId) (rest : List Frame) (s : State) :
    (s.leave b rest).plain = s.plain.leave b (rest.map Frame.plain) := by
  cases rest <;> rfl

section
variable (hsrc : src.WritesMerges src') (opts : Options)
include hsrc

theorem enter_plain (b : BlockId) (s : State) :
    s.plain.enter src' { opts with followMerges := false } b =
      (s.enter src { opts with followMerges := true } b).plain := by
  have hdepth : s.plain.depth = s.depth := rfl
  unfold State.enter
  simp only [hdepth]
  split
  · rfl
  · have hblock := hsrc.block b
    generalize src.block b = block, src'.block b = block' at hblock ⊢
    cases hblock with
    | none => rfl
    | some hb =>
      simp only [Outcome.plain, hb.exits]
      rfl

theorem follow_plain (b : BlockId) (exit : Exit) (s : State) :
    s.plain.follow src' { opts with followMerges := false } b exit.plain =
      (s.follow src { opts with followMerges := true } b exit).plain := by
  have htarget : exit.plain.target = exit.target := rfl
  have hmark : s.plain.found.mark? exit.target = s.found.mark? exit.target := rfl
  unfold follow
  rw [htarget, hmark]
  split
  · rw [enter_plain hsrc]
    cases s.enter src { opts with followMerges := true } exit.target with
    | halt result => rfl
    | next s₁ => exact congrArg Outcome.next (plain_noteMerge b exit s₁).symm
  · have hevents := filterMap_plain_push s.events (.backEdge ⟨b, exit.target⟩)
    simp only [Outcome.plain, plain, hevents]
    rfl
  · have hnote := plain_noteMerge b exit { s with found := s.found.addEdge ⟨b, exit.target⟩ }
    exact congrArg Outcome.next hnote.symm

/-- A step where merges are written out is the plain step where they are followed. -/
theorem step_plain (s : State) :
    s.plain.step src' { opts with followMerges := false } =
      (s.step src { opts with followMerges := true }).plain := by
  obtain ⟨path, depth, found, events⟩ := s
  match path with
  | [] => rfl
  | ⟨b, []⟩ :: rest => exact congrArg Outcome.next (plain_leave b rest _).symm
  | ⟨b, exit :: exits⟩ :: rest =>
    exact follow_plain hsrc opts b exit ⟨⟨b, exits⟩ :: rest, depth, found, events⟩

theorem run_plain (s : State) :
    s.plain.run src' { opts with followMerges := false } =
      (s.run src { opts with followMerges := true }).plain Traversal.plain := by
  induction s using State.run.induct src { opts with followMerges := true } with
  | case1 s result hs =>
    have hstep := step_plain hsrc opts s
    rw [hs] at hstep
    rw [run_of_halt hs, run_of_halt hstep]
  | case2 s s' hs ih =>
    have hstep := step_plain hsrc opts s
    rw [hs] at hstep
    rw [run_of_next hs, run_of_next hstep, ih]

end

end State

/-- The traversals end alike, except for what the one notes of merges. -/
theorem run_plain {src src' : Source} (hsrc : src.WritesMerges src') (opts : Options) :
    run src' { opts with followMerges := false } =
      (run src { opts with followMerges := true }).plain Traversal.plain := by
  have henter : State.enter src' { opts with followMerges := false } src.root {} =
      (State.enter src { opts with followMerges := true } src.root {}).plain :=
    State.enter_plain hsrc opts src.root {}
  unfold run
  rw [hsrc.root, henter]
  cases State.enter src { opts with followMerges := true } src.root {} with
  | halt result => rfl
  | next s => exact State.run_plain hsrc opts s

end Traversal

end FlowGraph
