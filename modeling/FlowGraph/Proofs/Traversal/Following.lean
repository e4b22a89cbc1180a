import FlowGraph.Proofs.Traversal.Recording
/-!
# Where the exits lead

A traversal follows every exit of every block that it marks, and nothing else.
`Followed` says that what it finds are exits. `Accounted` says what has become
of an exit: it remains to follow, it was taken, or it is a back edge. At the end
nothing remains, and what was taken is recorded (`accounts_of_run`).
-/

namespace FlowGraph

/-- The blocks that a block leads to, in the order a traversal follows them. -/
def Block.followed (b : Block) (opts : Options) : List BlockId :=
  b.successors ++ if opts.followMerges then b.merge.loopBlock?.toList else []

theorem Block.map_target_exits (b : Block) (opts : Options) :
    (b.exits opts).map Exit.target = b.followed opts := by
  have h (l : List BlockId) : l.map (Exit.target ∘ Exit.branch) = l := List.map_id l
  have h' (l : List BlockId) : l.map (Exit.target ∘ Exit.merge) = l := List.map_id l
  unfold exits followed
  split <;> simp [h, h']

/-- Control may branch from `u` to `v`. -/
def Source.Branches (src : Source) (u v : BlockId) : Prop :=
  ∃ block, src.block u = some block ∧ v ∈ block.successors

instance (src : Source) (u v : BlockId) : Decidable (src.Branches u v) :=
  decidable_of_iff ((src.block u).any (v ∈ ·.successors)) (by simp [Source.Branches, Option.any_eq_true])

/-- A traversal that comes to `u` follows an edge to `v`. -/
def Source.Follows (src : Source) (opts : Options) (u v : BlockId) : Prop :=
  ∃ block, src.block u = some block ∧ v ∈ block.followed opts

theorem Source.Branches.follows {src : Source} {opts : Options} {u v : BlockId}
    (h : src.Branches u v) : src.Follows opts u v := by
  obtain ⟨block, hb, hv⟩ := h
  exact ⟨block, hb, List.mem_append_left _ hv⟩

theorem Source.follows_of_mem_exits {src : Source} {opts : Options} {u : BlockId} {block : Block}
    {exit : Exit} (hb : src.block u = some block) (he : exit ∈ block.exits opts) :
    src.Follows opts u exit.target :=
  ⟨block, hb, by rw [← Block.map_target_exits]; exact List.mem_map_of_mem he⟩

namespace Traversal

variable {src : Source} {opts : Options} {t : Traversal} {b c u v x : BlockId} {l : List BlockId}

/-! ## Marks and back edges after an update -/

@[simp] theorem backEdges_noteMerge (t : Traversal) (b : BlockId) (exit : Exit) :
    (t.noteMerge b exit).backEdges = t.backEdges := by
  cases exit <;> rfl

theorem mem_addBackEdge {e e' : Edge} :
    e' ∈ (t.addBackEdge e).backEdges ↔ e' ∈ t.backEdges ∨ e' = e := Array.mem_push

theorem mem_mergeEdges_noteMerge {exit : Exit} {e : Edge} :
    e ∈ (t.noteMerge b exit).mergeEdges ↔ e ∈ t.mergeEdges ∨ e.source = b ∧ exit = .merge e.target := by
  obtain ⟨u, v⟩ := e
  cases exit with
  | branch target => simp [noteMerge]
  | merge target => simp [noteMerge, addMergeEdge, eq_comm]

theorem mark?_enter_ne_none (h : t.mark? x ≠ none) : (t.enter b).mark? x ≠ none := by
  rw [mark?_enter]
  split <;> simp [h]

theorem mark?_finish_ne_none (h : t.mark? x ≠ none) : (t.finish b).mark? x ≠ none := by
  rw [mark?_finish]
  split <;> simp [h]

/-! ## Exits that remain and edges that were taken -/

/-- An exit of `u` is still to follow. -/
def Remains (path : List Frame) (u : BlockId) (exit : Exit) : Prop :=
  ∃ f ∈ path, f.block = u ∧ exit ∈ f.exits

theorem remains_cons {exits : List Exit} {rest : List Frame} {exit : Exit} :
    Remains (⟨b, exits⟩ :: rest) u exit ↔ u = b ∧ exit ∈ exits ∨ Remains rest u exit := by
  simp [Remains, eq_comm]

/-- Following an exit takes it from those that remain. -/
theorem remains_pop {exits : List Exit} {rest : List Frame} {exit e : Exit} :
    Remains (⟨b, exit :: exits⟩ :: rest) u e ↔ u = b ∧ e = exit ∨ Remains (⟨b, exits⟩ :: rest) u e := by
  rw [remains_cons, remains_cons, List.mem_cons, and_or_left, or_assoc]

theorem not_remains_nil {exit : Exit} : ¬ Remains [] u exit := by
  simp [Remains]

/-- On the path, `v` was entered from `u`. -/
def Awaits : List BlockId → BlockId → BlockId → Prop
  | v' :: u' :: l, u, v => u = u' ∧ v = v' ∨ Awaits (u' :: l) u v
  | _, _, _ => False

/-- The traversal went from `u` to `v`, and has recorded the edge unless it is
still visiting `v`. -/
def Taken (blocks : List BlockId) (t : Traversal) (u v : BlockId) : Prop :=
  Awaits blocks u v ∨ v ∈ t.succs.neighbours u

theorem taken_nil : Taken [] t u v ↔ v ∈ t.succs.neighbours u := by
  simp [Taken, Awaits]

theorem taken_enter : Taken (c :: b :: l) (t.enter c) u v ↔ Taken (b :: l) t u v ∨ u = b ∧ v = c := by
  have hs : (t.enter c).succs = t.succs := rfl
  rw [Taken, Taken, Awaits, hs]
  grind

theorem taken_addEdge {e : Edge} :
    Taken l (t.addEdge e) u v ↔ Taken l t u v ∨ u = e.source ∧ v = e.target := by
  rw [Taken, Taken, mem_succs_addEdge, or_assoc]

/-- Leaving a block records the edge to it, so as much was taken as before. -/
theorem taken_leave : Taken (b :: l) ((t.finish c).addEdge ⟨b, c⟩) u v ↔ Taken (c :: b :: l) t u v := by
  have hs : (t.finish c).succs = t.succs := rfl
  rw [Taken, Taken, mem_succs_addEdge, Awaits, hs]
  grind

theorem taken_leaveRoot : Taken [] (t.finish b) u v ↔ Taken [b] t u v := by
  have hs : (t.finish b).succs = t.succs := rfl
  simp [Taken, Awaits, hs]

@[simp] theorem taken_noteMerge {exit : Exit} : Taken l (t.noteMerge b exit) u v ↔ Taken l t u v := by
  rw [Taken, Taken, succs_noteMerge]

namespace State

variable {s s' : State}

/-! ## Only exits are followed -/

/-- What remains, was taken or is a back edge is an exit. -/
structure Followed (src : Source) (opts : Options) (s : State) : Prop where
  remains : ∀ u exit, Remains s.path u exit → src.Follows opts u exit.target
  taken : ∀ u v, Taken s.blocks s.found u v → src.Follows opts u v
  backEdges : ∀ e ∈ s.found.backEdges, src.Follows opts e.source e.target ∧
    s.found.mark? e.source ≠ none ∧ s.found.mark? e.target ≠ none

theorem remains_of_step {exit : Exit} (hs : Step src opts s s') (hr : Remains s'.path u exit) :
    Remains s.path u exit ∨ src.Follows opts u exit.target := by
  cases hs with
  | enter _ _ hb =>
    rw [path_noteMerge] at hr
    rcases remains_cons.1 hr with ⟨rfl, he⟩ | hr
    · exact .inr (Source.follows_of_mem_exits hb he)
    · exact .inl (remains_pop.2 (.inr hr))
  | back => exact .inl (remains_pop.2 (.inr hr))
  | cross =>
    rw [path_noteMerge] at hr
    exact .inl (remains_pop.2 (.inr hr))
  | leave => exact .inl (remains_cons.2 (.inr hr))
  | leaveRoot => exact absurd hr not_remains_nil

/-- What a step takes is an exit that remained. -/
theorem taken_or_remains_of_step (hs : Step src opts s s') (ht : Taken s'.blocks s'.found u v) :
    Taken s.blocks s.found u v ∨ ∃ exit, Remains s.path u exit ∧ exit.target = v := by
  cases hs with
  | @enter _ exit =>
    rw [blocks_noteMerge, found_noteMerge, taken_noteMerge] at ht
    rcases taken_enter.1 ht with ht | ⟨rfl, rfl⟩
    · exact .inl ht
    · exact .inr ⟨exit, remains_pop.2 (.inl ⟨rfl, rfl⟩), rfl⟩
  | back => exact .inl ht
  | @cross _ exit =>
    rw [blocks_noteMerge, found_noteMerge, taken_noteMerge] at ht
    rcases taken_addEdge.1 ht with ht | ⟨rfl, rfl⟩
    · exact .inl ht
    · exact .inr ⟨exit, remains_pop.2 (.inl ⟨rfl, rfl⟩), rfl⟩
  | leave => exact .inl (taken_leave.1 ht)
  | leaveRoot => exact .inl (taken_leaveRoot.1 ht)

/-- A back edge that a step finds is an exit that remained at the last block of the
path, and leads to a block on it. -/
theorem backEdge_of_step {e : Edge} (hs : Step src opts s s') (he : e ∈ s'.found.backEdges) :
    e ∈ s.found.backEdges ∨ s.found.mark? e.target = some .onPath ∧
      ∃ exit exits rest, exit.target = e.target ∧ s.path = ⟨e.source, exit :: exits⟩ :: rest := by
  cases hs with
  | enter | cross =>
    rw [found_noteMerge, backEdges_noteMerge] at he
    exact .inl he
  | back hn =>
    rcases mem_addBackEdge.1 he with he | rfl
    · exact .inl he
    · exact .inr ⟨hn, _, _, _, rfl, rfl⟩
  | leave | leaveRoot => exact .inl he

theorem mark?_ne_none_of_step (hs : Step src opts s s') (hu : s.found.mark? u ≠ none) :
    s'.found.mark? u ≠ none := by
  cases hs with
  | enter =>
    rw [found_noteMerge, mark?_noteMerge]
    exact mark?_enter_ne_none hu
  | back => exact hu
  | cross =>
    rw [found_noteMerge, mark?_noteMerge]
    exact hu
  | leave => exact mark?_finish_ne_none hu
  | leaveRoot => exact mark?_finish_ne_none hu

theorem Visited.followed (h : Visited src opts s) : Followed src opts s := by
  induction h with
  | start _ hb =>
    refine ⟨?_, ?_, ?_⟩
    · intro u exit hr
      rcases remains_cons.1 hr with ⟨rfl, he⟩ | hr
      · exact Source.follows_of_mem_exits hb he
      · exact absurd hr not_remains_nil
    · simp [blocks, Taken, Awaits, Traversal.enter]
    · simp [Traversal.enter]
  | @step s s' hv hs ih =>
    refine ⟨?_, ?_, ?_⟩
    · intro u exit hr
      exact (remains_of_step hs hr).elim (ih.remains u exit) id
    · intro u v ht
      rcases taken_or_remains_of_step hs ht with ht | ⟨exit, hr, rfl⟩
      · exact ih.taken u v ht
      · exact ih.remains u exit hr
    · intro e he
      rcases backEdge_of_step hs he with he | ⟨hn, exit, exits, rest, ht, hp⟩
      · obtain ⟨hf, hu, hw⟩ := ih.backEdges e he
        exact ⟨hf, mark?_ne_none_of_step hs hu, mark?_ne_none_of_step hs hw⟩
      · have hr : Remains s.path e.source exit := by
          rw [hp]
          exact remains_pop.2 (.inl ⟨rfl, rfl⟩)
        have hu : s.found.mark? e.source = some .onPath :=
          (hv.marking.onPath_iff _).2 (by simp [blocks, hp])
        refine ⟨ht ▸ ih.remains _ exit hr, ?_, ?_⟩
        · exact mark?_ne_none_of_step hs (by simp [hu])
        · exact mark?_ne_none_of_step hs (by simp [hn])

/-- The edges noted for a merge were taken. -/
theorem Visited.taken_mergeEdges (h : Visited src opts s) :
    ∀ e ∈ s.found.mergeEdges, Taken s.blocks s.found e.source e.target := by
  induction h with
  | start _ _ => simp [Traversal.enter]
  | step hv hs ih =>
    cases hs with
    | enter =>
      intro e he
      rw [found_noteMerge] at he
      rw [blocks_noteMerge, found_noteMerge, taken_noteMerge]
      rcases mem_mergeEdges_noteMerge.1 he with he | ⟨hb, hx⟩
      · exact taken_enter.2 (.inl (ih e he))
      · exact taken_enter.2 (.inr ⟨hb, by rw [hx]; rfl⟩)
    | back => exact ih
    | cross =>
      intro e he
      rw [found_noteMerge] at he
      rw [blocks_noteMerge, found_noteMerge, taken_noteMerge]
      rcases mem_mergeEdges_noteMerge.1 he with he | ⟨hb, hx⟩
      · exact taken_addEdge.2 (.inl (ih e he))
      · exact taken_addEdge.2 (.inr ⟨hb, by rw [hx]; rfl⟩)
    | leave => exact fun e he => taken_leave.2 (ih e he)
    | leaveRoot => exact fun e he => taken_leaveRoot.2 (ih e he)

/-! ## Every exit is accounted for -/

/-- A step marks at most the block that it puts on the path. -/
theorem entered_of_step (hm : Marking src.root s.blocks s.found) (hs : Step src opts s s')
    (hu : s.found.mark? u = none) (hu' : s'.found.mark? u ≠ none) :
    ∃ block rest, src.block u = some block ∧ s'.path = ⟨u, block.exits opts⟩ :: rest := by
  cases hs with
  | @enter b exit exits rest _ _ _ block _ _ hb =>
    rw [found_noteMerge, mark?_noteMerge, mark?_enter] at hu'
    by_cases hx : exit.target = u
    · rw [← hx]
      exact ⟨block, _, hb, path_noteMerge _ _ _⟩
    · rw [if_neg hx] at hu'
      exact absurd hu hu'
  | back => exact absurd hu hu'
  | cross =>
    rw [found_noteMerge, mark?_noteMerge, mark?_addEdge] at hu'
    exact absurd hu hu'
  | @leave b | @leaveRoot b =>
    have hb := (hm.onPath_iff b).2 List.mem_cons_self
    by_cases hx : b = u
    · rw [← hx, hb] at hu
      cases hu
    · simp only [mark?_addEdge, mark?_finish, if_neg hx] at hu'
      exact absurd hu hu'

/-- Every block that is marked resolves. -/
theorem Visited.resolves (h : Visited src opts s) :
    ∀ b, s.found.mark? b ≠ none → ∃ block, src.block b = some block := by
  induction h with
  | start _ hb =>
    intro x hx
    rw [mark?_enter] at hx
    split at hx
    · next hr => exact ⟨_, hr ▸ hb⟩
    · simp [mark?] at hx
  | @step s s' hv hs ih =>
    intro x hx
    by_cases hn : s.found.mark? x = none
    · obtain ⟨block, -, hb, -⟩ := entered_of_step hv.marking hs hn hx
      exact ⟨block, hb⟩
    · exact ih x hn

theorem Visited.isSome_of_mem_blocks (h : Visited src opts s) (hb : b ∈ s.blocks) :
    (src.block b).isSome := by
  have hm := (h.marking.onPath_iff b).2 hb
  obtain ⟨block, hblock⟩ := h.resolves b (by simp [hm])
  simp [hblock]

theorem taken_of_step (hs : Step src opts s s') (ht : Taken s.blocks s.found u v) :
    Taken s'.blocks s'.found u v := by
  cases hs with
  | enter =>
    rw [blocks_noteMerge, found_noteMerge, taken_noteMerge]
    exact taken_enter.2 (.inl ht)
  | back => exact ht
  | cross =>
    rw [blocks_noteMerge, found_noteMerge, taken_noteMerge]
    exact taken_addEdge.2 (.inl ht)
  | leave => exact taken_leave.2 ht
  | leaveRoot => exact taken_leaveRoot.2 ht

/-- What has become of an exit of a block that is marked. -/
inductive Accounted (s : State) (u : BlockId) (exit : Exit) : Prop
  | remains : Remains s.path u exit → Accounted s u exit
  | taken : Taken s.blocks s.found u exit.target → Accounted s u exit
  | back : ⟨u, exit.target⟩ ∈ s.found.backEdges → Accounted s u exit

theorem Accounted.step {exit : Exit} (h : Accounted s u exit) (hs : Step src opts s s') :
    Accounted s' u exit := by
  cases h with
  | remains hr =>
    cases hs with
    | enter =>
      rcases remains_pop.1 hr with ⟨rfl, rfl⟩ | hr
      · refine .taken ?_
        rw [blocks_noteMerge, found_noteMerge, taken_noteMerge]
        exact taken_enter.2 (.inr ⟨rfl, rfl⟩)
      · refine .remains ?_
        rw [path_noteMerge]
        exact remains_cons.2 (.inr hr)
    | back =>
      rcases remains_pop.1 hr with ⟨rfl, rfl⟩ | hr
      · exact .back (mem_addBackEdge.2 (.inr rfl))
      · exact .remains hr
    | cross =>
      rcases remains_pop.1 hr with ⟨rfl, rfl⟩ | hr
      · refine .taken ?_
        rw [blocks_noteMerge, found_noteMerge, taken_noteMerge]
        exact taken_addEdge.2 (.inr ⟨rfl, rfl⟩)
      · refine .remains ?_
        rw [path_noteMerge]
        exact hr
    | leave | leaveRoot =>
      rcases remains_cons.1 hr with ⟨-, he⟩ | hr
      · exact absurd he List.not_mem_nil
      · exact .remains hr
  | taken ht => exact .taken (taken_of_step hs ht)
  | back hb =>
    refine .back ?_
    cases hs with
    | enter | cross =>
      rw [found_noteMerge, backEdges_noteMerge]
      exact hb
    | back => exact mem_addBackEdge.2 (.inl hb)
    | leave | leaveRoot => exact hb

theorem Visited.accounted (h : Visited src opts s) :
    ∀ u block, s.found.mark? u ≠ none → src.block u = some block →
      ∀ exit ∈ block.exits opts, Accounted s u exit := by
  induction h with
  | start _ hb =>
    intro u block hu hb' exit he
    rw [mark?_enter] at hu
    split at hu
    · next hr =>
      subst hr
      rw [hb] at hb'
      cases hb'
      exact .remains (remains_cons.2 (.inl ⟨rfl, he⟩))
    · simp [mark?] at hu
  | @step s s' hv hs ih =>
    intro u block hu hb exit he
    by_cases hn : s.found.mark? u = none
    · -- a block that was just marked has all its exits still to follow
      obtain ⟨block', rest, hb', hp⟩ := entered_of_step hv.marking hs hn hu
      rw [hb] at hb'
      cases hb'
      refine .remains ?_
      rw [hp]
      exact remains_cons.2 (.inl ⟨rfl, he⟩)
    · exact (ih u block hn hb exit he).step hs

end State

/-! ## The result -/

/-- What a traversal found accounts for the blocks of its source. -/
structure Accounts (src : Source) (opts : Options) (t : Traversal) : Prop where
  resolves : ∀ u r, t.rank? u = some r → ∃ block, src.block u = some block
  follows_iff : ∀ u v r, t.rank? u = some r →
    (src.Follows opts u v ↔ v ∈ t.succs.neighbours u ∨ ⟨u, v⟩ ∈ t.backEdges)
  rank_of_follows : ∀ u v r, t.rank? u = some r → src.Follows opts u v → ∃ q, t.rank? v = some q
  rank_of_backEdge : ∀ e ∈ t.backEdges, ∃ r, t.rank? e.source = some r
  mem_succs_of_mergeEdge : ∀ e ∈ t.mergeEdges, e.target ∈ t.succs.neighbours e.source

theorem accounts_of_run (h : (run src opts).value = .ok t) : Accounts src opts t := by
  have ho := postOrdered_of_run h
  obtain ⟨s, hv, hp, rfl⟩ := visited_of_run h
  have hb : s.blocks = [] := by simp [State.blocks, hp]
  have hm := hv.marking
  have hf := hv.followed
  rw [hb] at hm
  have hmark : ∀ u r, s.found.rank? u = some r → s.found.mark? u ≠ none := by
    intro u r hr
    rw [rank?_eq_some_iff.1 hr]
    simp
  have hiff : ∀ u v r, s.found.rank? u = some r →
      (src.Follows opts u v ↔ v ∈ s.found.succs.neighbours u ∨ ⟨u, v⟩ ∈ s.found.backEdges) := by
    intro u v r hr
    constructor
    · rintro ⟨block, hu, hvb⟩
      rw [← Block.map_target_exits] at hvb
      obtain ⟨exit, he, rfl⟩ := List.mem_map.1 hvb
      cases hv.accounted u block (hmark u r hr) hu exit he with
      | remains hr => rw [hp] at hr; exact absurd hr not_remains_nil
      | taken ht => rw [hb] at ht; exact .inl (taken_nil.1 ht)
      | back hb => exact .inr hb
    · rintro (hs | hb)
      · exact hf.taken u v (.inr hs)
      · exact (hf.backEdges _ hb).1
  refine ⟨fun u r hr => hv.resolves u (hmark u r hr), hiff, ?_, ?_, ?_⟩
  · intro u v r hr hfol
    rcases (hiff u v r hr).1 hfol with hs | hb
    · obtain ⟨q, -, hq, -⟩ := ho.rank_lt u v hs
      exact ⟨q, hq⟩
    · exact hm.exists_rank (hf.backEdges _ hb).2.2
  · exact fun e he => hm.exists_rank (hf.backEdges e he).2.1
  · intro e he
    have ht := hv.taken_mergeEdges e he
    rw [hb] at ht
    exact taken_nil.1 ht

end Traversal

end FlowGraph
