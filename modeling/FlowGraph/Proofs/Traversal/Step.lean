import FlowGraph.Traversal.Run
/-!
# The steps of a traversal

`Step` lists what a step that does not end the traversal can do, and `Visited`
the states that a traversal passes through. A fact about every visited state
needs one case for each kind of step. `exists_halt` leads from these states to
the result: every traversal comes to a state that halts with it.
-/

namespace FlowGraph.Traversal

/-- The traversal after an edge was followed for a merge, if it was. -/
def noteMerge (source : BlockId) (exit : Exit) (t : Traversal) : Traversal :=
  match exit with
  | .branch _ => t
  | .merge target => t.addMergeEdge ⟨source, target⟩

namespace State

variable {src : Source} {opts : Options} {s s' : State}

@[simp] theorem path_noteMerge (b : BlockId) (exit : Exit) (s : State) :
    (s.noteMerge b exit).path = s.path := by
  cases exit <;> rfl

@[simp] theorem found_noteMerge (b : BlockId) (exit : Exit) (s : State) :
    (s.noteMerge b exit).found = s.found.noteMerge b exit := by
  cases exit <;> rfl

/-- A step to a further state. An exit leads to a block that is entered, is on
the path, or is done; a block without exits is left. -/
inductive Step (src : Source) (opts : Options) : State → State → Prop
  | enter {b exit exits rest depth found events block} :
      found.mark? exit.target = none → depth < opts.maxDepth → src.block exit.target = some block →
      Step src opts ⟨⟨b, exit :: exits⟩ :: rest, depth, found, events⟩
        (noteMerge b exit ⟨⟨exit.target, block.exits opts⟩ :: ⟨b, exits⟩ :: rest, depth + 1,
          found.enter exit.target, events⟩)
  | back {b exit exits rest depth found events} :
      found.mark? exit.target = some .onPath →
      Step src opts ⟨⟨b, exit :: exits⟩ :: rest, depth, found, events⟩
        ⟨⟨b, exits⟩ :: rest, depth, found.addBackEdge ⟨b, exit.target⟩,
          events.push (.backEdge ⟨b, exit.target⟩)⟩
  | cross {b exit exits rest depth found events rank} :
      found.mark? exit.target = some (.done rank) →
      Step src opts ⟨⟨b, exit :: exits⟩ :: rest, depth, found, events⟩
        (noteMerge b exit ⟨⟨b, exits⟩ :: rest, depth, found.addEdge ⟨b, exit.target⟩, events⟩)
  | leave {b parent rest depth found events} :
      Step src opts ⟨⟨b, []⟩ :: parent :: rest, depth, found, events⟩
        ⟨parent :: rest, depth - 1, (found.finish b).addEdge ⟨parent.block, b⟩, events⟩
  | leaveRoot {b depth found events} :
      Step src opts ⟨[⟨b, []⟩], depth, found, events⟩ ⟨[], depth - 1, found.finish b, events⟩

theorem enter_eq_next {b : BlockId} (h : s.enter src opts b = .next s') :
    s.depth < opts.maxDepth ∧ ∃ block, src.block b = some block ∧
      s' = { s with path := ⟨b, block.exits opts⟩ :: s.path, depth := s.depth + 1,
                    found := s.found.enter b } := by
  unfold enter at h
  split at h
  · cases h
  · next hd =>
    split at h
    · cases h
    · next block hb =>
      cases h
      exact ⟨by omega, block, hb, rfl⟩

theorem step_of_eq_next (h : s.step src opts = .next s') : Step src opts s s' := by
  obtain ⟨path, depth, found, events⟩ := s
  match path with
  | [] => simp [step] at h
  | [⟨b, []⟩] =>
    simp only [step, leave, Outcome.next.injEq] at h
    subst h
    exact .leaveRoot
  | ⟨b, []⟩ :: parent :: rest =>
    simp only [step, leave, Outcome.next.injEq] at h
    subst h
    exact .leave
  | ⟨b, exit :: exits⟩ :: rest =>
    simp only [step, follow] at h
    split at h
    · next hm =>
      cases he : State.enter src opts exit.target ⟨⟨b, exits⟩ :: rest, depth, found, events⟩ with
      | halt r => simp [he, Outcome.map] at h
      | next s₁ =>
        obtain ⟨hd, block, hb, rfl⟩ := enter_eq_next he
        simp only [he, Outcome.map, Outcome.next.injEq] at h
        subst h
        exact .enter hm hd hb
    · next hm =>
      cases h
      exact .back hm
    · next rank hm =>
      cases h
      exact .cross hm

theorem step_eq_next (h : Step src opts s s') : s.step src opts = .next s' := by
  cases h with
  | enter hm hd hb => simp [step, follow, hm, State.enter, Nat.not_le.2 hd, hb, Outcome.map]
  | back hm => simp [step, follow, hm]
  | cross hm => simp [step, follow, hm]
  | leave | leaveRoot => rfl

/-! ## From the root to the result -/

theorem run_of_next (h : s.step src opts = .next s') : s.run src opts = s'.run src opts := by
  rw [run]
  split
  · next r hr => rw [h] at hr; cases hr
  · next s'' hn => rw [h] at hn; cases hn; rfl

theorem run_of_halt {r : Logged (Except Error Traversal)} (h : s.step src opts = .halt r) :
    s.run src opts = r := by
  rw [run]
  split
  · next r' hr => rw [h] at hr; cases hr; rfl
  · next s' hn => rw [h] at hn; cases hn

/-- The states that the traversal of a source passes through. -/
inductive Visited (src : Source) (opts : Options) : State → Prop
  | start {block : Block} : 0 < opts.maxDepth → src.block src.root = some block →
      Visited src opts ⟨[⟨src.root, block.exits opts⟩], 1, ({} : Traversal).enter src.root, #[]⟩
  | step {s s' : State} : Visited src opts s → Step src opts s s' → Visited src opts s'

theorem Visited.depth_eq (h : Visited src opts s) : s.depth = s.path.length := by
  induction h with
  | start => rfl
  | step _ hs ih =>
    cases hs with
    | @enter b exit => cases exit <;> simp_all [noteMerge]
    | back => exact ih
    | @cross b exit => cases exit <;> simp_all [noteMerge]
    | leave => simp_all
    | leaveRoot => simp_all

theorem Visited.exists_halt (h : Visited src opts s) :
    ∃ s', Visited src opts s' ∧ s'.step src opts = .halt (s.run src opts) := by
  -- along the recursion of `run`, which is over the order that `lt_of_step` goes down in
  induction s using State.run.induct src opts with
  | case1 s result hs =>
    refine ⟨s, h, ?_⟩
    rw [run]
    split
    · next r hr => exact hr
    · next s' hn => rw [hs] at hn; cases hn
  | case2 s s' hs ih =>
    obtain ⟨t, ht, hr⟩ := ih (h.step (step_of_eq_next hs))
    refine ⟨t, ht, ?_⟩
    rw [run]
    split
    · next r hn => rw [hs] at hn; cases hn
    · next s'' hn => rw [hs] at hn; cases hn; exact hr

/-- A traversal halts with an empty path when it succeeds. -/
theorem ok_of_step_halt {t : Traversal} {events : Array Event}
    (h : s.step src opts = .halt ⟨.ok t, events⟩) : s.path = [] ∧ s.found = t := by
  obtain ⟨path, depth, found, log⟩ := s
  match path with
  | [] =>
    simp only [step, Outcome.halt.injEq, Logged.mk.injEq, Except.ok.injEq] at h
    exact ⟨rfl, h.1⟩
  | ⟨b, []⟩ :: rest => simp [step] at h
  | ⟨b, exit :: exits⟩ :: rest =>
    simp only [step, follow, State.enter] at h
    split at h
    · split at h
      · simp [Outcome.map] at h
      · split at h <;> simp [Outcome.map] at h
    · cases h
    · cases h

end State

theorem run_of_enter_halt {src : Source} {opts : Options} {r : Logged (Except Error Traversal)}
    (h : State.enter src opts src.root {} = .halt r) : run src opts = r := by
  rw [run, h]

theorem run_of_enter_next {src : Source} {opts : Options} {s : State}
    (h : State.enter src opts src.root {} = .next s) : run src opts = s.run src opts := by
  rw [run, h]

/-- From every state that it passes through, a traversal goes on to its result. -/
theorem State.Visited.run_eq {src : Source} {opts : Options} {s : State}
    (h : State.Visited src opts s) : s.run src opts = Traversal.run src opts := by
  induction h with
  | start hd hb =>
    symm
    apply run_of_enter_next
    simp [State.enter, Nat.ne_of_gt hd, hb]
  | step _ hs ih => rw [← ih, State.run_of_next (State.step_eq_next hs)]

/-- A traversal that succeeds ends in a visited state with an empty path. -/
theorem visited_of_run {src : Source} {opts : Options} {t : Traversal}
    (h : (run src opts).value = .ok t) :
    ∃ s, State.Visited src opts s ∧ s.path = [] ∧ s.found = t := by
  unfold run at h
  split at h
  · next result he =>
    unfold State.enter at he
    split at he
    · cases he; cases h
    · split at he
      · cases he; cases h
      · cases he
  · next s he =>
    obtain ⟨hd, block, hb, rfl⟩ := State.enter_eq_next he
    obtain ⟨s', hv, hs⟩ := (State.Visited.start hd hb).exists_halt
    obtain ⟨hp, hf⟩ := State.ok_of_step_halt (t := t) (by rw [hs, ← h])
    exact ⟨s', hv, hp, hf⟩

end FlowGraph.Traversal
