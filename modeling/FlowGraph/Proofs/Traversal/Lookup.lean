import FlowGraph.Proofs.Traversal.Following
/-!
# What a traversal looks up

A step looks up a block only when it enters it, and sees no more of it than its
exits (`exits?`). Two sources with the same exits wherever a traversal asks lead
to the same end (`run_congr`).
-/

namespace FlowGraph

/-- What a traversal sees of a block: its exits, if the block resolves. -/
def Source.exits? (src : Source) (opts : Options) (b : BlockId) : Option (List Exit) :=
  (src.block b).map (Block.exits · opts)

namespace Traversal.State

variable {src src' : Source} {opts : Options} {s s' : State} {b : BlockId}

/-- The block that the next step looks up, if it looks one up. -/
def asks? (s : State) : Option BlockId :=
  match s.path with
  | ⟨_, exit :: _⟩ :: _ => if s.found.mark? exit.target = none then some exit.target else none
  | _ => none

theorem mark?_of_asks (h : s.asks? = some b) : s.found.mark? b = none := by
  unfold asks? at h
  split at h
  · split at h
    · next hm => exact Option.some.inj h ▸ hm
    · cases h
  · cases h

/-- A block that a step looks up is marked by it. -/
theorem mark?_of_step_of_asks (hs : Step src opts s s') (h : s.asks? = some b) :
    s'.found.mark? b ≠ none := by
  have hb := mark?_of_asks h
  cases hs with
  | enter hm =>
    simp only [asks?, if_pos hm, Option.some.injEq] at h
    subst h
    simp [mark?_enter]
  | back hm => simp [asks?, hm] at h
  | cross hm => simp [asks?, hm] at h
  | leave | leaveRoot => cases h

theorem enter_congr (h : src.exits? opts b = src'.exits? opts b) :
    s.enter src opts b = s.enter src' opts b := by
  unfold Source.exits? at h
  unfold State.enter
  split
  · rfl
  · cases hb : src.block b with
    | none =>
      rw [hb, Option.map_none, eq_comm, Option.map_eq_none_iff] at h
      rw [h]
    | some block =>
      rw [hb, Option.map_some, eq_comm, Option.map_eq_some_iff] at h
      obtain ⟨block', hb', hexits⟩ := h
      simp only [hb', hexits]

theorem step_congr (h : ∀ b, s.asks? = some b → src.exits? opts b = src'.exits? opts b) :
    s.step src opts = s.step src' opts := by
  obtain ⟨path, depth, found, events⟩ := s
  match path with
  | [] => rfl
  | ⟨b, []⟩ :: rest => rfl
  | ⟨b, exit :: exits⟩ :: rest =>
    simp only [step, follow]
    split
    · next hm => rw [enter_congr (h _ (if_pos hm))]
    · rfl
    · rfl

/-- Sources that look the same wherever a state with `P` asks lead to the same
end, if every step keeps `P`. -/
theorem run_congr {P : State → Prop} (hstep : ∀ s s', P s → Step src opts s s' → P s')
    (h : ∀ s b, P s → s.asks? = some b → src.exits? opts b = src'.exits? opts b) (hs : P s) :
    s.run src opts = s.run src' opts := by
  induction s using State.run.induct src opts with
  | case1 s result heq =>
    have heq' : s.step src opts = s.step src' opts := step_congr fun b hb => h s b hs hb
    rw [run_of_halt heq, run_of_halt (heq'.symm.trans heq)]
  | case2 s s' heq ih =>
    have heq' : s.step src opts = s.step src' opts := step_congr fun b hb => h s b hs hb
    rw [run_of_next heq, run_of_next (heq'.symm.trans heq)]
    exact ih (hstep s s' hs (step_of_eq_next heq))

/-- What a visited state asks for is an edge away from the block entered last. -/
theorem Visited.follows_of_asks (h : Visited src opts s) (hb : s.asks? = some b) :
    ∃ u blocks, s.blocks = u :: blocks ∧ src.Follows opts u b := by
  unfold asks? at hb
  split at hb
  · next u exit exits rest hp =>
    split at hb
    · cases hb
      refine ⟨u, rest.map Frame.block, by simp [State.blocks, hp], h.followed.remains u exit ?_⟩
      rw [hp]
      exact remains_pop.2 (.inl ⟨rfl, rfl⟩)
    · cases hb
  · cases hb

end Traversal.State

end FlowGraph
