import FlowGraph.Proofs.Path
import FlowGraph.Proofs.Traversal.Following
/-!
# Back edges close cycles

A block on the path has no recorded predecessor. When it is left, the first one is
the block that it was entered from, which comes before it on the path (`Parent`).
Later edges do not change that, so the path at any time can be read off the first
predecessors in the end (`Visited.head?_preds`). A back edge leads from the last
block of a path to one that is on it (`exists_of_backEdge`), and closes a cycle
with the edges of the path, which are recorded in the end (`path_of_backEdge`).
-/

namespace FlowGraph

theorem head?_addNew {l : List BlockId} {a : BlockId} (b : BlockId) (h : l.head? = some a) :
    (addNew l b).head? = some a := by
  unfold addNew
  split
  · exact h
  · rw [List.head?_append, h, Option.some_or]

namespace Traversal

variable {src : Source} {opts : Options} {t : Traversal} {b c u v : BlockId} {blocks l : List BlockId}

theorem path_of_mem (hv : v ∈ b :: blocks) : ∃ l, Path (Awaits (b :: blocks)) v b l := by
  induction blocks generalizing b with
  | nil =>
    rw [List.mem_singleton.1 hv]
    exact ⟨_, .single⟩
  | cons c blocks ih =>
    rcases List.mem_cons.1 hv with rfl | hv
    · exact ⟨_, .single⟩
    · obtain ⟨l, hl⟩ := ih hv
      exact ⟨_, (hl.mono fun _ _ h => .inr h).snoc (.inl ⟨rfl, rfl⟩)⟩

/-! ## Parents -/

/-- The traversal entered `v` from `u`: `v` comes after `u` on the path, or the
edge between them is the first that was recorded into `v`. -/
def Parent (blocks : List BlockId) (t : Traversal) (u v : BlockId) : Prop :=
  Awaits blocks u v ∨ (t.preds.neighbours v).head? = some u

theorem parent_nil : Parent [] t u v ↔ (t.preds.neighbours v).head? = some u := by
  simp [Parent, Awaits]

theorem parent_enter (h : Parent (b :: l) t u v) : Parent (c :: b :: l) (t.enter c) u v :=
  h.imp_left .inr

/-- An edge that is recorded later does not come first. -/
theorem parent_addEdge (h : Parent l t u v) (e : Edge) : Parent l (t.addEdge e) u v := by
  refine h.imp_right fun h => ?_
  rw [addEdge, Adjacency.neighbours_add]
  split
  · next hv => exact head?_addNew _ (hv ▸ h)
  · exact h

theorem parent_leave (hc : t.preds.neighbours c = []) (h : Parent (c :: b :: l) t u v) :
    Parent (b :: l) ((t.finish c).addEdge ⟨b, c⟩) u v := by
  have hp : (t.finish c).preds = t.preds := rfl
  rcases h with (⟨rfl, rfl⟩ | h) | h
  · refine .inr ?_
    rw [addEdge, Adjacency.neighbours_add, if_pos rfl, hp, hc]
    rfl
  · exact parent_addEdge (.inl h) _
  · exact parent_addEdge (.inr h) _

theorem parent_leaveRoot (h : Parent [b] t u v) : Parent [] (t.finish b) u v := by
  rcases h with h | h
  · exact h.elim
  · exact .inr h

namespace State

variable {s s' : State} {e : Edge}

theorem Visited.preds_eq_nil (h : Visited src opts s) (hb : b ∈ s.blocks) :
    s.found.preds.neighbours b = [] := by
  refine List.eq_nil_iff_forall_not_mem.2 fun u hu => ?_
  -- only blocks that are done have recorded predecessors
  obtain ⟨r, hr, -⟩ := h.recording.rank_lt u b ((h.recording.mem_preds_iff u b).1 hu)
  rw [h.marking.rank_of_mem hb] at hr
  cases hr

theorem Visited.parent_of_step (h : Visited src opts s) (hs : Step src opts s s')
    (hp : Parent s.blocks s.found u v) : Parent s'.blocks s'.found u v := by
  cases hs with
  | enter =>
    rw [blocks_noteMerge, found_noteMerge, Parent, preds_noteMerge]
    exact parent_enter hp
  | back => exact hp
  | cross =>
    rw [blocks_noteMerge, found_noteMerge, Parent, preds_noteMerge]
    exact parent_addEdge hp _
  | leave => exact parent_leave (h.preds_eq_nil List.mem_cons_self) hp
  | leaveRoot => exact parent_leaveRoot hp

theorem Visited.parent_of_run (h : Visited src opts s) (hr : (s.run src opts).value = .ok t)
    (hp : Parent s.blocks s.found u v) : (t.preds.neighbours v).head? = some u := by
  -- along the recursion of `run`: each step keeps the parents, and in the end the path is empty
  induction s using State.run.induct src opts with
  | case1 s result hs =>
    rw [run_of_halt hs] at hr
    obtain ⟨value, events⟩ := result
    cases hr
    obtain ⟨hpath, rfl⟩ := ok_of_step_halt hs
    rw [blocks, hpath] at hp
    exact parent_nil.1 hp
  | case2 s s' hs ih =>
    have hstep := step_of_eq_next hs
    rw [run_of_next hs] at hr
    exact ih (h.step hstep) hr (h.parent_of_step hstep hp)

/-- A block on the path was entered from the one before, which is its first recorded
predecessor in the end. -/
theorem Visited.head?_preds (h : Visited src opts s) (ht : (Traversal.run src opts).value = .ok t)
    (ha : Awaits s.blocks u v) : (t.preds.neighbours v).head? = some u :=
  h.parent_of_run (by rw [h.run_eq, ht]) (.inl ha)

/-! ## Cycles -/

theorem Visited.exists_of_backEdge (h : Visited src opts s) (he : e ∈ s.found.backEdges) :
    ∃ s', Visited src opts s' ∧ ∃ rest, s'.blocks = e.source :: rest ∧ e.target ∈ s'.blocks := by
  induction h with
  | start => simp [Traversal.enter] at he
  | step hv hs ih =>
    rcases backEdge_of_step hs he with he | ⟨hn, exit, exits, rest, -, hp⟩
    · exact ih he
    · exact ⟨_, hv, rest.map Frame.block, by simp [blocks, hp], (hv.marking.onPath_iff _).1 hn⟩

end State

/-- A back edge was found at the last block of a path, and leads to one on it. -/
theorem exists_of_backEdge (h : (run src opts).value = .ok t) {e : Edge} (he : e ∈ t.backEdges) :
    ∃ s, State.Visited src opts s ∧ ∃ rest, s.blocks = e.source :: rest ∧ e.target ∈ s.blocks := by
  obtain ⟨s, hv, -, rfl⟩ := visited_of_run h
  exact hv.exists_of_backEdge he

/-- Recorded edges lead from the target of a back edge to its source. -/
theorem path_of_backEdge (h : (run src opts).value = .ok t) :
    ∀ e ∈ t.backEdges, ∃ l, Path (fun u v => v ∈ t.succs.neighbours u) e.target e.source l := by
  have ho := postOrdered_of_run h
  intro e he
  obtain ⟨s, hv, rest, hb, ht⟩ := exists_of_backEdge h he
  rw [hb] at ht
  obtain ⟨l, hl⟩ := path_of_mem ht
  refine ⟨l, hl.mono fun u v huv => (ho.mem_preds_iff u v).1 ?_⟩
  exact List.mem_of_mem_head? (hv.head?_preds h (hb ▸ huv))

end Traversal

end FlowGraph
