import FlowGraph.Proofs.Traversal.Marking
/-!
# Recorded edges

An edge is recorded when its target is done and its source still on the path.
So the target of a recorded edge has the smaller rank, and the recorded edges
close no cycle (`Recording`). Every block but the root is entered from another
one, and the edge that led to it is recorded (`Visited.preds_ne_nil`).
-/

namespace FlowGraph.Traversal

/-! ## Neighbours after an update -/

theorem mem_succs_addEdge {t : Traversal} {e : Edge} {u v : BlockId} :
    v ∈ (t.addEdge e).succs.neighbours u ↔
      v ∈ t.succs.neighbours u ∨ u = e.source ∧ v = e.target := by
  simp only [addEdge, Adjacency.neighbours_add]
  split
  · next h => subst h; simp [mem_addNew]
  · next h => simp [Ne.symm h]

theorem mem_preds_addEdge {t : Traversal} {e : Edge} {u v : BlockId} :
    u ∈ (t.addEdge e).preds.neighbours v ↔
      u ∈ t.preds.neighbours v ∨ u = e.source ∧ v = e.target := by
  simp only [addEdge, Adjacency.neighbours_add]
  split
  · next h => subst h; simp [mem_addNew]
  · next h => simp [Ne.symm h]

@[simp] theorem succs_noteMerge (t : Traversal) (b : BlockId) (exit : Exit) :
    (t.noteMerge b exit).succs = t.succs := by
  cases exit <;> rfl

@[simp] theorem preds_noteMerge (t : Traversal) (b : BlockId) (exit : Exit) :
    (t.noteMerge b exit).preds = t.preds := by
  cases exit <;> rfl

/-! ## The invariant -/

/-- How the recorded edges stand to the ranks. -/
structure Recording (t : Traversal) : Prop where
  mem_preds_iff : ∀ u v, u ∈ t.preds.neighbours v ↔ v ∈ t.succs.neighbours u
  rank_lt : ∀ u v, v ∈ t.succs.neighbours u → ∃ r, t.rank? v = some r ∧
    (t.mark? u = some .onPath ∨ ∃ q, t.rank? u = some q ∧ r < q)

namespace Recording

variable {root b : BlockId} {blocks : List BlockId} {t t' : Traversal} {e : Edge}

theorem congr (h : Recording t) (hm : ∀ x, t'.mark? x = t.mark? x) (hp : t'.preds = t.preds)
    (hs : t'.succs = t.succs) : Recording t' where
  mem_preds_iff u v := by rw [hp, hs]; exact h.mem_preds_iff u v
  rank_lt u v hv := by
    rw [hs] at hv
    simp only [rank?_eq_some_iff, hm]
    simpa only [rank?_eq_some_iff] using h.rank_lt u v hv

theorem enter (h : Recording t) (hb : t.mark? b = none) : Recording (t.enter b) where
  mem_preds_iff := h.mem_preds_iff
  rank_lt u v hv := by
    obtain ⟨r, hr, hu⟩ := h.rank_lt u v hv
    refine ⟨r, by rw [rank?_enter hb]; exact hr, ?_⟩
    rw [rank?_enter hb, mark?_enter]
    rcases hu with hu | hu
    · left; split <;> simp [hu]
    · exact .inr hu

theorem addEdge {r : Nat} (h : Recording t) (hs : t.mark? e.source = some .onPath)
    (ht : t.rank? e.target = some r) : Recording (t.addEdge e) where
  mem_preds_iff u v := by
    rw [mem_succs_addEdge, mem_preds_addEdge, h.mem_preds_iff]
  rank_lt u v hv := by
    rcases mem_succs_addEdge.1 hv with hv | ⟨rfl, rfl⟩
    · exact h.rank_lt u v hv
    · exact ⟨r, ht, .inl hs⟩

theorem finish (h : Recording t) (hm : Marking root (b :: blocks) t) : Recording (t.finish b) where
  mem_preds_iff := h.mem_preds_iff
  rank_lt u v hv := by
    have hb := hm.rank_of_mem (b := b) (by simp)
    obtain ⟨r, hr, hu⟩ := h.rank_lt u v hv
    have hbv : b ≠ v := by rintro rfl; rw [hb] at hr; cases hr
    refine ⟨r, by rw [rank?_finish, if_neg hbv]; exact hr, ?_⟩
    rw [rank?_finish, mark?_finish]
    by_cases hbu : b = u
    · -- every rank given so far is below the new one
      rw [if_pos hbu, if_pos hbu]
      exact .inr ⟨_, rfl, Nat.lt_succ_of_le (hm.rank_le hr).2⟩
    · rw [if_neg hbu, if_neg hbu]
      exact hu

end Recording

namespace State

variable {src : Source} {opts : Options} {s : State}

theorem Visited.recording (h : Visited src opts s) : Recording s.found := by
  induction h with
  | start _ _ =>
    refine ⟨fun u v => ?_, fun u v hv => ?_⟩
    · simp [Traversal.enter]
    · simp [Traversal.enter] at hv
  | step hv hs ih =>
    have hm := hv.marking
    cases hs with
    | enter hn =>
      rw [found_noteMerge]
      exact (ih.enter hn).congr (by simp) (by simp) (by simp)
    | back => exact ih.congr (fun _ => rfl) rfl rfl
    | @cross b exit _ _ _ _ _ _ hd =>
      rw [found_noteMerge]
      have hb := (hm.onPath_iff b).2 List.mem_cons_self
      have hr := ih.addEdge (e := ⟨b, exit.target⟩) hb (rank?_eq_some_iff.2 hd)
      exact hr.congr (by simp) (by simp) (by simp)
    | leave =>
      have hp := (hm.finish.onPath_iff _).2 List.mem_cons_self
      exact (ih.finish hm).addEdge hp (by rw [rank?_finish, if_pos rfl])
    | leaveRoot => exact ih.finish hm

/-- A block that is done has a recorded predecessor, unless it is the root. -/
theorem Visited.preds_ne_nil (h : Visited src opts s) :
    ∀ b r, s.found.rank? b = some r → b ≠ src.root → s.found.preds.neighbours b ≠ [] := by
  induction h with
  | start _ _ =>
    intro b r hr
    rw [rank?_enter (by simp [mark?])] at hr
    simp [rank?, mark?] at hr
  | step hv hs ih =>
    have hm := hv.marking
    cases hs with
    | enter hn =>
      intro x r hr
      rw [found_noteMerge, rank?_noteMerge, rank?_enter hn] at hr
      rw [found_noteMerge, preds_noteMerge]
      exact ih x r hr
    | back => exact ih
    | cross =>
      intro x r hr hx
      rw [found_noteMerge, rank?_noteMerge, rank?_addEdge] at hr
      rw [found_noteMerge, preds_noteMerge]
      obtain ⟨p, hp⟩ := List.exists_mem_of_ne_nil _ (ih x r hr hx)
      exact List.ne_nil_of_mem (mem_preds_addEdge.2 (.inl hp))
    | @leave b parent =>
      intro x r hr hx
      rw [rank?_addEdge, rank?_finish] at hr
      by_cases hb : b = x
      · -- the edge that led to `b` is recorded now
        subst hb
        exact List.ne_nil_of_mem (mem_preds_addEdge.2 (.inr ⟨rfl, rfl⟩))
      · rw [if_neg hb] at hr
        obtain ⟨p, hp⟩ := List.exists_mem_of_ne_nil _ (ih x r hr hx)
        exact List.ne_nil_of_mem (mem_preds_addEdge.2 (.inl hp))
    | @leaveRoot b =>
      intro x r hr hx
      have hb : b = src.root := Option.some.inj (hm.bottom (by simp [blocks]))
      rw [rank?_finish, if_neg (by rw [hb]; exact Ne.symm hx)] at hr
      exact ih x r hr hx

end State

/-! ## The result -/

/-- A post-order from `root`: the blocks found are numbered in the order they
were done, and each recorded edge leads to a smaller number. -/
structure PostOrdered (root : BlockId) (t : Traversal) : Prop where
  rank_iff : ∀ b r, t.rank? b = some r ↔ ∃ i, r = i + 1 ∧ t.order[i]? = some b
  root_last : t.order.back? = some root
  mem_preds_iff : ∀ u v, u ∈ t.preds.neighbours v ↔ v ∈ t.succs.neighbours u
  rank_lt : ∀ u v, v ∈ t.succs.neighbours u →
    ∃ r q, t.rank? v = some r ∧ t.rank? u = some q ∧ r < q
  preds_ne_nil : ∀ b r, t.rank? b = some r → b ≠ root → t.preds.neighbours b ≠ []

theorem postOrdered_of_run {src : Source} {opts : Options} {t : Traversal}
    (h : (run src opts).value = .ok t) : PostOrdered src.root t := by
  obtain ⟨s, hv, hp, rfl⟩ := visited_of_run h
  have hm := hv.marking
  have hr := hv.recording
  have hb : s.blocks = [] := by simp [State.blocks, hp]
  refine ⟨hm.rank_iff, hm.last hb, hr.mem_preds_iff, fun u v huv => ?_, hv.preds_ne_nil⟩
  obtain ⟨r, hvr, hu | ⟨q, huq, hlt⟩⟩ := hr.rank_lt u v huv
  · rw [hm.onPath_iff, hb] at hu
    exact absurd hu List.not_mem_nil
  · exact ⟨r, q, hvr, huq, hlt⟩

end FlowGraph.Traversal
