import FlowGraph.Proofs.Path
import FlowGraph.Proofs.Traversal.Following
/-!
# Why a traversal fails

A traversal fails where it would enter a block: there is no room on the path, or
the block does not resolve. The blocks on the path were entered one from the
other, so they lie on a path of followed edges from the root
(`Visited.path_blocks`), and the block that cannot be entered comes next
(`fails_of_run`).
-/

namespace FlowGraph.Traversal

variable {src : Source} {opts : Options} {b root : BlockId} {blocks l : List BlockId} {e : Error}
  {r : Logged (Except Error Traversal)}

/-- Why a traversal reports an error: it came to a block that does not resolve,
or to one more block after a path of as many as the options allow. -/
inductive Fails (src : Source) (opts : Options) : Error → Prop
  | unknown {b : BlockId} {l : List BlockId} :
      Path (src.Follows opts) src.root b l → src.block b = none → Fails src opts (.unknown b)
  | tooDeep {b : BlockId} {l : List BlockId} :
      Path (src.Follows opts) src.root b (l ++ [b]) → (l ++ [b]).Nodup → l.length = opts.maxDepth →
      (∀ x ∈ l, (src.block x).isSome) → Fails src opts (.tooDeep opts.maxDepth)

/-- The path from the root lists the blocks that are on it. -/
theorem path_awaits (h : (b :: blocks).getLast? = some root) :
    Path (Awaits (b :: blocks)) root b (b :: blocks).reverse := by
  induction blocks generalizing b with
  | nil =>
    cases h
    exact .single
  | cons c blocks ih =>
    rw [List.getLast?_cons_cons] at h
    rw [List.reverse_cons]
    exact ((ih h).mono fun _ _ h' => .inr h').snoc (.inl ⟨rfl, rfl⟩)

namespace State

variable {s : State}

theorem Visited.path_blocks (h : Visited src opts s) (hb : s.blocks = b :: blocks) :
    Path (src.Follows opts) src.root b s.blocks.reverse := by
  have hlast := h.marking.bottom (by simp [hb])
  rw [hb] at hlast ⊢
  exact (path_awaits hlast).mono fun u v huv => h.followed.taken u v (.inl (hb ▸ huv))

theorem Visited.depth_le_maxDepth (h : Visited src opts s) : s.depth ≤ opts.maxDepth := by
  induction h with
  | start hd => exact hd
  | step _ hs ih =>
    cases hs with
    | @enter b exit _ _ _ _ _ _ _ hd => cases exit <;> exact hd
    | back => exact ih
    | @cross b exit => cases exit <;> exact ih
    | leave | leaveRoot => exact Nat.le_trans (Nat.sub_le _ _) ih

/-- A block without a mark is not on the path. -/
theorem Visited.nodup_snoc (h : Visited src opts s) (hb : s.found.mark? b = none) :
    (s.blocks.reverse ++ [b]).Nodup := by
  have hm := h.marking
  have hnew : b ∉ s.blocks := by
    intro hmem
    rw [(hm.onPath_iff b).2 hmem] at hb
    cases hb
  rw [← List.reverse_cons]
  exact List.pairwise_reverse.2 ((List.nodup_cons.2 ⟨hnew, hm.nodup⟩).imp Ne.symm)

/-- `b` cannot be entered after the blocks `l`, which fill the path. -/
theorem fails_of_enter (h : s.enter src opts b = .halt r)
    (hp : Path (src.Follows opts) src.root b (l ++ [b])) (hn : (l ++ [b]).Nodup)
    (hl : l.length = s.depth) (hd : s.depth ≤ opts.maxDepth) (hres : ∀ x ∈ l, (src.block x).isSome) :
    ∃ e, r.value = .error e ∧ Fails src opts e := by
  unfold State.enter at h
  split at h
  · next hfull =>
    cases h
    exact ⟨_, rfl, .tooDeep hp hn (by omega) hres⟩
  · split at h
    · next hb =>
      cases h
      exact ⟨_, rfl, .unknown hp hb⟩
    · cases h

theorem Visited.fails_of_step (hv : Visited src opts s) (h : s.step src opts = .halt r)
    (hr : r.value = .error e) : Fails src opts e := by
  obtain ⟨path, depth, found, events⟩ := s
  match path with
  | [] =>
    cases h
    cases hr
  | ⟨b, []⟩ :: rest => cases h
  | ⟨b, exit :: exits⟩ :: rest =>
    simp only [State.step, follow] at h
    split at h
    · next hn =>
      cases he : State.enter src opts exit.target ⟨⟨b, exits⟩ :: rest, depth, found, events⟩ with
      | next s' => simp [he, Outcome.map] at h
      | halt r' =>
        simp only [he, Outcome.map, Outcome.halt.injEq] at h
        subst h
        have hfollows : src.Follows opts b exit.target :=
          hv.followed.remains b exit (remains_pop.2 (.inl ⟨rfl, rfl⟩))
        have hpath := (hv.path_blocks rfl).snoc hfollows
        obtain ⟨e', he', hf⟩ := fails_of_enter he hpath (hv.nodup_snoc hn)
          (by simpa [State.blocks] using hv.depth_eq.symm) hv.depth_le_maxDepth
          fun x hx => hv.isSome_of_mem_blocks (List.mem_reverse.1 hx)
        rw [hr] at he'
        cases he'
        exact hf
    · cases h
    · cases h

end State

theorem fails_of_run (h : (run src opts).value = .error e) : Fails src opts e := by
  cases hs : State.enter src opts src.root {} with
  | halt r =>
    rw [run_of_enter_halt hs] at h
    obtain ⟨e', he', hf⟩ := State.fails_of_enter (l := []) hs .single (by simp) rfl (Nat.zero_le _)
      (by simp)
    rw [h] at he'
    cases he'
    exact hf
  | next s =>
    rw [run_of_enter_next hs] at h
    obtain ⟨hd, block, hb, rfl⟩ := State.enter_eq_next hs
    obtain ⟨s', hv, hs'⟩ := (State.Visited.start hd hb).exists_halt
    exact hv.fails_of_step hs' h

end FlowGraph.Traversal
