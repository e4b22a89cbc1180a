import FlowGraph.Proofs.Traversal.Step
/-!
# Marks and ranks

In every visited state the blocks marked as on the path are those on the path,
each once, and the ranks count the blocks that are done in their order
(`Marking`). The root stays at the bottom of the path and so is ranked last. As
no block is ranked twice, ranks are 32-bit numbers (`Visited.rank_lt_size`).
-/

namespace FlowGraph.Traversal

/-! ## Ranks -/

theorem rank?_eq_some_iff {t : Traversal} {b : BlockId} {r : Nat} :
    t.rank? b = some r ↔ t.mark? b = some (.done r) := by
  unfold rank?
  split
  · next q h => simp [h]
  · next h =>
    constructor
    · intro hr; cases hr
    · intro hr; exact absurd hr (h r)

theorem rank?_eq_none_iff {t : Traversal} {b : BlockId} :
    t.rank? b = none ↔ t.mark? b = none ∨ t.mark? b = some .onPath := by
  unfold rank?
  split
  · next q h => simp [h]
  · next h =>
    simp only [true_iff]
    match hm : t.mark? b with
    | none => exact .inl rfl
    | some .onPath => exact .inr rfl
    | some (.done r) => exact absurd hm (h r)

theorem rank?_enter {t : Traversal} {b : BlockId} (hb : t.mark? b = none) (x : BlockId) :
    (t.enter b).rank? x = t.rank? x := by
  simp only [rank?, mark?_enter]
  by_cases hx : b = x
  · subst hx; simp [hb]
  · simp [hx]

theorem rank?_finish (t : Traversal) (b x : BlockId) :
    (t.finish b).rank? x = if b = x then some (t.order.size + 1) else t.rank? x := by
  simp only [rank?, mark?_finish]
  by_cases hx : b = x <;> simp [hx]

theorem getElem?_order_finish {t : Traversal} {b x : BlockId} {i : Nat} :
    (t.finish b).order[i]? = some x ↔ t.order[i]? = some x ∨ i = t.order.size ∧ b = x := by
  have ho : (t.finish b).order = t.order.push b := rfl
  rw [ho, Array.getElem?_push]
  split
  · next hi => simp [hi]
  · next hi => simp [hi]

@[simp] theorem rank?_addEdge (t : Traversal) (e : Edge) (x : BlockId) :
    (t.addEdge e).rank? x = t.rank? x := rfl

@[simp] theorem mark?_noteMerge (t : Traversal) (b : BlockId) (exit : Exit) (x : BlockId) :
    (t.noteMerge b exit).mark? x = t.mark? x := by
  cases exit <;> rfl

@[simp] theorem rank?_noteMerge (t : Traversal) (b : BlockId) (exit : Exit) (x : BlockId) :
    (t.noteMerge b exit).rank? x = t.rank? x := by
  cases exit <;> rfl

@[simp] theorem order_noteMerge (t : Traversal) (b : BlockId) (exit : Exit) :
    (t.noteMerge b exit).order = t.order := by
  cases exit <;> rfl

/-! ## The invariant -/

/-- How the marks and the order stand to the blocks on the path, the one
entered last first. -/
structure Marking (root : BlockId) (blocks : List BlockId) (t : Traversal) : Prop where
  onPath_iff : ∀ b, t.mark? b = some .onPath ↔ b ∈ blocks
  nodup : blocks.Nodup
  rank_iff : ∀ b r, t.rank? b = some r ↔ ∃ i, r = i + 1 ∧ t.order[i]? = some b
  bottom : blocks ≠ [] → blocks.getLast? = some root
  last : blocks = [] → t.order.back? = some root

namespace Marking

variable {root b : BlockId} {blocks : List BlockId} {t : Traversal}

theorem rank_le (h : Marking root blocks t) {r : Nat} (hr : t.rank? b = some r) :
    0 < r ∧ r ≤ t.order.size := by
  obtain ⟨i, rfl, hi⟩ := (h.rank_iff b r).1 hr
  obtain ⟨hi, -⟩ := Array.getElem?_eq_some_iff.1 hi
  omega

theorem nodup_order (h : Marking root blocks t) : t.order.toList.Nodup := by
  refine List.pairwise_iff_getElem.2 fun i j hi hj hij heq => ?_
  have hri := (h.rank_iff _ _).2 ⟨i, rfl, Array.getElem?_eq_getElem hi⟩
  have hrj := (h.rank_iff _ _).2 ⟨j, rfl, Array.getElem?_eq_getElem hj⟩
  simp only [Array.getElem_toList] at heq
  rw [heq, hrj] at hri
  have := Option.some.inj hri
  omega

/-- The blocks that are done and one that is not are different identifiers. -/
theorem rank_lt_size (h : Marking root blocks t) {r : Nat} {x : BlockId} (hr : t.rank? b = some r)
    (hx : t.rank? x = none) : r < UInt32.size := by
  have hnew : x ∉ t.order.toList := by
    intro hmem
    obtain ⟨i, hi⟩ := Array.mem_iff_getElem?.1 (Array.mem_toList_iff.1 hmem)
    rw [(h.rank_iff x (i + 1)).2 ⟨i, rfl, hi⟩] at hx
    cases hx
  have hcount := BlockId.length_le_count (List.nodup_cons.2 ⟨hnew, h.nodup_order⟩)
  rw [List.length_cons, Array.length_toList, BlockId.count] at hcount
  have := (h.rank_le hr).2
  omega

theorem rank_of_mem (h : Marking root blocks t) (hb : b ∈ blocks) : t.rank? b = none :=
  rank?_eq_none_iff.2 (.inr ((h.onPath_iff b).2 hb))

/-- Without a path, a block with a mark has a rank. -/
theorem exists_rank (h : Marking root [] t) (hb : t.mark? b ≠ none) : ∃ r, t.rank? b = some r := by
  match hm : t.mark? b with
  | none => exact absurd hm hb
  | some .onPath => exact absurd ((h.onPath_iff b).1 hm) (List.not_mem_nil)
  | some (.done r) => exact ⟨r, rank?_eq_some_iff.2 hm⟩

/-- The invariant reads marks and order only. -/
theorem congr {t' : Traversal} (h : Marking root blocks t) (hm : ∀ x, t'.mark? x = t.mark? x)
    (ho : t'.order = t.order) : Marking root blocks t' where
  onPath_iff b := by rw [hm]; exact h.onPath_iff b
  nodup := h.nodup
  rank_iff b r := by rw [rank?_eq_some_iff, hm, ← rank?_eq_some_iff, ho]; exact h.rank_iff b r
  bottom := h.bottom
  last := by rw [ho]; exact h.last

theorem start : Marking root [root] (({} : Traversal).enter root) where
  onPath_iff b := by
    rw [mark?_enter, List.mem_singleton]
    split
    · next hb => simp [hb]
    · next hb => simp [mark?, eq_comm, hb]
  nodup := by simp
  rank_iff b r := by
    rw [rank?_enter (by simp [mark?])]
    simp [rank?, mark?, enter]
  bottom _ := rfl
  last h := by cases h

theorem enter (h : Marking root blocks t) (hp : blocks ≠ []) (hb : t.mark? b = none) :
    Marking root (b :: blocks) (t.enter b) where
  onPath_iff x := by
    rw [mark?_enter, List.mem_cons]
    split
    · next hx => simp [hx]
    · next hx =>
      rw [h.onPath_iff]
      exact ⟨.inr, fun hm => hm.resolve_left (Ne.symm hx)⟩
  nodup := by
    refine List.nodup_cons.2 ⟨fun hm => ?_, h.nodup⟩
    rw [(h.onPath_iff b).2 hm] at hb
    cases hb
  rank_iff x r := by rw [rank?_enter hb]; exact h.rank_iff x r
  bottom _ := by rw [List.getLast?_cons_of_ne_nil hp]; exact h.bottom hp
  last h := by cases h

theorem finish (h : Marking root (b :: blocks) t) : Marking root blocks (t.finish b) where
  onPath_iff x := by
    have hn := (List.nodup_cons.1 h.nodup).1
    rw [mark?_finish]
    split
    · next hx =>
      subst hx
      simp [hn]
    · next hx =>
      rw [h.onPath_iff, List.mem_cons]
      exact ⟨fun hm => hm.resolve_left (Ne.symm hx), .inr⟩
  nodup := (List.nodup_cons.1 h.nodup).2
  rank_iff x r := by
    simp only [rank?_finish, getElem?_order_finish]
    by_cases hx : b = x
    · subst hx
      -- the rank of `b` is new, so no other place of the order holds `b`
      have hnew : ∀ i : Nat, t.order[i]? ≠ some b := by
        intro i hi
        have hr := (h.rank_iff b (i + 1)).2 ⟨i, rfl, hi⟩
        rw [h.rank_of_mem List.mem_cons_self] at hr
        cases hr
      simp [hnew, eq_comm]
    · simp [hx, h.rank_iff]
  bottom hp := by
    have := h.bottom (by simp)
    rwa [List.getLast?_cons_of_ne_nil hp] at this
  last hp := by
    subst hp
    have hr : some b = some root := h.bottom (by simp)
    have ho : (t.finish b).order = t.order.push b := rfl
    rw [ho, Array.back?_push, hr]

end Marking

namespace State

variable {src : Source} {opts : Options} {s : State}

/-- The blocks on the path, the one entered last first. -/
def blocks (s : State) : List BlockId := s.path.map Frame.block

@[simp] theorem blocks_noteMerge (b : BlockId) (exit : Exit) (s : State) :
    (s.noteMerge b exit).blocks = s.blocks := by
  rw [blocks, path_noteMerge, blocks]

theorem Visited.marking (h : Visited src opts s) : Marking src.root s.blocks s.found := by
  induction h with
  | start _ _ => exact .start
  | step _ hs ih =>
    cases hs with
    | enter hm =>
      rw [blocks_noteMerge, found_noteMerge]
      exact (ih.enter (by simp [blocks]) hm).congr (by simp) (by simp)
    | back => exact ih.congr (fun _ => rfl) rfl
    | cross =>
      rw [blocks_noteMerge, found_noteMerge]
      exact ih.congr (by simp) (by simp [Traversal.addEdge])
    | leave => exact ih.finish.congr (fun _ => rfl) rfl
    | leaveRoot => exact ih.finish

/-- No rank ever exceeds 32 bits, unless every identifier has been ranked. -/
theorem Visited.rank_lt_size (h : Visited src opts s) {b x : BlockId} {r : Nat}
    (hr : s.found.rank? b = some r) (hx : s.found.rank? x = none) : r < UInt32.size :=
  h.marking.rank_lt_size hr hx

end State

end FlowGraph.Traversal
