import Mathlib.Data.List.Induction
import FlowGraph.Proofs.Traversal.Following
/-!
# Each exit is sorted once

An exit is kept when its target is done before its source, and dropped as a
back edge when it is not. The traversal decides that when it follows the exit,
long before the ranks are known, but the blocks it has marked will be done in an
order that no further step changes (`due_lt_due_iff`). So a step either leaves
the exits of a block alone or sorts the first that is left (`Handled`), and by
the end all of them are sorted by rank (`sorted_of_run`).
-/

namespace FlowGraph

theorem eraseDups_concat (l : List BlockId) (b : BlockId) :
    (l ++ [b]).eraseDups = addNew l.eraseDups b := by
  rw [List.eraseDups_append, addNew]
  by_cases hb : b ∈ l <;> simp [List.removeAll, List.mem_eraseDups, List.eraseDups_cons, hb]

theorem nodup_eraseDups (l : List BlockId) : l.eraseDups.Nodup := by
  induction l using List.reverseRecOn with
  | nil => simp
  | append_singleton l b ih =>
    rw [eraseDups_concat]
    exact nodup_addNew b ih

namespace Traversal

variable {src : Source} {opts : Options} {t : Traversal} {b c u v x root : BlockId}
  {l : List BlockId}

/-! ## The order in which blocks will be done -/

/-- The rank that a block has, or gets if no other block is entered before it
is done: the blocks on the path are done one by one, from the head. -/
def due (blocks : List BlockId) (t : Traversal) (b : BlockId) : Nat :=
  (t.rank? b).getD (t.order.size + 1 + blocks.idxOf b)

theorem due_of_rank {r : Nat} (h : t.rank? b = some r) : due l t b = r := by
  simp [due, h]

theorem due_of_no_rank (h : t.rank? b = none) : due l t b = t.order.size + 1 + l.idxOf b := by
  simp [due, h]

theorem due_congr {t' : Traversal} (hr : t'.rank? b = t.rank? b) (ho : t'.order = t.order) :
    due l t' b = due l t b := by
  rw [due, due, hr, ho]

theorem due_finish (hb : t.rank? b = none) : due l (t.finish b) x = due (b :: l) t x := by
  have ho : (t.finish b).order.size = t.order.size + 1 := by simp [finish]
  by_cases hx : b = x
  · subst hx
    rw [due_of_rank (by rw [rank?_finish, if_pos rfl]), due_of_no_rank hb]
    simp
  · rw [due, due, rank?_finish, if_neg hx, ho, List.idxOf_cons, beq_false_of_ne hx, cond_false]
    congr 1
    omega

/-- Entering a block puts off those on the path, all by one. -/
theorem due_enter (hm : Marking root l t) (hc : t.mark? c = none) (hb : t.mark? b ≠ none) :
    due l t b ≤ t.order.size ∧ due (c :: l) (t.enter c) b = due l t b ∨
      t.order.size < due l t b ∧ due (c :: l) (t.enter c) b = due l t b + 1 := by
  have hne : c ≠ b := by rintro rfl; exact hb hc
  have hr : (t.enter c).rank? b = t.rank? b := rank?_enter hc b
  cases h : t.rank? b with
  | some r =>
    left
    rw [due_of_rank h, due_of_rank (hr.trans h)]
    exact ⟨(hm.rank_le h).2, rfl⟩
  | none =>
    right
    have ho : (t.enter c).order = t.order := rfl
    rw [due_of_no_rank h, due_of_no_rank (hr.trans h), ho, List.idxOf_cons, beq_false_of_ne hne,
      cond_false]
    omega

/-- The head of the path is due next. -/
theorem due_head_le (hm : Marking root (c :: l) t) (hb : t.mark? b = some .onPath) :
    due (c :: l) t c ≤ due (c :: l) t b := by
  have hr := hm.rank_of_mem ((hm.onPath_iff b).1 hb)
  rw [due_of_no_rank (hm.rank_of_mem List.mem_cons_self), due_of_no_rank hr, List.idxOf_cons_self]
  omega

theorem due_head_lt (hm : Marking root (c :: l) t) (hb : b ∈ l) :
    due (c :: l) t c < due (c :: l) t b := by
  have hne : c ≠ b := by rintro rfl; exact (List.nodup_cons.1 hm.nodup).1 hb
  have hr := hm.rank_of_mem (List.mem_cons_of_mem c hb)
  rw [due_of_no_rank (hm.rank_of_mem List.mem_cons_self), due_of_no_rank hr, List.idxOf_cons_self,
    List.idxOf_cons, beq_false_of_ne hne, cond_false]
  omega

/-- A block that is done comes before those on the path. -/
theorem due_lt_head {r : Nat} (hm : Marking root (c :: l) t) (hb : t.rank? b = some r) :
    due (c :: l) t b < due (c :: l) t c := by
  rw [due_of_rank hb, due_of_no_rank (hm.rank_of_mem List.mem_cons_self)]
  have := (hm.rank_le hb).2
  omega

/-! ## Counting the edges for a merge -/

theorem count_mergeEdges_noteMerge (t : Traversal) (b : BlockId) (exit : Exit) (u v : BlockId) :
    (t.noteMerge b exit).mergeEdges.count ⟨u, v⟩ =
      t.mergeEdges.count ⟨u, v⟩ + if b = u then [exit].count (.merge v) else 0 := by
  cases exit with
  | branch c => simp [noteMerge]
  | merge c =>
    simp only [noteMerge, addMergeEdge, Array.count_push, List.count_singleton, beq_iff_eq,
      Edge.mk.injEq, Exit.merge.injEq]
    grind

namespace State

variable {s s' : State}

/-- When a block is due in a state. -/
def due (s : State) (b : BlockId) : Nat := Traversal.due s.blocks s.found b

theorem due_noteMerge (s : State) (b : BlockId) (exit : Exit) (x : BlockId) :
    (s.noteMerge b exit).due x = s.due x := by
  rw [due, due, blocks_noteMerge, found_noteMerge]
  exact due_congr (rank?_noteMerge _ _ _ _) (order_noteMerge _ _ _)

/-- Of the blocks that have a mark, none overtakes another. -/
theorem due_lt_due_iff (hm : Marking src.root s.blocks s.found) (hs : Step src opts s s')
    (hu : s.found.mark? u ≠ none) (hv : s.found.mark? v ≠ none) :
    s'.due v < s'.due u ↔ s.due v < s.due u := by
  cases hs with
  | enter hc =>
    rw [due_noteMerge, due_noteMerge]
    have hu := due_enter hm hc hu
    have hv := due_enter hm hc hv
    simp only [due, blocks, List.map_cons] at hu hv ⊢
    omega
  | back => exact Iff.rfl
  | cross =>
    rw [due_noteMerge, due_noteMerge]
    exact Iff.rfl
  | @leave b parent rest depth found =>
    have hb : found.rank? b = none := hm.rank_of_mem List.mem_cons_self
    show Traversal.due (parent.block :: rest.map Frame.block) (found.finish b) v <
      Traversal.due (parent.block :: rest.map Frame.block) (found.finish b) u ↔ _
    rw [due_finish hb, due_finish hb]
    exact Iff.rfl
  | @leaveRoot b depth found =>
    have hb : found.rank? b = none := hm.rank_of_mem List.mem_cons_self
    show Traversal.due [] (found.finish b) v < Traversal.due [] (found.finish b) u ↔ _
    rw [due_finish hb, due_finish hb]
    exact Iff.rfl

/-! ## What a step does to the exits of a block -/

/-- The exits of a block that are still to follow. -/
def left : List Frame → BlockId → List Exit
  | [], _ => []
  | f :: path, u => if f.block = u then f.exits else left path u

/-- The block that was entered from `u` and is still on the path, if any. -/
def entered : List BlockId → BlockId → List BlockId
  | v :: u' :: l, u => if u' = u then [v] else entered (u' :: l) u
  | _, _ => []

theorem left_of_not_mem {path : List Frame} (h : u ∉ path.map Frame.block) : left path u = [] := by
  induction path with
  | nil => rfl
  | cons f path ih =>
    simp only [List.map_cons, List.mem_cons, not_or] at h
    rw [left, if_neg (Ne.symm h.1), ih h.2]

theorem entered_of_not_mem (h : u ∉ l.tail) : entered l u = [] := by
  induction l with
  | nil => rfl
  | cons v l ih =>
    cases l with
    | nil => rfl
    | cons w l =>
      simp only [List.tail_cons, List.mem_cons, not_or] at h
      rw [entered, if_neg (Ne.symm h.1), ih h.2]

theorem entered_head (h : (u :: l).Nodup) : entered (u :: l) u = [] :=
  entered_of_not_mem (List.nodup_cons.1 h).1

/-- The targets of the exits that were kept: those of the recorded edges, and
last the block that is being visited. -/
def reached (s : State) (u : BlockId) : List BlockId :=
  s.found.succs.neighbours u ++ entered s.blocks u

/-- What a step does to the exits of `u`: nothing, or it sorts the first one. -/
inductive Handled (s s' : State) (u : BlockId) : Prop
  | rests : (s.found.mark? u ≠ none → left s'.path u = left s.path u) →
      s'.reached u = s.reached u →
      (∀ v, s'.found.backEdges.count ⟨u, v⟩ = s.found.backEdges.count ⟨u, v⟩) →
      (∀ v, s'.found.mergeEdges.count ⟨u, v⟩ = s.found.mergeEdges.count ⟨u, v⟩) →
      Handled s s' u
  | keeps (exit : Exit) : left s.path u = exit :: left s'.path u →
      s'.found.mark? exit.target ≠ none → s'.due exit.target < s'.due u →
      s'.reached u = addNew (s.reached u) exit.target →
      (∀ v, s'.found.backEdges.count ⟨u, v⟩ = s.found.backEdges.count ⟨u, v⟩) →
      (∀ v, s'.found.mergeEdges.count ⟨u, v⟩ =
        s.found.mergeEdges.count ⟨u, v⟩ + [exit].count (.merge v)) →
      Handled s s' u
  | drops (exit : Exit) : left s.path u = exit :: left s'.path u →
      s'.found.mark? exit.target ≠ none → ¬ s'.due exit.target < s'.due u →
      s'.reached u = s.reached u →
      (∀ v, s'.found.backEdges.count ⟨u, v⟩ =
        s.found.backEdges.count ⟨u, v⟩ + [exit.target].count v) →
      (∀ v, s'.found.mergeEdges.count ⟨u, v⟩ = s.found.mergeEdges.count ⟨u, v⟩) →
      Handled s s' u

/-! ## Every step sorts an exit or leaves it -/

theorem left_pop {path : List Frame} {exit : Exit} {exits : List Exit} (h : b ≠ u) :
    left (⟨b, exit :: exits⟩ :: path) u = left (⟨b, exits⟩ :: path) u := by
  rw [left, left, if_neg h, if_neg h]

theorem reached_noteMerge (s : State) (b : BlockId) (exit : Exit) (u : BlockId) :
    (s.noteMerge b exit).reached u = s.reached u := by
  rw [reached, reached, blocks_noteMerge, found_noteMerge, succs_noteMerge]

theorem Visited.not_mem_succs (h : Visited src opts s) (hc : s.found.rank? c = none) :
    c ∉ s.found.succs.neighbours u := by
  intro hm
  obtain ⟨r, hr, -⟩ := h.recording.rank_lt u c hm
  rw [hc] at hr
  cases hr

/-- What a step does to another block's exits, when it may be noted as a merge. -/
theorem Handled.rests_noteMerge {exit : Exit} (hb : b ≠ u)
    (hl : s.found.mark? u ≠ none → left s'.path u = left s.path u)
    (hr : s'.reached u = s.reached u) (hback : s'.found.backEdges = s.found.backEdges)
    (hmerge : s'.found.mergeEdges = s.found.mergeEdges) : Handled s (s'.noteMerge b exit) u := by
  refine .rests ?_ ?_ ?_ ?_
  · rwa [path_noteMerge]
  · rwa [reached_noteMerge]
  · rw [found_noteMerge, backEdges_noteMerge, hback]
    exact fun _ => rfl
  · intro v
    rw [found_noteMerge, count_mergeEdges_noteMerge, if_neg hb, hmerge, Nat.add_zero]

/-- What a step does to an exit that it keeps, when it may be noted as a merge. -/
theorem Handled.keeps_noteMerge {exit : Exit} (hl : left s.path u = exit :: left s'.path u)
    (ht : s'.found.mark? exit.target ≠ none) (hd : s'.due exit.target < s'.due u)
    (hr : s'.reached u = addNew (s.reached u) exit.target)
    (hback : s'.found.backEdges = s.found.backEdges)
    (hmerge : s'.found.mergeEdges = s.found.mergeEdges) : Handled s (s'.noteMerge u exit) u := by
  refine .keeps exit ?_ ?_ ?_ ?_ ?_ ?_
  · rwa [path_noteMerge]
  · rwa [found_noteMerge, mark?_noteMerge]
  · rwa [due_noteMerge, due_noteMerge]
  · rwa [reached_noteMerge]
  · rw [found_noteMerge, backEdges_noteMerge, hback]
    exact fun _ => rfl
  · intro v
    rw [found_noteMerge, count_mergeEdges_noteMerge, if_pos rfl, hmerge]

section
variable {exit : Exit} {exits : List Exit} {rest : List Frame} {parent : Frame} {depth : Nat}
  {found : Traversal} {events : Array Event} {block : Block}

/-- The block that is entered is the last one reached from its parent. -/
theorem handled_enter (h : Visited src opts ⟨⟨b, exit :: exits⟩ :: rest, depth, found, events⟩)
    (hc : found.mark? exit.target = none) (u : BlockId) :
    Handled ⟨⟨b, exit :: exits⟩ :: rest, depth, found, events⟩
      (noteMerge b exit ⟨⟨exit.target, block.exits opts⟩ :: ⟨b, exits⟩ :: rest, depth + 1,
        found.enter exit.target, events⟩) u := by
  have hm := h.marking
  by_cases hb : b = u
  · subst hb
    have hne : exit.target ≠ b := by
      intro he
      rw [he, (hm.onPath_iff b).2 List.mem_cons_self] at hc
      cases hc
    refine .keeps_noteMerge ?_ ?_ ?_ ?_ rfl rfl
    · simp [left, hne]
    · simp [mark?_enter]
    · exact due_head_lt (hm.enter (by simp [blocks]) hc) List.mem_cons_self
    · have hn : exit.target ∉ found.succs.neighbours b :=
        h.not_mem_succs (rank?_eq_none_iff.2 (.inl hc))
      have he : entered (b :: rest.map Frame.block) b = [] := entered_head hm.nodup
      simp [reached, blocks, entered, he, addNew, hn, Traversal.enter]
  · refine .rests_noteMerge hb ?_ ?_ rfl rfl
    · intro hu
      have hne : exit.target ≠ u := by rintro rfl; exact hu hc
      simp [left, hne, hb]
    · simp [reached, blocks, entered, hb, Traversal.enter]

/-- A block on the path is done no sooner than the block at its head. -/
theorem handled_back (h : Visited src opts ⟨⟨b, exit :: exits⟩ :: rest, depth, found, events⟩)
    (hc : found.mark? exit.target = some .onPath) (u : BlockId) :
    Handled ⟨⟨b, exit :: exits⟩ :: rest, depth, found, events⟩
      ⟨⟨b, exits⟩ :: rest, depth, found.addBackEdge ⟨b, exit.target⟩,
        events.push (.backEdge ⟨b, exit.target⟩)⟩ u := by
  by_cases hb : b = u
  · subst hb
    refine .drops exit ?_ ?_ ?_ rfl ?_ fun _ => rfl
    · simp [left]
    · simp [hc]
    · exact Nat.not_lt.2 (due_head_le (h.marking.congr (fun _ => rfl) rfl) hc)
    · intro v
      simp [addBackEdge, Array.count_push, List.count_singleton]
  · refine .rests (fun _ => (left_pop hb).symm) rfl ?_ fun _ => rfl
    intro v
    simp [addBackEdge, hb]

/-- A block that is done was so before the block at the head of the path. -/
theorem handled_cross (h : Visited src opts ⟨⟨b, exit :: exits⟩ :: rest, depth, found, events⟩)
    {rank : Nat} (hc : found.mark? exit.target = some (.done rank)) (u : BlockId) :
    Handled ⟨⟨b, exit :: exits⟩ :: rest, depth, found, events⟩
      (noteMerge b exit ⟨⟨b, exits⟩ :: rest, depth, found.addEdge ⟨b, exit.target⟩, events⟩) u := by
  have hm := h.marking
  by_cases hb : b = u
  · subst hb
    refine .keeps_noteMerge ?_ ?_ ?_ ?_ rfl rfl
    · simp [left]
    · simp [hc]
    · exact due_lt_head (hm.congr (fun _ => rfl) rfl) (rank?_eq_some_iff.2 hc)
    · have he : entered (b :: rest.map Frame.block) b = [] := entered_head hm.nodup
      simp [reached, blocks, he, Traversal.addEdge, Adjacency.neighbours_add]
  · refine .rests_noteMerge hb (fun _ => (left_pop hb).symm) ?_ rfl rfl
    simp [reached, blocks, Traversal.addEdge, Adjacency.neighbours_add, hb]

/-- A block that is left has no exits, and stays the last one reached from its parent. -/
theorem handled_leave (h : Visited src opts ⟨⟨b, []⟩ :: parent :: rest, depth, found, events⟩)
    (u : BlockId) :
    Handled ⟨⟨b, []⟩ :: parent :: rest, depth, found, events⟩
      ⟨parent :: rest, depth - 1, (found.finish b).addEdge ⟨parent.block, b⟩, events⟩ u := by
  have hm := h.marking
  have hnd := List.nodup_cons.1 hm.nodup
  have hleft : left (parent :: rest) u = left (⟨b, []⟩ :: parent :: rest) u := by
    by_cases hb : b = u
    · subst hb
      rw [left_of_not_mem hnd.1]
      simp [left]
    · rw [left, left, left, if_neg hb]
  refine .rests (fun _ => hleft) ?_ (fun _ => rfl) (fun _ => rfl)
  by_cases hp : parent.block = u
  · subst hp
    -- the edge to `b` is recorded where `b` stood as the block entered
    have hn : b ∉ found.succs.neighbours parent.block :=
      h.not_mem_succs (hm.rank_of_mem List.mem_cons_self)
    have he : entered (parent.block :: rest.map Frame.block) parent.block = [] :=
      entered_head hnd.2
    simp [reached, blocks, entered, he, Traversal.addEdge, Adjacency.neighbours_add, addNew, hn,
      Traversal.finish]
  · simp [reached, blocks, entered, Traversal.addEdge, Adjacency.neighbours_add, hp,
      Traversal.finish]

theorem handled_leaveRoot (u : BlockId) :
    Handled ⟨[⟨b, []⟩], depth, found, events⟩ ⟨[], depth - 1, found.finish b, events⟩ u := by
  refine .rests ?_ ?_ (fun _ => rfl) (fun _ => rfl)
  · simp [left]
  · simp [reached, blocks, entered, Traversal.finish]

end

theorem handled_of_step (h : Visited src opts s) (hs : Step src opts s s') (u : BlockId) :
    Handled s s' u := by
  cases hs with
  | enter hc => exact handled_enter h hc u
  | back hc => exact handled_back h hc u
  | cross hc => exact handled_cross h hc u
  | leave => exact handled_leave h u
  | leaveRoot => exact handled_leaveRoot u

/-! ## The exits sorted so far -/

/-- The target of an exit of `u` is due before `u`. -/
def keeps (s : State) (u : BlockId) (exit : Exit) : Bool := s.due exit.target < s.due u

/-- What became of the exits of `u` that were followed: the targets that are
due before `u` were kept, once each, and the others were dropped. -/
structure Sorts (s : State) (u : BlockId) (past : List Exit) : Prop where
  marked : ∀ e ∈ past, s.found.mark? e.target ≠ none
  reached : s.reached u = ((past.filter (s.keeps u)).map Exit.target).eraseDups
  backEdges : ∀ v, s.found.backEdges.count ⟨u, v⟩ =
    ((past.filter (!s.keeps u ·)).map Exit.target).count v
  mergeEdges : ∀ v, s.found.mergeEdges.count ⟨u, v⟩ = (past.filter (s.keeps u)).count (.merge v)

/-- Sorted exits stay sorted, and an exit that a step handles joins them. -/
theorem Sorts.step {past : List Exit} (h : Sorts s u past) (hv : Visited src opts s)
    (hs : Step src opts s s') (hu : s.found.mark? u ≠ none) :
    ∃ new, left s.path u = new ++ left s'.path u ∧ Sorts s' u (past ++ new) := by
  have hmark : ∀ e ∈ past, s'.found.mark? e.target ≠ none :=
    fun e he => mark?_ne_none_of_step hs (h.marked e he)
  have hkeeps : ∀ e ∈ past, s.keeps u e = s'.keeps u e := by
    intro e he
    have := due_lt_due_iff hv.marking hs hu (h.marked e he)
    simp [keeps, this]
  have hkept : past.filter (s.keeps u) = past.filter (s'.keeps u) := List.filter_congr hkeeps
  have hdropped : past.filter (!s.keeps u ·) = past.filter (!s'.keeps u ·) :=
    List.filter_congr fun e he => by rw [hkeeps e he]
  have hreached := h.reached
  have hback := h.backEdges
  have hmerge := h.mergeEdges
  rw [hkept] at hreached hmerge
  rw [hdropped] at hback
  cases handled_of_step hv hs u with
  | rests hl hr hb hm =>
    refine ⟨[], (hl hu).symm, ?_⟩
    rw [List.append_nil]
    exact ⟨hmark, hr.trans hreached, fun v => (hb v).trans (hback v), fun v => (hm v).trans (hmerge v)⟩
  | keeps exit hl ht hd hr hb hm =>
    have hk : s'.keeps u exit = true := by simpa [State.keeps] using hd
    refine ⟨[exit], hl, ?_, ?_, fun v => ?_, fun v => ?_⟩
    · simpa [or_imp, forall_and] using ⟨hmark, ht⟩
    · rw [hr, hreached, ← eraseDups_concat, List.filter_append, List.map_append]
      simp [hk]
    · rw [hb, hback, List.filter_append]
      simp [hk]
    · rw [hm, hmerge, List.filter_append, List.count_append]
      simp [hk]
  | drops exit hl ht hd hr hb hm =>
    have hk : s'.keeps u exit = false := by simpa [State.keeps] using hd
    refine ⟨[exit], hl, ?_, ?_, fun v => ?_, fun v => ?_⟩
    · simpa [or_imp, forall_and] using ⟨hmark, ht⟩
    · rw [hr, hreached, List.filter_append]
      simp [hk]
    · rw [hb, hback, List.filter_append, List.map_append, List.count_append]
      simp [hk]
    · rw [hm, hmerge, List.filter_append]
      simp [hk]

/-- The exits of a block are those that are sorted and those that are left; a
block that was not met has no edges. -/
theorem Visited.sorts (h : Visited src opts s) (u : BlockId) :
    ∃ past, Sorts s u past ∧ (s.found.mark? u = none → past = []) ∧
      ∀ block, s.found.mark? u ≠ none → src.block u = some block →
        block.exits opts = past ++ left s.path u := by
  induction h with
  | start _ hb =>
    refine ⟨[], ⟨by simp, ?_, ?_, ?_⟩, fun _ => rfl, fun block hu hb' => ?_⟩
    · simp [reached, blocks, entered, Traversal.enter]
    · simp [Traversal.enter]
    · simp [Traversal.enter]
    · rw [mark?_enter] at hu
      split at hu
      · next hr =>
        subst hr
        rw [hb] at hb'
        cases hb'
        simp [left]
      · simp [mark?] at hu
  | @step s s' hv hs ih =>
    obtain ⟨past, hp, hnil, hall⟩ := ih
    by_cases hu : s.found.mark? u = none
    · refine ⟨[], ?_, fun _ => rfl, fun block hu' hb => ?_⟩
      · have hpath : left s.path u = [] := by
          apply left_of_not_mem
          intro hmem
          rw [(hv.marking.onPath_iff u).2 hmem] at hu
          cases hu
        rw [hnil hu] at hp
        cases handled_of_step hv hs u with
        | rests _ hr hb hm =>
          exact ⟨by simp, hr.trans (by simpa using hp.reached),
            fun v => (hb v).trans (by simpa using hp.backEdges v),
            fun v => (hm v).trans (by simpa using hp.mergeEdges v)⟩
        | keeps exit hl => rw [hpath] at hl; cases hl
        | drops exit hl => rw [hpath] at hl; cases hl
      · obtain ⟨block', rest, hb', hpath⟩ := entered_of_step hv.marking hs hu hu'
        rw [hb] at hb'
        cases hb'
        simp [hpath, left]
    · obtain ⟨new, hl, hp'⟩ := hp.step hv hs hu
      refine ⟨past ++ new, hp', fun hu' => absurd hu' (mark?_ne_none_of_step hs hu), ?_⟩
      intro block _ hb
      rw [hall block hu hb, hl, List.append_assoc]

theorem nodup_preds_addEdge (h : ∀ v, (t.preds.neighbours v).Nodup) (e : Edge) :
    ∀ v, ((t.addEdge e).preds.neighbours v).Nodup := by
  intro v
  rw [addEdge, Adjacency.neighbours_add]
  split
  · exact nodup_addNew _ (h _)
  · exact h v

/-- No edge is recorded twice. -/
theorem Visited.nodup_preds (h : Visited src opts s) : ∀ v, (s.found.preds.neighbours v).Nodup := by
  induction h with
  | start => intro v; simp [Traversal.enter]
  | step _ hs ih =>
    cases hs with
    | enter => rw [found_noteMerge, preds_noteMerge]; exact ih
    | back => exact ih
    | cross => rw [found_noteMerge, preds_noteMerge]; exact nodup_preds_addEdge ih _
    | leave => exact nodup_preds_addEdge ih _
    | leaveRoot => exact ih

end State

/-! ## The result -/

/-- The exits of a block that was found, sorted by rank. -/
theorem sorted_of_run (h : (run src opts).value = .ok t) {r : Nat} (hr : t.rank? u = some r) :
    ∃ block, src.block u = some block ∧
      t.succs.neighbours u =
        (((block.exits opts).filter (due [] t ·.target < r)).map Exit.target).eraseDups ∧
      (∀ v, t.backEdges.count ⟨u, v⟩ =
        (((block.exits opts).filter (r ≤ due [] t ·.target)).map Exit.target).count v) ∧
      ∀ v, t.mergeEdges.count ⟨u, v⟩ =
        ((block.exits opts).filter (due [] t ·.target < r)).count (.merge v) := by
  obtain ⟨s, hv, hp, rfl⟩ := visited_of_run h
  have hb : s.blocks = [] := by simp [State.blocks, hp]
  have hmark : s.found.mark? u ≠ none := by simp [rank?_eq_some_iff.1 hr]
  obtain ⟨past, hs, -, hall⟩ := hv.sorts u
  obtain ⟨block, hblock⟩ := hv.resolves u hmark
  have hexits : block.exits opts = past := by
    rw [hall block hmark hblock, hp]
    exact List.append_nil past
  have hkeeps : s.keeps u = fun e => decide (due [] s.found e.target < r) := by
    funext e
    simp only [State.keeps, State.due, hb, due_of_rank hr]
  obtain ⟨-, hreached, hback, hmerge⟩ := hs
  rw [hkeeps] at hreached hback hmerge
  refine ⟨block, hblock, ?_, ?_, ?_⟩
  · simpa [State.reached, hb, State.entered, hexits] using hreached
  · simpa [hexits, ← decide_not] using hback
  · simpa [hexits] using hmerge

theorem nodup_succs_of_run (h : (run src opts).value = .ok t) {r : Nat} (hr : t.rank? u = some r) :
    (t.succs.neighbours u).Nodup := by
  obtain ⟨block, -, hsucc, -⟩ := sorted_of_run h hr
  rw [hsucc]
  exact nodup_eraseDups _

theorem nodup_preds_of_run (h : (run src opts).value = .ok t) (v : BlockId) :
    (t.preds.neighbours v).Nodup := by
  obtain ⟨s, hv, -, rfl⟩ := visited_of_run h
  exact hv.nodup_preds v

end Traversal

end FlowGraph
