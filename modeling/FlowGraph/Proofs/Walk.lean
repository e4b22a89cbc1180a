import FlowGraph.Graph.Walk
import FlowGraph.Proofs.Dominance
/-!
# What a walk visits

A walk with its stack visits blocks in the order of a recursion: a block before
those it leads to, and each of these with all it leads to before the next
(`Walk.preorder`). It visits exactly the blocks that are open to it
(`Graph.Opens`): along recorded edges, around the blocks seen before, and on
from no block where the visitor stops. What was put on the stack before a block
was seen another way does no harm, since blocks are checked when they are taken
off it (`Walk.exists_visits`).
-/

namespace FlowGraph

variable {g : Graph} {goesOn : BlockId → Bool} {seen : Std.TreeSet BlockId} {a b c x y : BlockId}

namespace Walk

variable {w w' : Walk} {stack : List BlockId}

/-! ## The recursion -/

@[simp] theorem mem_seen_visit : x ∈ (w.visit b).seen ↔ x = b ∨ x ∈ w.seen := by
  rw [visit, Std.TreeSet.mem_insert, BlockId.compare_eq_iff, eq_comm]

theorem size_seen_le_visit (w : Walk) (b : BlockId) : w.seen.size ≤ (w.visit b).seen.size := by
  simp only [visit, Std.TreeSet.size_insert]
  split <;> omega

/-- A walk that has seen at least `n` blocks. -/
abbrev Seen (n : Nat) : Type := { w : Walk // n ≤ w.seen.size }

mutual

/-- `preorder` with a count of the blocks seen, which shows that the recursion ends. -/
def preorderSeen (g : Graph) (goesOn : BlockId → Bool) (b : BlockId) (w : Walk) : Seen w.seen.size :=
  match _ : w.seen.contains b with
  | true => ⟨w, Nat.le_refl _⟩
  | false =>
    if goesOn b then
      let ⟨w', h⟩ := preorderAllSeen g goesOn (g.succs b) (w.visit b)
      ⟨w', Nat.le_trans (w.size_seen_le_visit b) h⟩
    else
      ⟨w.visit b, w.size_seen_le_visit b⟩
termination_by (BlockId.count - w.seen.size, 0)
decreasing_by left; exact size_seen_visit ‹_›

/-- Visits several blocks and what each leads to, one after the other. -/
def preorderAllSeen (g : Graph) (goesOn : BlockId → Bool) (bs : List BlockId) (w : Walk) :
    Seen w.seen.size :=
  match bs with
  | [] => ⟨w, Nat.le_refl _⟩
  | b :: bs =>
    let ⟨w', h⟩ := preorderSeen g goesOn b w
    let ⟨w'', h'⟩ := preorderAllSeen g goesOn bs w'
    ⟨w'', Nat.le_trans h h'⟩
termination_by (BlockId.count - w.seen.size, bs.length + 1)
decreasing_by
  · right; omega
  · rw [Prod.lex_def]
    simp only [List.length_cons]
    omega

end

/-- Visits `b` and, if the visitor goes on, each successor in turn with all that
it leads to. A block that was seen is left out. -/
def preorder (g : Graph) (goesOn : BlockId → Bool) (b : BlockId) (w : Walk) : Walk :=
  (preorderSeen g goesOn b w).val

/-- Visits blocks in turn, each with all that it leads to. -/
def preorderAll (g : Graph) (goesOn : BlockId → Bool) (bs : List BlockId) (w : Walk) : Walk :=
  (preorderAllSeen g goesOn bs w).val

theorem preorder_of_seen (h : w.seen.contains b = true) : preorder g goesOn b w = w := by
  rw [preorder, preorderSeen]
  split
  · rfl
  · next hn => rw [h] at hn; cases hn

theorem preorder_of_unseen (h : w.seen.contains b = false) :
    preorder g goesOn b w =
      if goesOn b then preorderAll g goesOn (g.succs b) (w.visit b) else w.visit b := by
  rw [preorder, preorderSeen, preorderAll]
  split
  · next hn => rw [h] at hn; cases hn
  · by_cases hgo : goesOn b
    · rw [if_pos hgo, if_pos hgo]
    · rw [if_neg hgo, if_neg hgo]

@[simp] theorem preorderAll_nil : preorderAll g goesOn [] w = w := by
  rw [preorderAll, preorderAllSeen]

@[simp] theorem preorderAll_cons (b : BlockId) (bs : List BlockId) :
    preorderAll g goesOn (b :: bs) w = preorderAll g goesOn bs (preorder g goesOn b w) := by
  rw [preorderAll, preorderAllSeen]
  rfl

theorem preorderAll_append (bs cs : List BlockId) :
    ∀ w, preorderAll g goesOn (bs ++ cs) w = preorderAll g goesOn cs (preorderAll g goesOn bs w) := by
  induction bs with
  | nil => simp
  | cons b bs ih =>
    intro w
    rw [List.cons_append, preorderAll_cons, preorderAll_cons, ih]

/-- The blocks on the stack are visited in turn, each with all that it leads to. -/
theorem run_eq_preorderAll (w : Walk) (stack : List BlockId) :
    run g goesOn w stack = preorderAll g goesOn stack w := by
  induction w, stack using run.induct g goesOn with
  | case1 w => simp
  | case2 w b stack hb ih => rw [run_of_seen hb, preorderAll_cons, preorder_of_seen hb, ih]
  | case3 w b stack hb ih =>
    rw [dite_eq_ite] at ih
    rw [run_of_unseen hb, preorderAll_cons, preorder_of_unseen hb, ih]
    split
    · rw [preorderAll_append]
    · rfl

end Walk

/-! ## What is open to a walk -/

namespace Graph

/-- A walk that has seen the blocks in `seen` can get from `b` to `x`: there is a
path of recorded edges past none of them, and the visitor goes on from every
block before `x`. -/
def Opens (g : Graph) (goesOn : BlockId → Bool) (seen : Std.TreeSet BlockId) (b x : BlockId) : Prop :=
  ∃ l, Path g.Recorded b x l ∧ (∀ y ∈ l, y ∉ seen) ∧ ∀ y ∈ l.dropLast, goesOn y = true

namespace Opens

theorem self (hb : b ∉ seen) : g.Opens goesOn seen b b := by
  refine ⟨[b], .single, ?_, by simp⟩
  rintro y hy
  rw [List.mem_singleton] at hy
  exact hy ▸ hb

theorem not_mem (h : g.Opens goesOn seen b x) : x ∉ seen := by
  obtain ⟨l, hp, hn, -⟩ := h
  exact hn x hp.target_mem

/-- The fewer blocks were seen, the more are open. -/
theorem anti {seen' : Std.TreeSet BlockId} (hs : ∀ y ∈ seen, y ∈ seen')
    (h : g.Opens goesOn seen' b x) : g.Opens goesOn seen b x := by
  obtain ⟨l, hp, hn, hgo⟩ := h
  exact ⟨l, hp, fun y hy hm => hn y hy (hs y hm), hgo⟩

theorem cons (hb : b ∉ seen) (hgo : goesOn b = true) (he : g.Recorded b c)
    (h : g.Opens goesOn seen c x) : g.Opens goesOn seen b x := by
  obtain ⟨l, hp, hn, hl⟩ := h
  refine ⟨b :: l, hp.cons he, List.forall_mem_cons.2 ⟨hb, hn⟩, ?_⟩
  rw [List.dropLast_cons_of_ne_nil (List.ne_nil_of_mem hp.target_mem)]
  exact List.forall_mem_cons.2 ⟨hgo, hl⟩

/-- If no recorded edge leads out of the blocks seen, a path to another block
never comes to them. -/
theorem of_closed (hc : ∀ y ∈ seen, ∀ z ∈ g.succs y, z ∈ seen) (hgo : ∀ y, goesOn y = true)
    (hx : x ∉ seen) {l : List BlockId} (hp : Path g.Recorded b x l) : g.Opens goesOn seen b x := by
  refine ⟨l, hp, ?_, fun y _ => hgo y⟩
  induction hp with
  | single =>
    intro y hy
    rw [List.mem_singleton] at hy
    exact hy ▸ hx
  | @snoc u v l _ he ih =>
    intro y hy
    rcases List.mem_append.1 hy with hy | hy
    · exact ih (fun hu => hx (hc u hu v he)) y hy
    · rw [List.mem_singleton] at hy
      exact hy ▸ hx

end Opens

end Graph

/-! ## What a run adds -/

namespace Walk

variable {w w' : Walk} {stack new : List BlockId}

/-- From `w` and a stack to `w'` a run visits the blocks `new`, all of them open
from the stack. It leaves nothing out: what is on the stack has been seen in the
end, and so has what the visitor goes on to. -/
structure Visits (g : Graph) (goesOn : BlockId → Bool) (w : Walk) (stack new : List BlockId)
    (w' : Walk) : Prop where
  visited : w'.visited.toList = w.visited.toList ++ new
  mem_seen_iff : ∀ x, x ∈ w'.seen ↔ x ∈ w.seen ∨ x ∈ new
  nodup : new.Nodup
  opens : ∀ x ∈ new, ∃ b ∈ stack, g.Opens goesOn w.seen b x
  stack_seen : ∀ b ∈ stack, b ∈ w'.seen
  closed : ∀ x ∈ new, goesOn x = true → ∀ y ∈ g.succs x, y ∈ w'.seen

namespace Visits

theorem nil : Visits g goesOn w [] [] w where
  visited := by simp
  mem_seen_iff := by simp
  nodup := .nil
  opens := nofun
  stack_seen := nofun
  closed := nofun

/-- A block on the stack that was seen already is passed over. -/
theorem of_seen (hb : b ∈ w.seen) (h : Visits g goesOn w stack new w') :
    Visits g goesOn w (b :: stack) new w' where
  visited := h.visited
  mem_seen_iff := h.mem_seen_iff
  nodup := h.nodup
  opens x hx := by
    obtain ⟨c, hc, ho⟩ := h.opens x hx
    exact ⟨c, List.mem_cons_of_mem _ hc, ho⟩
  stack_seen := List.forall_mem_cons.2 ⟨(h.mem_seen_iff b).2 (.inl hb), h.stack_seen⟩
  closed := h.closed

theorem of_unseen (hb : b ∉ w.seen)
    (h : Visits g goesOn (w.visit b) (if goesOn b then g.succs b ++ stack else stack) new w') :
    Visits g goesOn w (b :: stack) (b :: new) w' where
  visited := by rw [h.visited, visit, Array.toList_push, List.append_assoc, List.singleton_append]
  mem_seen_iff x := by
    rw [h.mem_seen_iff, mem_seen_visit, List.mem_cons, or_assoc, or_left_comm]
  nodup := by
    refine List.nodup_cons.2 ⟨fun hm => ?_, h.nodup⟩
    obtain ⟨_, -, ho⟩ := h.opens b hm
    exact ho.not_mem (mem_seen_visit.2 (.inl rfl))
  opens := by
    refine List.forall_mem_cons.2 ⟨⟨b, List.mem_cons_self, .self hb⟩, fun x hx => ?_⟩
    obtain ⟨c, hc, ho⟩ := h.opens x hx
    have ho : g.Opens goesOn w.seen c x := ho.anti fun y hy => mem_seen_visit.2 (.inr hy)
    -- `c` was below `b` on the stack, or is a successor that `b` leads to
    split at hc
    · next hgo =>
      rcases List.mem_append.1 hc with hc | hc
      · exact ⟨b, List.mem_cons_self, .cons hb hgo hc ho⟩
      · exact ⟨c, List.mem_cons_of_mem _ hc, ho⟩
    · exact ⟨c, List.mem_cons_of_mem _ hc, ho⟩
  stack_seen := by
    have hself : b ∈ w'.seen := (h.mem_seen_iff b).2 (.inl (mem_seen_visit.2 (.inl rfl)))
    refine List.forall_mem_cons.2 ⟨hself, fun c hc => h.stack_seen c ?_⟩
    split
    · exact List.mem_append_right _ hc
    · exact hc
  closed := by
    refine List.forall_mem_cons.2 ⟨fun hgo y hy => h.stack_seen y ?_, h.closed⟩
    rw [if_pos hgo]
    exact List.mem_append_left _ hy

/-- What is open from the stack has been seen in the end. -/
theorem mem_seen (h : Visits g goesOn w stack new w') (hb : b ∈ stack)
    (ho : g.Opens goesOn w.seen b x) : x ∈ w'.seen := by
  obtain ⟨l, hp, hn, hgo⟩ := ho
  induction hp with
  | single => exact h.stack_seen b hb
  | @snoc u v l hp he ih =>
    rw [List.dropLast_concat] at hgo
    have hu : u ∈ w'.seen := ih (fun y hy => hn y (List.mem_append_left _ hy))
      fun y hy => hgo y (List.dropLast_subset _ hy)
    have hunew : u ∈ new :=
      ((h.mem_seen_iff u).1 hu).resolve_left (hn u (List.mem_append_left _ hp.target_mem))
    exact h.closed u hunew (hgo u hp.target_mem) v he

theorem mem_new_iff (h : Visits g goesOn w stack new w') :
    x ∈ new ↔ ∃ b ∈ stack, g.Opens goesOn w.seen b x := by
  constructor
  · exact h.opens x
  · rintro ⟨b, hb, ho⟩
    exact ((h.mem_seen_iff x).1 (h.mem_seen hb ho)).resolve_left ho.not_mem

end Visits

theorem exists_visits (g : Graph) (goesOn : BlockId → Bool) (w : Walk) (stack : List BlockId) :
    ∃ new, Visits g goesOn w stack new (run g goesOn w stack) := by
  induction w, stack using run.induct g goesOn with
  | case1 w => exact ⟨[], by rw [run_nil]; exact .nil⟩
  | case2 w b stack hb ih =>
    obtain ⟨new, h⟩ := ih
    rw [run_of_seen hb]
    exact ⟨new, h.of_seen (Std.TreeSet.contains_iff_mem.1 hb)⟩
  | case3 w b stack hb ih =>
    obtain ⟨new, h⟩ := ih
    rw [dite_eq_ite] at h
    rw [run_of_unseen hb]
    refine ⟨b :: new, h.of_unseen ?_⟩
    rw [← Std.TreeSet.contains_iff_mem, hb]
    exact Bool.false_ne_true

end Walk

/-! ## Walks in a row -/

namespace Graph

/-- Walks one after the other, each from a block with a visitor, that share what
they have seen. -/
def walksFrom (g : Graph) (seen : Std.TreeSet BlockId) :
    List (BlockId × (BlockId → Bool)) → List Walk
  | [] => []
  | (b, goesOn) :: calls =>
    let w := g.walkFrom seen b goesOn
    w :: g.walksFrom w.seen calls

/-- The blocks that walks in a row visit, in the order of their visits. -/
def visitedFrom (g : Graph) (seen : Std.TreeSet BlockId) (calls : List (BlockId × (BlockId → Bool))) :
    List BlockId :=
  (g.walksFrom seen calls).flatMap (·.visited.toList)

theorem visitedFrom_cons (b : BlockId) (goesOn : BlockId → Bool)
    (calls : List (BlockId × (BlockId → Bool))) :
    g.visitedFrom seen ((b, goesOn) :: calls) =
      (g.walkFrom seen b goesOn).visited.toList ++
        g.visitedFrom (g.walkFrom seen b goesOn).seen calls := rfl

theorem visits_walkFrom (g : Graph) (seen : Std.TreeSet BlockId) (b : BlockId)
    (goesOn : BlockId → Bool) :
    Walk.Visits g goesOn { seen } [b] (g.walkFrom seen b goesOn).visited.toList
      (g.walkFrom seen b goesOn) := by
  obtain ⟨new, h⟩ := Walk.exists_visits g goesOn { seen } [b]
  have hnew : (g.walkFrom seen b goesOn).visited.toList = new := h.visited
  rw [hnew]
  exact h

theorem mem_visited_walkFrom_iff :
    x ∈ (g.walkFrom seen b goesOn).visited.toList ↔ g.Opens goesOn seen b x := by
  rw [(g.visits_walkFrom seen b goesOn).mem_new_iff]
  simp

theorem nodup_visitedFrom (calls : List (BlockId × (BlockId → Bool))) :
    ∀ seen, (g.visitedFrom seen calls).Nodup ∧ ∀ x ∈ g.visitedFrom seen calls, x ∉ seen := by
  induction calls with
  | nil => exact fun _ => ⟨.nil, nofun⟩
  | cons call calls ih =>
    intro seen
    obtain ⟨b, goesOn⟩ := call
    have h := g.visits_walkFrom seen b goesOn
    obtain ⟨hn, hm⟩ := ih (g.walkFrom seen b goesOn).seen
    rw [visitedFrom_cons]
    refine ⟨List.nodup_append.2 ⟨h.nodup, hn, ?_⟩, fun x hx => ?_⟩
    · rintro x hx _ hy rfl
      exact hm x hy ((h.mem_seen_iff x).2 (.inr hx))
    · rcases List.mem_append.1 hx with hx | hx
      · exact (mem_visited_walkFrom_iff.1 hx).not_mem
      · exact fun hs => hm x hx ((h.mem_seen_iff x).2 (.inl hs))

/-- Visitors that never stop get to all that recorded edges lead to, if the
blocks seen before lead to nothing else. -/
theorem mem_visitedFrom_iff (calls : List (BlockId × (BlockId → Bool)))
    (hgo : ∀ call ∈ calls, ∀ y, call.2 y = true) :
    ∀ seen, (∀ y ∈ seen, ∀ z ∈ g.succs y, z ∈ seen) → ∀ x,
      (x ∈ g.visitedFrom seen calls ↔ x ∉ seen ∧ ∃ call ∈ calls, ∃ l, Path g.Recorded call.1 x l) := by
  induction calls with
  | nil => simp [visitedFrom, walksFrom]
  | cons call calls ih =>
    intro seen hc x
    obtain ⟨b, goesOn⟩ := call
    obtain ⟨hgo, hrest⟩ := List.forall_mem_cons.1 hgo
    have h := g.visits_walkFrom seen b goesOn
    have hc' : ∀ y ∈ (g.walkFrom seen b goesOn).seen, ∀ z ∈ g.succs y,
        z ∈ (g.walkFrom seen b goesOn).seen := by
      intro y hy z hz
      rcases (h.mem_seen_iff y).1 hy with hy | hy
      · exact (h.mem_seen_iff z).2 (.inl (hc y hy z hz))
      · exact h.closed y hy (hgo y) z hz
    have hfirst : x ∈ (g.walkFrom seen b goesOn).visited.toList ↔
        x ∉ seen ∧ ∃ l, Path g.Recorded b x l := by
      rw [mem_visited_walkFrom_iff]
      constructor
      · exact fun ho => ⟨ho.not_mem, ho.imp fun _ hl => hl.1⟩
      · rintro ⟨hx, l, hp⟩
        exact .of_closed hc hgo hx hp
    rw [visitedFrom_cons, List.mem_append, ih hrest _ hc', h.mem_seen_iff, hfirst,
      List.exists_mem_cons_iff]
    by_cases hx : x ∈ seen
    · simp [hx]
    · by_cases hp : ∃ l, Path g.Recorded b x l <;> simp [hx, hp]

/-- A walk visits blocks in the order of the recursion, each once, and those
that are open to it and no others. Over walks in a row that share what they have
seen no block is visited twice, and if no visitor stops, the blocks visited are
those that recorded edges lead to from some start. -/
theorem visited_of_walkFrom (g : Graph) :
    (∀ seen b goesOn,
      g.walkFrom seen b goesOn = Walk.preorder g goesOn b { seen } ∧
      (g.walkFrom seen b goesOn).visited.toList.Nodup ∧
      (∀ x, x ∈ (g.walkFrom seen b goesOn).visited.toList ↔
        ∃ l, Path g.Recorded b x l ∧ (∀ y ∈ l, y ∉ seen) ∧ ∀ y ∈ l.dropLast, goesOn y = true) ∧
      ∀ x, x ∈ (g.walkFrom seen b goesOn).seen ↔
        x ∈ seen ∨ x ∈ (g.walkFrom seen b goesOn).visited.toList) ∧
    ∀ calls, (g.visitedFrom ∅ calls).Nodup ∧
      ((∀ call ∈ calls, ∀ y, call.2 y = true) → ∀ x,
        (x ∈ g.visitedFrom ∅ calls ↔ ∃ call ∈ calls, ∃ l, Path g.Recorded call.1 x l)) := by
  refine ⟨fun seen b goesOn => ?_, fun calls => ⟨(nodup_visitedFrom calls ∅).1, fun hgo x => ?_⟩⟩
  · have h := g.visits_walkFrom seen b goesOn
    refine ⟨?_, h.nodup, fun x => mem_visited_walkFrom_iff, h.mem_seen_iff⟩
    rw [walkFrom, Walk.run_eq_preorderAll, Walk.preorderAll_cons, Walk.preorderAll_nil]
  · rw [mem_visitedFrom_iff calls hgo ∅ (by simp)]
    simp

/-- A walk stops at block 4, and leaves block 8 out, which was seen before. Of
three walks in a row the first has block 7 on its stack twice, and the last finds
nothing new. -/
theorem visited_of_walkFrom_loopInLoop : ∃ g, (build loopInLoop.source).value = .ok g ∧
    (g.walkFrom ((∅ : Std.TreeSet BlockId).insert ⟨8⟩) ⟨2⟩ (· ≠ ⟨4⟩)).visited.toList =
      [⟨2⟩, ⟨3⟩, ⟨4⟩, ⟨6⟩] ∧
    ∃ calls, (∀ call ∈ calls, ∀ y, call.2 y = true) ∧
      g.visitedFrom ∅ calls = [⟨4⟩, ⟨5⟩, ⟨7⟩, ⟨3⟩, ⟨6⟩, ⟨8⟩] ∧ (g.visitedFrom ∅ calls).Nodup ∧
      ∃ call ∈ calls, ∃ l, Path g.Recorded call.1 ⟨8⟩ l := by
  let calls : List (BlockId × (BlockId → Bool)) :=
    [(⟨4⟩, fun _ => true), (⟨3⟩, fun _ => true), (⟨4⟩, fun _ => true)]
  have hgo : ∀ call ∈ calls, ∀ y, call.2 y = true := by simp [calls]
  obtain ⟨g, hg, hd⟩ : ∃ g, (build loopInLoop.source).value = .ok g ∧
      ((g.walkFrom ((∅ : Std.TreeSet BlockId).insert ⟨8⟩) ⟨2⟩ (· ≠ ⟨4⟩)).visited.toList,
        g.visitedFrom ∅ calls) = ([⟨2⟩, ⟨3⟩, ⟨4⟩, ⟨6⟩], [⟨4⟩, ⟨5⟩, ⟨7⟩, ⟨3⟩, ⟨6⟩, ⟨8⟩]) :=
    exists_of_map_build (by cbv)
  obtain ⟨hwalk, hrow⟩ := Prod.mk.inj hd
  obtain ⟨-, hseries⟩ := visited_of_walkFrom g
  obtain ⟨hnodup, hmem⟩ := hseries calls
  refine ⟨g, hg, hwalk, calls, hgo, hrow, hnodup, (hmem hgo ⟨8⟩).1 ?_⟩
  rw [hrow]
  decide

end Graph

end FlowGraph
