import Mathlib.Data.List.Permutation
import FlowGraph.Proofs.Traversal.Following
/-!
# The traversal as a recursion

Visiting a block is a recursion over the blocks that have no mark (`visit`). The
traversal with its explicit path finds what this recursion finds, in the same
order, as long as the path has room for every block that the source names
(`run_of_visitRoot`). Only the edges for merges may come in another order: the
recursion notes them when the visit of the merge block is over, the traversal
when it begins.
-/

namespace FlowGraph

namespace Traversal

/-! ## The recursion -/

/-- What a visit makes of the exit of `u` that led to it. -/
def settle (u : BlockId) (exit : Exit) (kept : Bool) (t : Traversal) : Traversal :=
  if kept then noteMerge u exit (t.addEdge ⟨u, exit.target⟩) else t.addBackEdge ⟨u, exit.target⟩

theorem marks_settle (u : BlockId) (exit : Exit) (kept : Bool) (t : Traversal) :
    (settle u exit kept t).marks = t.marks := by
  cases kept <;> cases exit <;> rfl

/-- A traversal that has marked at least `n` blocks. -/
def Marked (n : Nat) : Type := { t : Traversal // n ≤ t.marks.size }

theorem size_marks_enter {t : Traversal} {b : BlockId} (hb : t.mark? b = none) :
    (t.enter b).marks.size = t.marks.size + 1 := by
  have hb : b ∉ t.marks := by simpa [mark?] using hb
  simp [enter, Std.TreeMap.size_insert, hb]

theorem size_marks_le_finish (t : Traversal) (b : BlockId) :
    t.marks.size ≤ (t.finish b).marks.size := by
  simp only [finish, Std.TreeMap.size_insert]
  split <;> omega

mutual

/-- `visit` with a count of the marks, which shows that the recursion ends. -/
def visitMarked (src : Source) (opts : Options) (b : BlockId) (t : Traversal) :
    Except Error (Bool × Marked t.marks.size) :=
  match src.block b with
  | none => .error (.unknown b)
  | some block =>
    match hb : t.mark? b with
    | some .onPath => .ok (false, ⟨t, Nat.le_refl _⟩)
    | some (.done _) => .ok (true, ⟨t, Nat.le_refl _⟩)
    | none => do
      let ⟨t', h⟩ ← visitExitsMarked src opts b (block.exits opts) (t.enter b)
      return (true, ⟨t'.finish b, by
        have := size_marks_enter hb
        have := size_marks_le_finish t' b
        omega⟩)
termination_by (BlockId.count - t.marks.size, 0)
decreasing_by
  have := size_marks_enter hb
  have := BlockId.size_map_le (t.enter b).marks
  left; omega

/-- Visits the targets of the exits that `u` has left, and settles each exit after
the visit of its target. -/
def visitExitsMarked (src : Source) (opts : Options) (u : BlockId) (exits : List Exit)
    (t : Traversal) : Except Error (Marked t.marks.size) :=
  match exits with
  | [] => .ok ⟨t, Nat.le_refl _⟩
  | exit :: exits => do
    let (kept, ⟨t', h⟩) ← visitMarked src opts exit.target t
    let ⟨t'', h'⟩ ← visitExitsMarked src opts u exits (settle u exit kept t')
    return ⟨t'', by rw [marks_settle] at h'; omega⟩
termination_by (BlockId.count - t.marks.size, exits.length + 1)
decreasing_by
  · right; omega
  · rw [marks_settle, Prod.lex_def]
    simp only [List.length_cons]
    omega

end

/-- Visits `b`: whether the edge that leads here is kept, and what is found
then. A block that is met for the first time is marked, its exits are followed,
and it is ranked. -/
def visit (src : Source) (opts : Options) (b : BlockId) (t : Traversal) :
    Except Error (Bool × Traversal) :=
  (visitMarked src opts b t).map fun (kept, t') => (kept, t'.val)

/-- Visits the targets of exits of `u` in turn, and settles each exit after the
visit. -/
def visitExits (src : Source) (opts : Options) (u : BlockId) (exits : List Exit) (t : Traversal) :
    Except Error Traversal :=
  (visitExitsMarked src opts u exits t).map (·.val)

/-- What is found by visiting the root. -/
def visitRoot (src : Source) (opts : Options) : Except Error Traversal :=
  (visit src opts src.root {}).map (·.2)

section
variable {src : Source} {opts : Options} {t : Traversal} {b u : BlockId} {block : Block}

theorem visit_of_unknown (hb : src.block b = none) : visit src opts b t = .error (.unknown b) := by
  rw [visit, visitMarked]
  simp [hb, Except.map]

theorem visit_of_onPath (hb : src.block b = some block) (hm : t.mark? b = some .onPath) :
    visit src opts b t = .ok (false, t) := by
  rw [visit, visitMarked]
  simp only [hb]
  split <;> simp_all [Except.map]

theorem visit_of_done {r : Nat} (hb : src.block b = some block) (hm : t.mark? b = some (.done r)) :
    visit src opts b t = .ok (true, t) := by
  rw [visit, visitMarked]
  simp only [hb]
  split <;> simp_all [Except.map]

theorem visit_of_unmarked (hb : src.block b = some block) (hm : t.mark? b = none) :
    visit src opts b t =
      (visitExits src opts b (block.exits opts) (t.enter b)).map fun t' => (true, t'.finish b) := by
  rw [visit, visitMarked, visitExits]
  simp only [hb]
  split
  · simp_all
  · simp_all
  · cases visitExitsMarked src opts b (block.exits opts) (t.enter b) <;> rfl

theorem size_marks_le_of_visit {kept : Bool} {t' : Traversal}
    (h : visit src opts b t = .ok (kept, t')) : t.marks.size ≤ t'.marks.size := by
  rw [visit] at h
  cases hx : visitMarked src opts b t with
  | error e => rw [hx] at h; cases h
  | ok r => rw [hx] at h; cases h; exact r.2.2

theorem visitExits_nil : visitExits src opts u [] t = .ok t := by
  rw [visitExits, visitExitsMarked]
  rfl

theorem visitExits_cons (exit : Exit) (exits : List Exit) :
    visitExits src opts u (exit :: exits) t = (do
      let (kept, t') ← visit src opts exit.target t
      visitExits src opts u exits (settle u exit kept t')) := by
  rw [visitExits, visitExitsMarked, visit]
  cases visitMarked src opts exit.target t with
  | error e => rfl
  | ok r =>
    obtain ⟨kept, t', h⟩ := r
    simp only [bind, Except.bind, Except.map, visitExits]
    cases visitExitsMarked src opts u exits (settle u exit kept t') <;> rfl

end

end Traversal

/-! ## Room on the path -/

/-- No more than `n` identifiers name a block. -/
def Source.AtMost (src : Source) (n : Nat) : Prop :=
  ∀ l : List BlockId, l.Nodup → (∀ b ∈ l, (src.block b).isSome) → l.length ≤ n

theorem Body.atMost_source (body : Body) : body.source.AtMost body.size := by
  intro l hl hb
  rw [Body.size, ← Std.TreeMap.length_keys]
  refine hl.length_le_of_subset fun b hm => ?_
  rw [Std.TreeMap.mem_keys]
  simpa [Body.source, Body.get?] using hb b hm

namespace Traversal

variable {src : Source} {opts : Options} {t t' : Traversal} {b u : BlockId} {exit : Exit}
  {pend : List Edge} {e : Edge} {n : Nat}

namespace State

variable {s s' : State} {exits : List Exit} {rest : List Frame}

/-- The blocks on the path are distinct and have names in the source. -/
theorem Visited.depth_le (h : Visited src opts s) (hn : src.AtMost n) : s.depth ≤ n := by
  have hm := h.marking
  have hl : s.blocks.length ≤ n := hn _ hm.nodup fun _ hb => h.isSome_of_mem_blocks hb
  rw [h.depth_eq]
  simpa [blocks] using hl

end State

/-! ## Traversals that differ in the edges for merges -/

/-- The edge that is noted when an exit is followed for a merge. -/
def noted (u : BlockId) : Exit → List Edge
  | .branch _ => []
  | .merge m => [⟨u, m⟩]

/-- `t'` has found what `t` has, and has noted the edges in `pend` already. -/
structure Matches (pend : List Edge) (t t' : Traversal) : Prop where
  marks : t'.marks = t.marks
  order : t'.order = t.order
  preds : t'.preds = t.preds
  succs : t'.succs = t.succs
  backEdges : t'.backEdges = t.backEdges
  mergeEdges : t'.mergeEdges.toList.Perm (pend ++ t.mergeEdges.toList)

namespace Matches

theorem mark? (h : Matches pend t t') (b : BlockId) : t'.mark? b = t.mark? b := by
  rw [Traversal.mark?, Traversal.mark?, h.marks]

theorem enter (h : Matches pend t t') (b : BlockId) : Matches pend (t.enter b) (t'.enter b) := by
  refine { h with marks := ?_ }
  simp [Traversal.enter, h.marks]

theorem finish (h : Matches pend t t') (b : BlockId) : Matches pend (t.finish b) (t'.finish b) := by
  refine { h with marks := ?_, order := ?_ } <;> simp [Traversal.finish, h.marks, h.order]

theorem addEdge (h : Matches pend t t') (e : Edge) : Matches pend (t.addEdge e) (t'.addEdge e) := by
  refine { h with preds := ?_, succs := ?_ } <;> simp [Traversal.addEdge, h.preds, h.succs]

theorem addBackEdge (h : Matches pend t t') (e : Edge) :
    Matches pend (t.addBackEdge e) (t'.addBackEdge e) := by
  refine { h with backEdges := ?_ }
  simp [Traversal.addBackEdge, h.backEdges]

theorem toList_mergeEdges_noteMerge (t : Traversal) (u : BlockId) (exit : Exit) :
    (noteMerge u exit t).mergeEdges.toList = t.mergeEdges.toList ++ noted u exit := by
  cases exit <;> simp [noteMerge, noted, addMergeEdge]

/-- The edge is noted on one side. -/
theorem note_right (h : Matches pend t t') (u : BlockId) (exit : Exit) :
    Matches (noted u exit ++ pend) t (noteMerge u exit t') := by
  have hm : (noteMerge u exit t').mergeEdges.toList.Perm (noted u exit ++ pend ++ t.mergeEdges.toList) := by
    rw [toList_mergeEdges_noteMerge, List.append_assoc]
    exact List.perm_append_comm.trans (h.mergeEdges.append_left _)
  cases exit <;> exact ⟨h.marks, h.order, h.preds, h.succs, h.backEdges, hm⟩

/-- The edge that was noted on one side is noted on the other. -/
theorem note_left (h : Matches (noted u exit ++ pend) t t') : Matches pend (noteMerge u exit t) t' := by
  have hm : t'.mergeEdges.toList.Perm (pend ++ (noteMerge u exit t).mergeEdges.toList) := by
    have hm := h.mergeEdges
    rw [List.append_assoc] at hm
    rw [toList_mergeEdges_noteMerge, ← List.append_assoc]
    exact hm.trans List.perm_append_comm
  cases exit <;> exact ⟨h.marks, h.order, h.preds, h.succs, h.backEdges, hm⟩

end Matches

/-! ## The traversal runs along the recursion -/

namespace State

variable {s s' : State} {exits : List Exit} {rest : List Frame}

/-- The traversal comes from `s` to a state with the path `path`, where it has
found what `t` has. -/
def Leads (src : Source) (opts : Options) (s : State) (path : List Frame) (pend : List Edge)
    (t : Traversal) : Prop :=
  ∃ s', Visited src opts s' ∧ s.run src opts = s'.run src opts ∧ s'.path = path ∧
    Matches pend t s'.found

/-- When `exit` is next to follow, the traversal does what visiting its target
does. -/
def Visits (src : Source) (opts : Options) (b : BlockId) (t : Traversal) : Prop :=
  ∀ s u exit exits rest pend, Visited src opts s → s.path = ⟨u, exit :: exits⟩ :: rest →
    exit.target = b → Matches pend t s.found →
      match visit src opts b t with
      | .error e => (s.run src opts).value = .error e
      | .ok (kept, t') => Leads src opts s (⟨u, exits⟩ :: rest) pend (settle u exit kept t')

/-- The same for all the exits that a block has left. -/
def VisitsExits (src : Source) (opts : Options) (u : BlockId) (exits : List Exit) (t : Traversal) :
    Prop :=
  ∀ s rest pend, Visited src opts s → s.path = ⟨u, exits⟩ :: rest → Matches pend t s.found →
    match visitExits src opts u exits t with
    | .error e => (s.run src opts).value = .error e
    | .ok t' => Leads src opts s (⟨u, []⟩ :: rest) pend t'

theorem visits_of_unknown (hn : src.AtMost n) (hd : n < opts.maxDepth) (hb : src.block b = none) :
    Visits src opts b t := by
  rintro ⟨path, depth, found, events⟩ u exit exits rest pend hv rfl rfl hm
  have hroom : ¬ opts.maxDepth ≤ depth :=
    Nat.not_le.2 (Nat.lt_of_le_of_lt (hv.depth_le hn) hd)
  have hmark : found.mark? exit.target = none := by
    apply Classical.byContradiction
    intro h
    obtain ⟨block, hblock⟩ := hv.resolves _ h
    rw [hb] at hblock
    cases hblock
  have hs : step src opts ⟨⟨u, exit :: exits⟩ :: rest, depth, found, events⟩ =
      .halt ⟨.error (.unknown exit.target), events⟩ := by
    simp only [step, follow, hmark, State.enter, if_neg hroom, hb, Outcome.map]
  rw [visit_of_unknown hb]
  exact congrArg Logged.value (run_of_halt hs)

theorem visits_of_onPath {block : Block} (hb : src.block b = some block)
    (hmark : t.mark? b = some .onPath) : Visits src opts b t := by
  rintro ⟨path, depth, found, events⟩ u exit exits rest pend hv rfl rfl hm
  have hfound : found.mark? exit.target = some .onPath := (hm.mark? _).trans hmark
  have hs : step src opts ⟨⟨u, exit :: exits⟩ :: rest, depth, found, events⟩ =
      .next ⟨⟨u, exits⟩ :: rest, depth, found.addBackEdge ⟨u, exit.target⟩,
        events.push (.backEdge ⟨u, exit.target⟩)⟩ := by
    simp only [step, follow, hfound]
  rw [visit_of_onPath hb hmark]
  exact ⟨_, hv.step (step_of_eq_next hs), run_of_next hs, rfl, hm.addBackEdge _⟩

theorem visits_of_done {block : Block} {r : Nat} (hb : src.block b = some block)
    (hmark : t.mark? b = some (.done r)) : Visits src opts b t := by
  rintro ⟨path, depth, found, events⟩ u exit exits rest pend hv rfl rfl hm
  have hfound : found.mark? exit.target = some (.done r) := (hm.mark? _).trans hmark
  have hs : step src opts ⟨⟨u, exit :: exits⟩ :: rest, depth, found, events⟩ =
      .next (noteMerge u exit ⟨⟨u, exits⟩ :: rest, depth, found.addEdge ⟨u, exit.target⟩, events⟩) := by
    simp only [step, follow, hfound]
  rw [visit_of_done hb hmark]
  refine ⟨_, hv.step (step_of_eq_next hs), run_of_next hs, path_noteMerge _ _ _, ?_⟩
  rw [found_noteMerge]
  exact ((hm.addEdge ⟨u, exit.target⟩).note_right u exit).note_left

/-- The traversal notes the edge for a merge when it enters the block, and the
recursion after the visit. -/
theorem visits_of_unmarked {block : Block} (hn : src.AtMost n) (hd : n < opts.maxDepth)
    (hb : src.block b = some block) (hmark : t.mark? b = none)
    (ih : VisitsExits src opts b (block.exits opts) (t.enter b)) : Visits src opts b t := by
  rintro ⟨path, depth, found, events⟩ u exit exits rest pend hv rfl rfl hm
  have hfound : found.mark? exit.target = none := (hm.mark? _).trans hmark
  have hroom : ¬ opts.maxDepth ≤ depth :=
    Nat.not_le.2 (Nat.lt_of_le_of_lt (hv.depth_le hn) hd)
  have hs : step src opts ⟨⟨u, exit :: exits⟩ :: rest, depth, found, events⟩ =
      .next (noteMerge u exit ⟨⟨exit.target, block.exits opts⟩ :: ⟨u, exits⟩ :: rest, depth + 1,
        found.enter exit.target, events⟩) := by
    simp only [step, follow, hfound, State.enter, if_neg hroom, hb, Outcome.map]
  have hexits := ih _ (⟨u, exits⟩ :: rest) (noted u exit ++ pend) (hv.step (step_of_eq_next hs))
    (path_noteMerge _ _ _)
    (by rw [found_noteMerge]; exact (hm.enter exit.target).note_right u exit)
  rw [visit_of_unmarked hb hmark]
  cases hx : visitExits src opts exit.target (block.exits opts) (t.enter exit.target) with
  | error e =>
    rw [hx] at hexits
    exact (congrArg Logged.value (run_of_next hs)).trans hexits
  | ok t' =>
    rw [hx] at hexits
    obtain ⟨⟨path', depth', found', events'⟩, hv', hr, hp, hm'⟩ := hexits
    cases hp
    have hs' : step src opts ⟨⟨exit.target, []⟩ :: ⟨u, exits⟩ :: rest, depth', found', events'⟩ =
        .next ⟨⟨u, exits⟩ :: rest, depth' - 1,
          (found'.finish exit.target).addEdge ⟨u, exit.target⟩, events'⟩ := rfl
    refine ⟨_, hv'.step (step_of_eq_next hs'), ?_, rfl, ?_⟩
    · rw [run_of_next hs, hr, run_of_next hs']
    · exact ((hm'.finish exit.target).addEdge ⟨u, exit.target⟩).note_left

theorem visitsExits_nil : VisitsExits src opts u [] t := by
  intro s rest pend hv hp hm
  rw [visitExits_nil]
  exact ⟨s, hv, rfl, hp, hm⟩

theorem visitsExits_cons (hvisit : Visits src opts exit.target t)
    (hrest : ∀ kept t', t.marks.size ≤ t'.marks.size →
      VisitsExits src opts u exits (settle u exit kept t')) :
    VisitsExits src opts u (exit :: exits) t := by
  intro s rest pend hv hp hm
  have hfirst := hvisit s u exit exits rest pend hv hp rfl hm
  rw [visitExits_cons]
  cases hx : visit src opts exit.target t with
  | error e =>
    rw [hx] at hfirst
    exact hfirst
  | ok r =>
    obtain ⟨kept, t'⟩ := r
    rw [hx] at hfirst
    obtain ⟨s₁, hv₁, hr, hp₁, hm₁⟩ := hfirst
    have hnext := hrest kept t' (size_marks_le_of_visit hx) s₁ rest pend hv₁ hp₁ hm₁
    simp only [bind, Except.bind]
    cases hy : visitExits src opts u exits (settle u exit kept t') with
    | error e =>
      rw [hy] at hnext
      exact (congrArg Logged.value hr).trans hnext
    | ok t'' =>
      rw [hy] at hnext
      obtain ⟨s₂, hv₂, hr₂, hp₂, hm₂⟩ := hnext
      exact ⟨s₂, hv₂, hr.trans hr₂, hp₂, hm₂⟩

theorem visitsExits (hn : src.AtMost n) (hd : n < opts.maxDepth) (u : BlockId) (exits : List Exit)
    (t : Traversal) : VisitsExits src opts u exits t := by
  -- along the recursion, both kinds of visits at once
  refine (visitMarked.mutual_induct src opts (Visits src opts) (VisitsExits src opts)
    ?unknown ?onPath ?done ?unmarked ?nil ?cons).2 u exits t
  case unknown => exact fun b t hb => visits_of_unknown hn hd hb
  case onPath => exact fun b t block hb hm => visits_of_onPath hb hm
  case done => exact fun b t block hb r hm => visits_of_done hb hm
  case unmarked => exact fun b t block hb hm ih => visits_of_unmarked hn hd hb hm ih
  case nil => exact fun u t => visitsExits_nil
  case cons => exact fun u t exit exits hvisit hrest => visitsExits_cons hvisit hrest

end State

/-! ## The result -/

/-- Two traversals found the same, up to the order of the edges for merges. -/
structure Agrees (t t' : Traversal) : Prop where
  order : t'.order = t.order
  rank? : ∀ b, t'.rank? b = t.rank? b
  preds : ∀ b, t'.preds.neighbours b = t.preds.neighbours b
  succs : ∀ b, t'.succs.neighbours b = t.succs.neighbours b
  backEdges : t'.backEdges = t.backEdges
  mem_mergeEdges : ∀ e, e ∈ t'.mergeEdges ↔ e ∈ t.mergeEdges

theorem Matches.agrees (h : Matches [] t t') : t.Agrees t' where
  order := h.order
  rank? b := by rw [Traversal.rank?, Traversal.rank?, h.mark?]
  preds b := by rw [h.preds]
  succs b := by rw [h.succs]
  backEdges := h.backEdges
  mem_mergeEdges e := by
    rw [← Array.mem_toList_iff, ← Array.mem_toList_iff]
    exact h.mergeEdges.mem_iff

/-- A path that has room for more blocks than the source names is as good as
recursion: the traversal fails as visiting the root does, or finds the same. -/
theorem run_of_visitRoot (hn : src.AtMost n) (hd : n < opts.maxDepth) :
    match visitRoot src opts with
    | .error e => (run src opts).value = .error e
    | .ok t => ∃ t', (run src opts).value = .ok t' ∧ t.Agrees t' := by
  have hroom : ¬ opts.maxDepth ≤ 0 := by omega
  cases hb : src.block src.root with
  | none =>
    have hrun : (run src opts).value = .error (.unknown src.root) := by
      simp [run, State.enter, hroom, hb]
    rw [visitRoot, visit_of_unknown hb]
    exact hrun
  | some block =>
    have hmark : ({} : Traversal).mark? src.root = none := by simp [mark?]
    have hv : State.Visited src opts _ := .start (by omega) hb
    have hrun : run src opts = State.run src opts
        ⟨[⟨src.root, block.exits opts⟩], 1, ({} : Traversal).enter src.root, #[]⟩ := by
      simp [run, State.enter, hroom, hb]
    have hvisits := State.visitsExits hn hd src.root (block.exits opts) _ _ [] [] hv rfl
      ⟨rfl, rfl, rfl, rfl, rfl, List.Perm.refl _⟩
    rw [visitRoot, visit_of_unmarked hb hmark, hrun]
    cases hx : visitExits src opts src.root (block.exits opts) (({} : Traversal).enter src.root) with
    | error e =>
      rw [hx] at hvisits
      exact hvisits
    | ok t =>
      rw [hx] at hvisits
      obtain ⟨⟨path, depth, found, events⟩, hv', hr, hp, hm⟩ := hvisits
      cases hp
      have hs : State.step src opts ⟨[⟨src.root, []⟩], depth, found, events⟩ =
          .next ⟨[], depth - 1, found.finish src.root, events⟩ := rfl
      refine ⟨found.finish src.root, ?_, (hm.finish src.root).agrees⟩
      rw [hr, State.run_of_next hs, State.run_of_halt rfl]

/-- Each of the first two blocks leads only to its merge block. -/
def mergeChain : Body := .ofList ⟨1⟩ [
  (⟨1⟩, ⟨.ret, .loop ⟨2⟩⟩),
  (⟨2⟩, ⟨.ret, .loop ⟨3⟩⟩),
  (⟨3⟩, ⟨.ret, .none⟩)]

theorem run_of_visitRoot_mergeChain : mergeChain.source.AtMost 3 ∧
    ∃ t t', visitRoot mergeChain.source ⟨true, 4⟩ = .ok t ∧
      (run mergeChain.source ⟨true, 4⟩).value = .ok t' ∧ t.Agrees t' ∧
      t.mergeEdges = #[⟨⟨2⟩, ⟨3⟩⟩, ⟨⟨1⟩, ⟨2⟩⟩] ∧ t'.mergeEdges = #[⟨⟨1⟩, ⟨2⟩⟩, ⟨⟨2⟩, ⟨3⟩⟩] := by
  have hn : mergeChain.source.AtMost 3 := mergeChain.atMost_source
  have hd : 3 < Options.maxDepth ⟨true, 4⟩ := by decide
  have hsame := run_of_visitRoot hn hd
  have hvisit : (visitRoot mergeChain.source ⟨true, 4⟩).toOption.map mergeEdges =
      some #[⟨⟨2⟩, ⟨3⟩⟩, ⟨⟨1⟩, ⟨2⟩⟩] := by cbv
  have hrun : (run mergeChain.source ⟨true, 4⟩).value.toOption.map mergeEdges =
      some #[⟨⟨1⟩, ⟨2⟩⟩, ⟨⟨2⟩, ⟨3⟩⟩] := by cbv
  cases hv : visitRoot mergeChain.source ⟨true, 4⟩ with
  | error e => simp [hv, Except.toOption] at hvisit
  | ok t =>
    rw [hv] at hsame hvisit
    obtain ⟨t', ht', hagree⟩ := hsame
    rw [ht'] at hrun
    exact ⟨hn, t, t', rfl, ht', hagree, Option.some.inj hvisit, Option.some.inj hrun⟩

end Traversal

end FlowGraph
