import FlowGraph.Proofs.Graph.Build
import FlowGraph.Proofs.Traversal.Sorting
/-!
# Blocks and edges of a graph

A graph holds the blocks that the followed edges lead to from the entry, in the
order of their ranks (`postOrder_of_build`). Each exit of such a block is
recorded when its target has the smaller rank and is a back edge when it has
not, and there are no other edges (`edges_of_build`). The second holds of the
source of any graph, wherever its traversal starts.
-/

namespace FlowGraph

theorem Block.count_merge_exits (b : Block) (opts : Options) (m : BlockId) :
    (b.exits opts).count (.merge m) = if opts.followMerges ∧ b.merge = .loop m then 1 else 0 := by
  have hbranch : (b.successors.map Exit.branch).count (.merge m) = 0 :=
    List.count_eq_zero.2 fun h => by
      obtain ⟨_, -, he⟩ := List.mem_map.1 h
      cases he
  rw [exits, List.count_append, hbranch, Nat.zero_add]
  cases opts.followMerges <;> cases b.merge <;> simp [Merge.loopBlock?, List.count_singleton]

namespace Graph

variable {src : Source} {opts : Options} {g : Graph} {a b u v m : BlockId}

/-! ## What the pass over the dominators keeps -/

theorem assignDominator_eq_ok {g' : Graph} (h : g.assignDominator b = .ok g') :
    g'.entry = g.entry ∧ g'.traversal = g.traversal := by
  unfold assignDominator at h
  split at h
  · cases h; exact ⟨rfl, rfl⟩
  split at h
  · cases h; exact ⟨rfl, rfl⟩
  · next pred preds _ =>
    split at h
    · cases h
    · cases hd : preds.foldlM g.commonDominator pred with
      | error e => simp [hd, bind, Except.bind] at h
      | ok d =>
        simp only [hd, bind, Except.bind, pure, Except.pure, Except.ok.injEq] at h
        subst h
        exact ⟨rfl, rfl⟩

theorem foldlM_assignDominator_eq_ok {l : List BlockId} : ∀ {g g' : Graph},
    l.foldlM assignDominator g = .ok g' → g'.entry = g.entry ∧ g'.traversal = g.traversal := by
  induction l with
  | nil =>
    intro g g' h
    cases h
    exact ⟨rfl, rfl⟩
  | cons b l ih =>
    intro g g' h
    rw [List.foldlM_cons] at h
    cases hb : g.assignDominator b with
    | error e => simp [hb, bind, Except.bind] at h
    | ok g₁ =>
      simp only [hb, bind, Except.bind] at h
      obtain ⟨he, ht⟩ := ih h
      obtain ⟨he', ht'⟩ := assignDominator_eq_ok hb
      exact ⟨he.trans he', ht.trans ht'⟩

/-- A graph holds what the traversal of its source found. -/
theorem run_of_build (h : (build src opts).value = .ok g) :
    g.entry = src.entry ∧ (Traversal.run src opts).value = .ok g.traversal := by
  cases ht : (Traversal.run src opts).value with
  | error e =>
    rw [value_build_of_error ht] at h
    cases h
  | ok t =>
    rw [value_build ht] at h
    obtain ⟨he, htr⟩ := foldlM_assignDominator_eq_ok h
    exact ⟨he, by rw [htr]; rfl⟩

/-! ## Edges -/

/-- What a graph makes of the exits of a block: those to blocks of smaller rank
are recorded once each, the others are back edges. -/
structure SortsExits (g : Graph) (opts : Options) (u : BlockId) (block : Block) : Prop where
  isReachable : ∀ v ∈ block.followed opts, g.isReachable v
  succs : g.succs u = ((block.followed opts).filter (g.RankLt · u)).eraseDups
  backEdges : ∀ v, g.backEdges.count ⟨u, v⟩ =
    if g.RankLt v u then 0 else (block.followed opts).count v
  mergeEdges : ∀ m, g.mergeEdges.count ⟨u, m⟩ =
    if opts.followMerges ∧ block.merge = .loop m ∧ g.RankLt m u then 1 else 0

/-- The block is not part of the graph. -/
structure Absent (g : Graph) (u : BlockId) : Prop where
  postOrder : u ∉ g.postOrder
  succs : g.succs u = []
  preds : g.preds u = []
  not_mem_succs : ∀ v, u ∉ g.succs v
  not_mem_preds : ∀ v, u ∉ g.preds v
  backEdges : ∀ e ∈ g.backEdges, e.source ≠ u ∧ e.target ≠ u
  mergeEdges : ∀ e ∈ g.mergeEdges, e.source ≠ u ∧ e.target ≠ u

theorem sortsExits_of_build (h : (build src opts).value = .ok g) (hu : g.isReachable u) :
    ∃ block, src.block u = some block ∧ g.SortsExits opts u block := by
  have hrun := (run_of_build h).2
  obtain ⟨r, hr⟩ := isReachable_iff.1 hu
  obtain ⟨block, hb, hsucc, hback, hmerge⟩ := Traversal.sorted_of_run hrun hr
  have hrank : ∀ v ∈ block.followed opts, ∃ q, g.rank? v = some q := fun v hv =>
    (Traversal.accounts_of_run hrun).rank_of_follows u v r hr ⟨block, hb, hv⟩
  -- among the exits of a reachable block, to be due first is to have the smaller rank
  have hdue : ∀ e ∈ block.exits opts,
      (Traversal.due [] g.traversal e.target < r ↔ g.RankLt e.target u) := by
    intro e he
    obtain ⟨q, hq⟩ := hrank e.target (by rw [← Block.map_target_exits]; exact List.mem_map_of_mem he)
    rw [rankLt_iff hq hr, Traversal.due_of_rank hq]
  have hkept : (block.exits opts).filter (Traversal.due [] g.traversal ·.target < r) =
      (block.exits opts).filter (g.RankLt ·.target u) :=
    List.filter_congr fun e he => by rw [decide_eq_decide.2 (hdue e he)]
  have hdropped : (block.exits opts).filter (r ≤ Traversal.due [] g.traversal ·.target) =
      (block.exits opts).filter (¬ g.RankLt ·.target u) :=
    List.filter_congr fun e he => by rw [decide_eq_decide, ← hdue e he, Nat.not_lt]
  rw [hkept] at hsucc hmerge
  rw [hdropped] at hback
  refine ⟨block, hb, fun v hv => isReachable_iff.2 (hrank v hv), ?_, fun v => ?_, fun m => ?_⟩
  · rw [← Block.map_target_exits, List.filter_map]
    exact hsucc
  · rw [backEdges, Array.count_toList, hback, ← Block.map_target_exits]
    by_cases hv : g.RankLt v u
    · rw [if_pos hv]
      refine List.count_eq_zero.2 fun hmem => ?_
      obtain ⟨e, he, rfl⟩ := List.mem_map.1 hmem
      exact of_decide_eq_true (List.mem_filter.1 he).2 hv
    · rw [if_neg hv]
      have hmap := List.filter_map (f := Exit.target) (p := fun v => decide (¬ g.RankLt v u))
        (l := block.exits opts)
      exact (congrArg (List.count v) hmap).symm.trans (List.count_filter (by simpa using hv))
  · rw [mergeEdges, Array.count_toList, hmerge]
    by_cases hm : g.RankLt m u
    · have hkept : decide (g.RankLt (Exit.merge m).target u) = true := decide_eq_true hm
      rw [List.count_filter (a := Exit.merge m) hkept, Block.count_merge_exits]
      simp [hm]
    · rw [if_neg (by simp [hm])]
      refine List.count_eq_zero.2 fun hmem => ?_
      exact hm (of_decide_eq_true (List.mem_filter.1 hmem).2)

/-- An exit of a reachable block is a back edge unless it leads down in rank. -/
theorem mem_backEdges_iff_of_follows (h : (build src opts).value = .ok g) (hu : g.isReachable u)
    (hf : src.Follows opts u v) : ⟨u, v⟩ ∈ g.backEdges ↔ ¬ g.RankLt v u := by
  obtain ⟨block, hb, hv⟩ := hf
  obtain ⟨block', hb', hsorts⟩ := sortsExits_of_build h hu
  rw [hb] at hb'
  cases hb'
  rw [← List.count_pos_iff, hsorts.backEdges]
  split
  · next hlt => exact iff_of_false (Nat.lt_irrefl 0) (absurd hlt)
  · next hlt => exact iff_of_true (List.count_pos_iff.2 hv) hlt

theorem absent_of_build (h : (build src opts).value = .ok g) (hu : ¬ g.isReachable u) :
    g.Absent u := by
  have hrun := (run_of_build h).2
  have ho := Traversal.postOrdered_of_run hrun
  have ha := Traversal.accounts_of_run hrun
  have hsucc : ∀ v w, w ∈ g.succs v → v ≠ u ∧ w ≠ u := by
    intro v w hw
    have hlt := rankLt_of_recorded ho hw
    constructor
    · rintro rfl; exact hu hlt.isReachable_right
    · rintro rfl; exact hu hlt.isReachable_left
  have hpred : ∀ v w, v ∈ g.preds w → v ≠ u ∧ w ≠ u :=
    fun v w hv => hsucc v w ((ho.mem_preds_iff v w).1 hv)
  refine ⟨fun hb => hu ((mem_postOrder_iff ho).1 hb), ?_, ?_, ?_, ?_, ?_, ?_⟩
  · exact List.eq_nil_iff_forall_not_mem.2 fun w hw => (hsucc u w hw).1 rfl
  · exact List.eq_nil_iff_forall_not_mem.2 fun w hw => (hpred w u hw).2 rfl
  · exact fun v hv => (hsucc v u hv).2 rfl
  · exact fun v hv => (hpred u v hv).1 rfl
  · intro e he
    rw [backEdges, Array.mem_toList_iff] at he
    obtain ⟨r, hr⟩ := ha.rank_of_backEdge e he
    have hf := (ha.follows_iff e.source e.target r hr).2 (.inr he)
    obtain ⟨q, hq⟩ := ha.rank_of_follows e.source e.target r hr hf
    constructor
    · rintro rfl; exact hu (isReachable_iff.2 ⟨r, hr⟩)
    · rintro rfl; exact hu (isReachable_iff.2 ⟨q, hq⟩)
  · intro e he
    rw [mergeEdges, Array.mem_toList_iff] at he
    exact hsucc _ _ (ha.mem_succs_of_mergeEdge e he)

/-- Each exit of a reachable block is a recorded edge or a back edge, as the
ranks of its ends decide, and a graph has no other edges. -/
theorem edges_of_build (h : (build src opts).value = .ok g) :
    (∀ u, g.isReachable u → ∃ block, src.block u = some block ∧ g.SortsExits opts u block) ∧
    (∀ v, (g.preds v).Nodup ∧ ∀ u, u ∈ g.preds v ↔ v ∈ g.succs u) ∧
    (∀ u, ¬ g.isReachable u → g.Absent u) ∧
    (∀ u v, g.isReachable u → src.Follows opts u v → (v ∈ g.succs u ↔ ⟨u, v⟩ ∉ g.backEdges)) ∧
    (∀ u v, v ∈ g.succs u → g.RankLt v u) := by
  have hrun := (run_of_build h).2
  have ho := Traversal.postOrdered_of_run hrun
  refine ⟨fun u hu => sortsExits_of_build h hu, fun v => ⟨?_, fun u => ho.mem_preds_iff u v⟩,
    fun u hu => absent_of_build h hu, ?_, fun u v hv => rankLt_of_recorded ho hv⟩
  · exact Traversal.nodup_preds_of_run hrun v
  · rintro u v hu ⟨block, hb, hv⟩
    obtain ⟨block', hb', hs⟩ := sortsExits_of_build h hu
    rw [hb] at hb'
    cases hb'
    have hsucc : v ∈ g.succs u ↔ g.RankLt v u := by
      rw [hs.succs, List.mem_eraseDups, List.mem_filter]
      simp [hv]
    have hback : ⟨u, v⟩ ∈ g.backEdges ↔ ¬ g.RankLt v u := by
      rw [← List.count_pos_iff, hs.backEdges]
      have := List.count_pos_iff.2 hv
      split <;> simp_all
    rw [hsucc, hback, Classical.not_not]

/-- Targets that are written twice, blocks that branch to themselves, one merge
block that is on the path and one that is done, and a block that nothing leads
to. -/
def tangle : Body := .ofList ⟨1⟩ [
  (⟨1⟩, ⟨.multiSelect [⟨0, ⟨2⟩⟩, ⟨1, ⟨3⟩⟩, ⟨2, ⟨2⟩⟩, ⟨3, ⟨1⟩⟩] (some ⟨3⟩), .none⟩),
  (⟨2⟩, ⟨.direct ⟨4⟩, .loop ⟨1⟩⟩),
  (⟨3⟩, ⟨.select ⟨4⟩ ⟨3⟩, .loop ⟨4⟩⟩),
  (⟨4⟩, ⟨.ret, .none⟩),
  (⟨5⟩, ⟨.direct ⟨3⟩, .none⟩)]

theorem edges_of_tangle : ∃ g, (build tangle.source).value = .ok g ∧
    g.succs ⟨1⟩ = [⟨2⟩, ⟨3⟩] ∧ g.backEdges = [⟨⟨2⟩, ⟨1⟩⟩, ⟨⟨3⟩, ⟨3⟩⟩, ⟨⟨1⟩, ⟨1⟩⟩] ∧
    g.mergeEdges = [⟨⟨3⟩, ⟨4⟩⟩] ∧ g.Absent ⟨5⟩ ∧
    ∃ block, tangle.source.block ⟨1⟩ = some block ∧ g.SortsExits .standard ⟨1⟩ block := by
  obtain ⟨g, hg, hd⟩ : ∃ g, (build tangle.source).value = .ok g ∧
      (g.succs ⟨1⟩, g.backEdges, g.mergeEdges, g.isReachable ⟨1⟩, g.isReachable ⟨5⟩) =
        ([⟨2⟩, ⟨3⟩], [⟨⟨2⟩, ⟨1⟩⟩, ⟨⟨3⟩, ⟨3⟩⟩, ⟨⟨1⟩, ⟨1⟩⟩], [⟨⟨3⟩, ⟨4⟩⟩], true, false) :=
    exists_of_map_build (by cbv)
  simp only [Prod.mk.injEq] at hd
  obtain ⟨hs, hb, hm, hr, hn⟩ := hd
  obtain ⟨hsorts, -, habsent, -, -⟩ := edges_of_build hg
  exact ⟨g, hg, hs, hb, hm, habsent _ (by simp [hn]), hsorts _ hr⟩

/-! ## Blocks -/

/-- Followed edges lead from the entry to the reachable blocks and no others. -/
theorem isReachable_iff_path (hs : src.Consistent) (h : (build src opts).value = .ok g) :
    g.isReachable b ↔ ∃ l, Path (src.Follows opts) src.entry b l := by
  obtain ⟨hl, he, ha⟩ := lawful_of_build hs h
  rw [← he]
  constructor
  · intro hb
    obtain ⟨l, hp⟩ := hl.exists_path b hb
    refine ⟨l, hp.mono fun u v huv => ?_⟩
    obtain ⟨r, hr⟩ := isReachable_iff.1 (hl.isReachable_of_recorded huv).1
    exact (ha.follows_iff u v r hr).2 (.inl huv)
  · rintro ⟨l, hp⟩
    -- what is followed from a reachable block is reachable
    induction hp with
    | single => exact hl.isReachable_entry
    | @snoc u v l _ hf ih =>
      obtain ⟨r, hr⟩ := isReachable_iff.1 ih
      exact isReachable_iff.2 (ha.rank_of_follows u v r hr hf)

/-- The ranks of a graph are 32-bit numbers, unless every identifier is reachable. -/
theorem rank_lt_size_of_build {x : BlockId} (h : (build src opts).value = .ok g) {r : Nat}
    (hr : g.rank? b = some r) (hx : ¬ g.isReachable x) : r < UInt32.size := by
  obtain ⟨s, hv, -, hs⟩ := Traversal.visited_of_run (run_of_build h).2
  rw [rank?, ← hs] at hr
  rw [isReachable, rank?, ← hs, Option.not_isSome_iff_eq_none] at hx
  exact hv.rank_lt_size hr hx

/-- The blocks of a graph are those that followed edges lead to from the entry,
numbered from 1 in the order they were done, the entry last. -/
theorem postOrder_of_build (hs : src.Consistent) (h : (build src opts).value = .ok g) :
    (∀ b, b ∈ g.postOrder ↔ ∃ l, Path (src.Follows opts) src.entry b l) ∧
    g.postOrder.Nodup ∧
    (∀ i (hi : i < g.postOrder.length), g.rank? g.postOrder[i] = some (i + 1)) ∧
    (∀ b, b ∉ g.postOrder → g.rank? b = none) ∧
    g.postOrder.getLast? = some src.entry ∧
    (∀ b ∈ g.postOrder, b ≠ src.entry → g.RankLt b src.entry) := by
  obtain ⟨hl, he, -⟩ := lawful_of_build hs h
  have ho := hl.ordered
  have hmem : ∀ b, b ∈ g.postOrder ↔ g.isReachable b := fun b => mem_postOrder_iff ho
  refine ⟨fun b => (hmem b).trans (isReachable_iff_path hs h), (pairwise_postOrder ho).imp RankLt.ne,
    fun i hi => rank?_getElem_postOrder ho hi, fun b hb => ?_, ?_, fun b hb hne => ?_⟩
  · rw [hmem, isReachable, Option.not_isSome_iff_eq_none] at hb
    exact hb
  · rw [← he, postOrder, Array.getLast?_toList]
    exact ho.root_last
  · rw [← he] at hne ⊢
    exact rankLt_entry hl.tree ((hl.isSome_iff b).2 ((hmem b).1 hb)) hne

theorem postOrder_of_tangle : tangle.source.Consistent ∧
    ∃ g, (build tangle.source).value = .ok g ∧ g.postOrder = [⟨4⟩, ⟨2⟩, ⟨3⟩, ⟨1⟩] ∧
      (∃ l, Path (tangle.source.Follows .standard) ⟨1⟩ ⟨4⟩ l) ∧
      ¬ ∃ l, Path (tangle.source.Follows .standard) ⟨1⟩ ⟨5⟩ l := by
  obtain ⟨g, hg, hd⟩ : ∃ g, (build tangle.source).value = .ok g ∧
      g.postOrder = [⟨4⟩, ⟨2⟩, ⟨3⟩, ⟨1⟩] := exists_of_map_build (by cbv)
  obtain ⟨hpath, -⟩ := postOrder_of_build tangle.consistent_source hg
  rw [hd] at hpath
  exact ⟨tangle.consistent_source, g, hg, hd, (hpath ⟨4⟩).1 (by decide),
    fun h => absurd ((hpath ⟨5⟩).2 h) (by decide)⟩

end Graph

end FlowGraph
