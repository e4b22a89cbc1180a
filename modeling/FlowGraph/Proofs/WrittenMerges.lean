import FlowGraph.Proofs.LoopExit
import FlowGraph.Proofs.WrittenMerges.Traversal
/-!
# Following merges is branching to them

Whether the merge block of a loop is reached because merges are followed or
because the header branches there makes no difference to a graph: the blocks, the
edges and the dominators are the same, and so is the error if there is one. Only
the list of merge edges is empty where none is followed, and the other graph tells
which edges would be on it (`outcome_of_writesMerges`).
-/

namespace FlowGraph.Graph

variable {src src' : Source} {opts : Options} {g g' : Graph}

/-- The graph, without the edges that were noted for a merge. -/
def plain (g : Graph) : Graph := { g with traversal := g.traversal.plain }

/-! ## The pass over the dominators -/

theorem climb_plain (g : Graph) (budget : Nat) :
    ∀ a b, g.plain.climb budget a b = g.climb budget a b := by
  induction budget with
  | zero => exact fun _ _ => rfl
  | succ budget ih =>
    intro a b
    have hrank : g.plain.dominatedRank = g.dominatedRank := rfl
    have hstep : g.plain.stepUp = g.stepUp := rfl
    simp only [climb, hrank, hstep, ih]

theorem commonDominator_plain (g : Graph) : g.plain.commonDominator = g.commonDominator := by
  funext a b
  exact climb_plain g _ a b

theorem assignDominator_plain (g : Graph) (b : BlockId) :
    g.plain.assignDominator b = (g.assignDominator b).map plain := by
  have hentry : g.plain.entry = g.entry := rfl
  have hpreds : g.plain.preds b = g.preds b := rfl
  have hidom : g.plain.idom? = g.idom? := rfl
  unfold assignDominator
  rw [hentry, hpreds, commonDominator_plain]
  split
  · rfl
  split
  · rfl
  next p preds _ =>
  rw [hidom]
  split
  · rfl
  · cases preds.foldlM g.commonDominator p <;> rfl

theorem foldlM_assignDominator_plain (l : List BlockId) :
    ∀ g : Graph, l.foldlM assignDominator g.plain = (l.foldlM assignDominator g).map plain := by
  induction l with
  | nil => exact fun _ => rfl
  | cons b l ih =>
    intro g
    rw [List.foldlM_cons, List.foldlM_cons, assignDominator_plain]
    cases g.assignDominator b with
    | error e => rfl
    | ok g₁ => exact ih g₁

theorem assignDominators_plain (g : Graph) :
    g.plain.assignDominators = g.assignDominators.map plain :=
  foldlM_assignDominator_plain g.reversePostOrder g

theorem ofFound_plain (entry : BlockId) (found : Logged (Except Error Traversal)) :
    ofFound entry (found.plain Traversal.plain) = (ofFound entry found).plain plain := by
  obtain ⟨value, events⟩ := found
  cases value with
  | error e => rfl
  | ok t =>
    have hpass := assignDominators_plain (single entry t)
    have hsingle : (single entry t).plain = single entry t.plain := rfl
    simp only [ofFound, Logged.plain, Except.map, ← hsingle, hpass]
    cases assignDominators (single entry t) with
    | error e => rfl
    | ok g =>
      simp only [filterMap_plain_push]
      rfl

/-! ## Whole builds -/

/-- Building with merges written out is the plain build with merges followed. -/
theorem build_plain (hsrc : src.WritesMerges src') (opts : Options) :
    build src' { opts with followMerges := false } =
      (build src { opts with followMerges := true }).plain plain := by
  rw [build, build, hsrc.entry, Traversal.run_plain hsrc, ofFound_plain]

/-- The merge edges are the recorded edges from a loop header to its merge block. -/
theorem mem_mergeEdges_iff (h : (build src { opts with followMerges := true }).value = .ok g)
    {u m : BlockId} :
    ⟨u, m⟩ ∈ g.mergeEdges ↔
      g.isReachable u ∧ src.block.merge? u = some (.loop m) ∧ g.Recorded u m := by
  have ho := Traversal.postOrdered_of_run (run_of_build h).2
  constructor
  · intro he
    obtain ⟨hm, hrec⟩ := merge?_of_mergeEdge h he
    exact ⟨(rankLt_of_recorded ho hrec).isReachable_right, hm, hrec⟩
  · rintro ⟨hu, hm, hrec⟩
    obtain ⟨block, hb, hsorts⟩ := sortsExits_of_build h hu
    rw [View.merge?_of_eq_some hb, Option.some.injEq] at hm
    have hcount := hsorts.mergeEdges m
    rw [if_pos ⟨rfl, hm, rankLt_of_recorded ho hrec⟩] at hcount
    exact List.count_pos_iff.1 (by omega)

/-- Following merges and branching to them come to the same: the same error, or
graphs with the same blocks in the same order, the same edges in the same order and
the same dominators. The logs differ in what they say of merges. No edge of the
second graph is noted for a merge, and in the first the noted edges are those from
a loop header to its merge block that the second one has. -/
theorem outcome_of_writesMerges (hsrc : src.WritesMerges src') (opts : Options) :
    (build src' { opts with followMerges := false }).events =
      (build src { opts with followMerges := true }).events.filterMap Event.plain ∧
    (∀ e, (build src' { opts with followMerges := false }).value = .error e ↔
      (build src { opts with followMerges := true }).value = .error e) ∧
    ∀ g, (build src { opts with followMerges := true }).value = .ok g →
      ∃ g', (build src' { opts with followMerges := false }).value = .ok g' ∧
        g'.entry = g.entry ∧ g'.postOrder = g.postOrder ∧ g'.rank? = g.rank? ∧
        g'.preds = g.preds ∧ g'.succs = g.succs ∧ g'.backEdges = g.backEdges ∧
        g'.idom? = g.idom? ∧ g'.mergeEdges = [] ∧
        ∀ u m, ⟨u, m⟩ ∈ g.mergeEdges ↔
          g'.isReachable u ∧ src.block.merge? u = some (.loop m) ∧ m ∈ g'.succs u := by
  rw [build_plain hsrc]
  refine ⟨rfl, fun e => ?_, fun g hg => ⟨g.plain, ?_, rfl, rfl, rfl, rfl, rfl, rfl, rfl, rfl, fun u m => ?_⟩⟩
  · simp only [Logged.plain]
    cases (build src { opts with followMerges := true }).value with
    | error e' => exact Iff.rfl
    | ok g => exact ⟨nofun, nofun⟩
  · rw [Logged.plain, hg]
    rfl
  · exact mem_mergeEdges_iff hg

/-- In `tangle` one merge block is on the path when it is followed and one is done. -/
theorem outcome_of_tangle_writeMerges :
    tangle.source.WritesMerges tangle.writeMerges.source ∧
    dangling.source.WritesMerges dangling.writeMerges.source ∧
    (build dangling.writeMerges.source .literal).value = .error (.unknown ⟨3⟩) ∧
    ∃ g g', (build tangle.source).value = .ok g ∧
      (build tangle.writeMerges.source .literal).value = .ok g' ∧
      g'.backEdges = [⟨⟨2⟩, ⟨1⟩⟩, ⟨⟨3⟩, ⟨3⟩⟩, ⟨⟨1⟩, ⟨1⟩⟩] ∧
      g.mergeEdges = [⟨⟨3⟩, ⟨4⟩⟩] ∧ g'.mergeEdges = [] ∧ ⟨4⟩ ∈ g'.succs ⟨3⟩ := by
  have htangle := tangle.writesMerges_writeMerges
  have hdangling := dangling.writesMerges_writeMerges
  have he : (build dangling.source).value = .error (.unknown ⟨3⟩) := by cbv
  obtain ⟨g, hg, hd⟩ : ∃ g, (build tangle.source).value = .ok g ∧
      (g.backEdges, g.mergeEdges) =
        ([⟨⟨2⟩, ⟨1⟩⟩, ⟨⟨3⟩, ⟨3⟩⟩, ⟨⟨1⟩, ⟨1⟩⟩], [⟨⟨3⟩, ⟨4⟩⟩]) := exists_of_map_build (by cbv)
  obtain ⟨hback, hmerge⟩ := Prod.mk.inj hd
  obtain ⟨-, herror, -⟩ := outcome_of_writesMerges hdangling .standard
  obtain ⟨-, -, hgraph⟩ := outcome_of_writesMerges htangle .standard
  obtain ⟨g', hg', -, -, -, -, -, hback', -, hnone, hiff⟩ := hgraph g hg
  have hedge := ((hiff ⟨3⟩ ⟨4⟩).1 (by simp [hmerge])).2.2
  exact ⟨htangle, hdangling, (herror _).2 he, g, g', hg, hg', hback'.trans hback, hmerge, hnone, hedge⟩

end FlowGraph.Graph
