import FlowGraph.Proofs.BranchOrder
import FlowGraph.Proofs.Placement
/-!
# What follows a loop

The edge from a loop header to its merge block keeps what is declared for the
code after a loop out of the loop: whatever else dominates the merge block
dominates the header (`mergeEdge_of_build`). Following merges adds edges, which
only takes dominators away, so declarations move up (`dominates_of_followMerges`).
The edges recorded with and without merges may differ in both directions, since
the traversal takes another course. The argument is therefore about all edges
that are followed, and needs a reducible graph.
-/

namespace FlowGraph

theorem Source.Follows.followMerges {src : Source} {opts : Options} {u v : BlockId}
    (h : src.Follows { opts with followMerges := false } u v) :
    src.Follows { opts with followMerges := true } u v := by
  obtain ⟨block, hb, hv⟩ := h
  refine ⟨block, hb, List.mem_append_left _ ?_⟩
  simpa [Block.followed] using hv

namespace Graph

variable {src src' : Source} {opts opts' : Options} {g g' : Graph} {a b h m : BlockId}

/-! ## Dominators of a merge block -/

/-- The edge from a loop header `h` to its merge block `m` takes care that what
dominates `m` dominates `h`, `m` itself apart. The header is the immediate
dominator of `m` if all ways to `m` lead through it. A placement with `m` among
its uses and a use that `m` does not dominate is at `h` or above. -/
theorem mergeEdge_of_build (hs : src.Consistent) (hb : (build src opts).value = .ok g)
    (he : ⟨h, m⟩ ∈ g.mergeEdges) :
    (∀ a, a ≠ m → g.dominates a m → g.dominates a h) ∧
    (g.idom? m = some h ↔ ∀ p ∈ g.preds m, g.dominates h p) ∧
    ∀ calls : List Placement.Call, m ∈ Placement.usesOf calls →
      (∃ b ∈ Placement.usesOf calls, g.isReachable b ∧ ¬ g.dominates m b) →
        ∃ d, (Placement.after g {} calls).point = some d ∧ g.dominates d h := by
  obtain ⟨hl, -, ha⟩ := lawful_of_build hs hb
  have hrec : g.Recorded h m := ha.mem_succs_of_mergeEdge _ (Array.mem_toList_iff.1 he)
  obtain ⟨hh, hm⟩ := hl.isReachable_of_recorded hrec
  have hne : m ≠ g.entry := hl.ne_entry_of_recorded hrec
  have hhm : h ≠ m := (rankLt_of_recorded hl.ordered hrec).ne.symm
  have hup : ∀ a, a ≠ m → g.dominates a m → g.dominates a h :=
    fun a ham hd => hl.dominates_source hrec hd ham
  refine ⟨hup, ?_, fun calls hmem ⟨b, hbmem, hbr, hbm⟩ => ?_⟩
  · rw [hl.idom?_eq_some_iff hm hne]
    constructor
    · rintro ⟨hd, -, -⟩
      exact ((hl.dominates_iff_of_ne hm hne).1 hd).resolve_left hhm
    · intro hall
      exact ⟨(hl.dominates_iff_of_ne hm hne).2 (.inr hall), hhm, hup⟩
  · have hcov := Placement.after_covers hl calls {} [] Placement.covers_new
    rw [List.nil_append] at hcov
    have hsome : (Placement.after g {} calls).point ≠ none :=
      fun hn => hcov.point_eq_none_iff.1 hn m hmem hm
    obtain ⟨d, hd⟩ := Option.ne_none_iff_exists'.1 hsome
    refine ⟨d, hd, hup d ?_ (hcov.dominates d hd m hmem hm)⟩
    rintro rfl
    exact hbm (hcov.dominates d hd b hbmem hbr)

theorem mergeEdge_of_build_loopInLoop : loopInLoop.source.Consistent ∧
    ∃ g, (build loopInLoop.source).value = .ok g ∧
      ⟨⟨3⟩, ⟨6⟩⟩ ∈ g.mergeEdges ∧ g.idom? ⟨6⟩ = some ⟨3⟩ ∧ g.isReachable ⟨7⟩ ∧ ¬ g.dominates ⟨6⟩ ⟨7⟩ ∧
      ∃ d, (Placement.after g {} [.addAll [⟨6⟩, ⟨7⟩]]).point = some d ∧ g.dominates d ⟨3⟩ := by
  obtain ⟨g, hg, hd⟩ : ∃ g, (build loopInLoop.source).value = .ok g ∧
      (decide (⟨⟨3⟩, ⟨6⟩⟩ ∈ g.mergeEdges), decide (∀ p ∈ g.preds ⟨6⟩, g.dominates ⟨3⟩ p),
        g.isReachable ⟨7⟩, g.dominates ⟨6⟩ ⟨7⟩) = (true, true, true, false) :=
    exists_of_map_build (by cbv)
  simp only [Prod.mk.injEq, decide_eq_true_eq] at hd
  obtain ⟨he, hp, hr, hn⟩ := hd
  have hn : ¬ g.dominates ⟨6⟩ ⟨7⟩ := by simp [hn]
  obtain ⟨-, hidom, hpoint⟩ := mergeEdge_of_build loopInLoop.consistent_source hg he
  refine ⟨loopInLoop.consistent_source, g, hg, he, hidom.2 hp, hr, hn, ?_⟩
  exact hpoint [.addAll [⟨6⟩, ⟨7⟩]] (by decide) ⟨⟨7⟩, by decide, hr, hn⟩

/-! ## More edges, fewer dominators -/

section
variable (hs : src.Consistent) (hs' : src'.Consistent) (hentry : src'.entry = src.entry)
  (hfollows : ∀ u v, src'.Follows opts' u v → src.Follows opts u v)
  (hg : (build src opts).value = .ok g) (hg' : (build src' opts').value = .ok g')
include hs hs' hentry hfollows hg hg'

theorem isReachable_of_follows (hb : g'.isReachable b) : g.isReachable b := by
  rw [isReachable_iff_path hs' hg', hentry] at hb
  rw [isReachable_iff_path hs hg]
  obtain ⟨l, hp⟩ := hb
  exact ⟨l, hp.mono hfollows⟩

/-- In a reducible graph a dominator is on every path of followed edges, and so
on the recorded paths of any graph with fewer of them. -/
theorem Reducible.dominates_of_follows (hr : g.Reducible) (hb : g'.isReachable b)
    (hd : g.dominates a b) : g'.dominates a b := by
  obtain ⟨hl, he, ha⟩ := lawful_of_build hs hg
  obtain ⟨hl', he', ha'⟩ := lawful_of_build hs' hg'
  rw [hl'.dominates_iff_onEveryPath hb]
  intro l hp
  have hp' : Path (g.Followed src opts) g.entry b l := by
    rw [he, ← hentry, ← he']
    refine hp.mono fun u v huv => ?_
    obtain ⟨hu, hv⟩ := hl'.isReachable_of_recorded huv
    have hf := ((followed_iff hl' ha').2 (.inl huv)).2.2
    exact ⟨isReachable_of_follows hs hs' hentry hfollows hg hg' hu,
      isReachable_of_follows hs hs' hentry hfollows hg hg' hv, hfollows u v hf⟩
  exact hr.mem_of_path hl ha hp' a hd

end

/-- Following merges only moves declarations up. If the graph with merges is
reducible, its dominators are dominators without them, and the nearest common
dominator with merges dominates the one without. -/
theorem dominates_of_followMerges (hs : src.Consistent) (opts : Options)
    (hg : (build src { opts with followMerges := true }).value = .ok g)
    (hg' : (build src { opts with followMerges := false }).value = .ok g') (hr : g.Reducible) :
    (∀ b, g'.isReachable b → g.isReachable b) ∧
    (∀ a b, g'.isReachable b → g.dominates a b → g'.isReachable a ∧ g'.dominates a b) ∧
    ∀ a b, g'.isReachable a → g'.isReachable b →
      ∃ c c', g.commonDominator a b = .ok c ∧ g'.commonDominator a b = .ok c' ∧ g'.dominates c c' := by
  obtain ⟨hl, -, -⟩ := lawful_of_build hs hg
  obtain ⟨hl', -, -⟩ := lawful_of_build hs hg'
  have hreach : ∀ b, g'.isReachable b → g.isReachable b :=
    fun b hb => isReachable_of_follows hs hs rfl (fun _ _ => .followMerges) hg hg' hb
  have hdom : ∀ a b, g'.isReachable b → g.dominates a b → g'.dominates a b :=
    fun a b hb hd => hr.dominates_of_follows hs hs rfl (fun _ _ => .followMerges) hg hg' hb hd
  refine ⟨hreach, fun a b hb hd => ?_, fun a b ha hb => ?_⟩
  · have hd' := hdom a b hb hd
    exact ⟨(hl'.isReachable_of_dominates hd').1, hd'⟩
  · obtain ⟨c, hc, hcr, hm⟩ := hl.exists_meet (hreach a ha) (hreach b hb)
    obtain ⟨c', hc', -, hm'⟩ := hl'.exists_meet ha hb
    obtain ⟨hca, hcb⟩ := (hm c).1 (hl.dominates_self hcr)
    exact ⟨c, c', hc, hc', (hm' c).2 ⟨hdom c a ha hca, hdom c b hb hcb⟩⟩

/-- A loop that is left from the block after its header. -/
def lateExit : Body := .ofList ⟨1⟩ [
  (⟨1⟩, ⟨.direct ⟨2⟩, .none⟩),
  (⟨2⟩, ⟨.direct ⟨3⟩, .loop ⟨5⟩⟩),
  (⟨3⟩, ⟨.select ⟨4⟩ ⟨5⟩, .none⟩),
  (⟨4⟩, ⟨.direct ⟨2⟩, .none⟩),
  (⟨5⟩, ⟨.ret, .none⟩)]

theorem dominates_of_followMerges_lateExit : lateExit.source.Consistent ∧
    ∃ g g', (build lateExit.source).value = .ok g ∧
      (build lateExit.source .literal).value = .ok g' ∧ g.Reducible ∧
      g.commonDominator ⟨4⟩ ⟨5⟩ = .ok ⟨2⟩ ∧ g'.commonDominator ⟨4⟩ ⟨5⟩ = .ok ⟨3⟩ ∧
      g'.dominates ⟨2⟩ ⟨3⟩ := by
  obtain ⟨g, hg, hd⟩ : ∃ g, (build lateExit.source).value = .ok g ∧
      (decide g.Reducible, g.commonDominator ⟨4⟩ ⟨5⟩) = (true, .ok ⟨2⟩) :=
    exists_of_map_build (by cbv)
  obtain ⟨g', hg', hd'⟩ : ∃ g, (build lateExit.source .literal).value = .ok g ∧
      (g.commonDominator ⟨4⟩ ⟨5⟩, g.isReachable ⟨4⟩, g.isReachable ⟨5⟩) = (.ok ⟨3⟩, true, true) :=
    exists_of_map_build (by cbv)
  obtain ⟨hr, hc⟩ := Prod.mk.inj hd
  simp only [Prod.mk.injEq] at hd'
  obtain ⟨hc', ha, hb⟩ := hd'
  have hr := of_decide_eq_true hr
  obtain ⟨-, -, hmeet⟩ :=
    dominates_of_followMerges lateExit.consistent_source .standard hg hg' hr
  obtain ⟨c, c', hm, hm', hd⟩ := hmeet _ _ ha hb
  rw [hc] at hm
  rw [hc'] at hm'
  cases hm
  cases hm'
  exact ⟨lateExit.consistent_source, g, g', hg, hg', hr, hc, hc', hd⟩

end Graph

end FlowGraph
