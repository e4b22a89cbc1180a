import FlowGraph.Proofs.Edges
import FlowGraph.Proofs.Placement
/-!
# Declarations in continue blocks

A lift looks for a branch to a block of greater rank. The traversal has sorted
the branches by what was on its path when it followed them. The two agree: a
branch to another block is a back edge exactly if it leads to the greater rank
(`branchesBack_iff`). So a declaration is lifted exactly when its block branches
back to another block, and once that is done no branch leads up from it
(`lift_after`).
-/

namespace FlowGraph

namespace Graph

variable {src : Source} {opts : Options} {g : Graph} {d t : BlockId}

/-! ## Branches and ranks -/

/-- A branch of `d` to another block is a back edge. -/
def BranchesBack (g : Graph) (src : Source) (d : BlockId) : Prop :=
  ∃ t, t ≠ d ∧ src.Branches d t ∧ ⟨d, t⟩ ∈ g.backEdges

instance (g : Graph) (src : Source) (d : BlockId) : Decidable (g.BranchesBack src d) :=
  decidable_of_iff (∃ e ∈ g.backEdges, e.source = d ∧ e.target ≠ d ∧ src.Branches d e.target) (by
    constructor
    · rintro ⟨e, he, rfl, hne, ht⟩
      exact ⟨e.target, hne, ht, he⟩
    · rintro ⟨t, hne, ht, hback⟩
      exact ⟨⟨d, t⟩, hback, rfl, hne, ht⟩)

section
variable (h : (build src opts).value = .ok g) (hd : g.isReachable d)
include h hd

theorem isReachable_of_branches (ht : src.Branches d t) : g.isReachable t := by
  obtain ⟨r, hr⟩ := isReachable_iff.1 hd
  have ha := Traversal.accounts_of_run (run_of_build h).2
  exact isReachable_iff.2 (ha.rank_of_follows d t r hr ht.follows)

theorem rankLt_trichotomy_of_branches (ht : src.Branches d t) :
    g.RankLt t d ∨ t = d ∨ g.RankLt d t :=
  rankLt_trichotomy (Traversal.postOrdered_of_run (run_of_build h).2) (isReachable_of_branches h hd ht) hd

/-- Branching back to another block is branching up in rank. -/
theorem branchesBack_iff : g.BranchesBack src d ↔ ∃ t, src.Branches d t ∧ g.RankLt d t := by
  constructor
  · rintro ⟨t, hne, ht, hback⟩
    rw [mem_backEdges_iff_of_follows h hd ht.follows] at hback
    rcases rankLt_trichotomy_of_branches h hd ht with hlt | heq | hlt
    · exact absurd hlt hback
    · exact absurd heq hne
    · exact ⟨t, ht, hlt⟩
  · rintro ⟨t, ht, hlt⟩
    exact ⟨t, hlt.ne.symm, ht, (mem_backEdges_iff_of_follows h hd ht.follows).2 hlt.asymm⟩

theorem rankLt_of_not_branchesBack (hn : ¬ g.BranchesBack src d) (ht : src.Branches d t) :
    t = d ∨ g.RankLt t d := by
  rcases rankLt_trichotomy_of_branches h hd ht with hlt | heq | hlt
  · exact .inr hlt
  · exact .inl heq
  · exact absurd ((branchesBack_iff h hd).2 ⟨t, ht, hlt⟩) hn

end

theorem not_branchesBack_entry (hs : src.Consistent) (h : (build src opts).value = .ok g) :
    ¬ g.BranchesBack src g.entry := by
  obtain ⟨hl, -, -⟩ := lawful_of_build hs h
  rw [branchesBack_iff h hl.isReachable_entry]
  rintro ⟨t, -, hlt⟩
  exact not_rankLt_root hl.ordered hlt

end Graph

namespace Placement

open FlowGraph.Graph

variable {src : Source} {opts : Options} {g : Graph} {p : Placement} {d : BlockId}
  {uses : List BlockId}

/-! ## One lift -/

theorem anyAbove_eq_ok {r : Nat} (hd : g.rank? d = some r) (targets : List BlockId)
    (ht : ∀ t ∈ targets, g.isReachable t) :
    anyAbove g r targets = .ok (targets.any (g.RankLt d ·)) := by
  induction targets with
  | nil => rfl
  | cons t targets ih =>
    rw [List.forall_mem_cons] at ht
    obtain ⟨q, hq⟩ := isReachable_iff.1 ht.1
    simp only [anyAbove, hq, ih ht.2, Except.map, List.any_cons, rankLt_iff hd hq]

theorem isContinue_eq_ok (h : (build src opts).value = .ok g) (hd : g.isReachable d) :
    ∃ above, isContinue g src.block d = .ok above ∧ (above ↔ g.BranchesBack src d) := by
  obtain ⟨r, hr⟩ := isReachable_iff.1 hd
  obtain ⟨block, hb, -⟩ := sortsExits_of_build h hd
  have ht : ∀ t ∈ block.successors, g.isReachable t :=
    fun t ht => isReachable_of_branches h hd ⟨block, hb, ht⟩
  refine ⟨block.successors.any (g.RankLt d ·), ?_, ?_⟩
  · unfold isContinue View.resolve
    simp only [hr, hb]
    exact anyAbove_eq_ok hr block.successors ht
  · rw [branchesBack_iff h hd, List.any_eq_true]
    simp [Source.Branches, hb]

theorem lift_of_branchesBack (h : (build src opts).value = .ok g) (hp : p.point = some d)
    (hd : g.isReachable d) (hb : g.BranchesBack src d) :
    p.lift g src.block = ⟨.ok ⟨some g.entry⟩, #[.lifted d g.entry]⟩ := by
  obtain ⟨above, hc, hiff⟩ := isContinue_eq_ok h hd
  rw [hiff.2 hb] at hc
  simp only [lift, hp, hc]

theorem lift_of_not_branchesBack (h : (build src opts).value = .ok g)
    (hp : ∀ d, p.point = some d → g.isReachable d ∧ ¬ g.BranchesBack src d) :
    p.lift g src.block = ⟨.ok p, #[]⟩ := by
  unfold lift
  split
  · rfl
  next d hpoint =>
  obtain ⟨hd, hn⟩ := hp d hpoint
  obtain ⟨above, hc, hiff⟩ := isContinue_eq_ok h hd
  cases above with
  | true => exact absurd (hiff.1 rfl) hn
  | false => simp only [hc]

/-! ## After a run -/

/-- The placement needs no lift: every branch of the block that it holds leads to
the block itself or down in rank. That block dominates all reachable uses. -/
structure Settled (g : Graph) (src : Source) (p : Placement) (uses : List BlockId) : Prop where
  branches : ∀ d t, p.point = some d → src.Branches d t → t = d ∨ g.RankLt t d
  lift_eq : p.lift g src.block = ⟨.ok p, #[]⟩
  dominates : ∀ b ∈ uses, g.isReachable b → ∃ d, p.point = some d ∧ g.dominates d b

theorem Covers.settled (hl : g.Lawful) (h : (build src opts).value = .ok g) (hp : Covers g p uses)
    (hn : ∀ d, p.point = some d → ¬ g.BranchesBack src d) : Settled g src p uses where
  branches d t hd ht := rankLt_of_not_branchesBack h (hp.isReachable hl hd) (hn d hd) ht
  lift_eq := lift_of_not_branchesBack h fun d hd => ⟨hp.isReachable hl hd, hn d hd⟩
  dominates b hb hr := by
    have hsome : p.point ≠ none := fun hnone => (hp.point_eq_none_iff.1 hnone) b hb hr
    obtain ⟨d, hd⟩ := Option.ne_none_iff_exists'.1 hsome
    exact ⟨d, hd, hp.dominates d hd b hb hr⟩

/-- Whatever calls were made on a new placement, a lift that sees the blocks of the
graph succeeds. It moves the declaration to the entry, and logs so, exactly when
the block that holds it branches back to another block. Nothing is left to lift
then, and the declaration still dominates all reachable uses. -/
theorem lift_after (hs : src.Consistent) (h : (build src opts).value = .ok g) (calls : List Call) :
    (∀ d, (after g {} calls).point = some d → g.BranchesBack src d →
      (after g {} calls).lift g src.block = ⟨.ok ⟨some g.entry⟩, #[.lifted d g.entry]⟩ ∧
        d ≠ g.entry) ∧
    ((∀ d, (after g {} calls).point = some d → ¬ g.BranchesBack src d) →
      (after g {} calls).lift g src.block = ⟨.ok (after g {} calls), #[]⟩) ∧
    ∃ q, ((after g {} calls).lift g src.block).value = .ok q ∧ Settled g src q (usesOf calls) := by
  obtain ⟨hl, -, -⟩ := lawful_of_build hs h
  have hc : Covers g (after g {} calls) (usesOf calls) := after_covers hl calls {} [] covers_new
  generalize after g {} calls = p at hc ⊢
  have hentry := not_branchesBack_entry hs h
  have hlifted : ∀ d, p.point = some d → g.BranchesBack src d →
      p.lift g src.block = ⟨.ok ⟨some g.entry⟩, #[.lifted d g.entry]⟩ :=
    fun d hd hb => lift_of_branchesBack h hd (hc.isReachable hl hd) hb
  refine ⟨fun d hd hb => ⟨hlifted d hd hb, ?_⟩, fun hn => (hc.settled hl h hn).lift_eq, ?_⟩
  · rintro rfl
    exact hentry hb
  by_cases hback : ∃ d, p.point = some d ∧ g.BranchesBack src d
  · obtain ⟨d, hd, hb⟩ := hback
    have hmoved := hc.entry hl (by rw [hd]; exact Option.some_ne_none d)
    refine ⟨⟨some g.entry⟩, by rw [hlifted d hd hb], hmoved.settled hl h ?_⟩
    rintro _ ⟨⟩
    exact hentry
  · have hkept := hc.settled hl h fun d hd hb => hback ⟨d, hd, hb⟩
    exact ⟨p, by rw [hkept.lift_eq], hkept⟩

/-- Block 7 of `loopInLoop` branches back to block 3. In `tangle` the back edge
from block 2 was followed for a merge, and the one from block 3 leads to itself. -/
theorem lift_after_loopInLoop : loopInLoop.source.Consistent ∧ tangle.source.Consistent ∧
    (∃ g, (build loopInLoop.source).value = .ok g ∧ g.BranchesBack loopInLoop.source ⟨7⟩ ∧
      (after g {} [.add ⟨7⟩]).lift g loopInLoop.source.block =
        ⟨.ok ⟨some ⟨1⟩⟩, #[.lifted ⟨7⟩ ⟨1⟩]⟩) ∧
    ∃ g, (build tangle.source).value = .ok g ∧ ⟨⟨2⟩, ⟨1⟩⟩ ∈ g.backEdges ∧ ⟨⟨3⟩, ⟨3⟩⟩ ∈ g.backEdges ∧
      (after g {} [.add ⟨2⟩]).lift g tangle.source.block = ⟨.ok ⟨some ⟨2⟩⟩, #[]⟩ ∧
      (after g {} [.add ⟨3⟩]).lift g tangle.source.block = ⟨.ok ⟨some ⟨3⟩⟩, #[]⟩ := by
  obtain ⟨g, hg, hd⟩ : ∃ g, (build loopInLoop.source).value = .ok g ∧
      (g.entry, decide (g.BranchesBack loopInLoop.source ⟨7⟩), after g {} [.add ⟨7⟩]) =
        (⟨1⟩, true, ⟨some ⟨7⟩⟩) := exists_of_map_build (by cbv)
  obtain ⟨g', hg', hd'⟩ : ∃ g, (build tangle.source).value = .ok g ∧
      (g.backEdges, decide (g.BranchesBack tangle.source ⟨2⟩), after g {} [.add ⟨2⟩],
        decide (g.BranchesBack tangle.source ⟨3⟩), after g {} [.add ⟨3⟩]) =
        ([⟨⟨2⟩, ⟨1⟩⟩, ⟨⟨3⟩, ⟨3⟩⟩, ⟨⟨1⟩, ⟨1⟩⟩], false, ⟨some ⟨2⟩⟩, false, ⟨some ⟨3⟩⟩) :=
    exists_of_map_build (by cbv)
  simp only [Prod.mk.injEq, decide_eq_true_eq, decide_eq_false_iff_not] at hd hd'
  obtain ⟨he, hb, h7⟩ := hd
  obtain ⟨hback, hn2, h2, hn3, h3⟩ := hd'
  refine ⟨loopInLoop.consistent_source, tangle.consistent_source, ⟨g, hg, hb, ?_⟩,
    g', hg', by simp [hback], by simp [hback], ?_, ?_⟩
  · obtain ⟨hlift, -⟩ := lift_after loopInLoop.consistent_source hg [.add ⟨7⟩]
    rw [(hlift ⟨7⟩ (by rw [h7]) hb).1, he]
  · obtain ⟨-, hkeep, -⟩ := lift_after tangle.consistent_source hg' [.add ⟨2⟩]
    rw [h2] at hkeep ⊢
    exact hkeep (by rintro _ ⟨⟩; exact hn2)
  · obtain ⟨-, hkeep, -⟩ := lift_after tangle.consistent_source hg' [.add ⟨3⟩]
    rw [h3] at hkeep ⊢
    exact hkeep (by rintro _ ⟨⟩; exact hn3)

end Placement

end FlowGraph
