import FlowGraph.Proofs.Graph.Build
/-!
# What dominance means

The dominator queries answer questions about paths of recorded edges
(`dominators_of_build`). Back edges are not recorded, but paths along them are
covered too: dominance can only miss blocks there, and misses none when every
back edge leads to a dominator of its source (`dominates_of_followed`).
-/

namespace FlowGraph.Graph

variable {src : Source} {opts : Options} {g : Graph} {a b d u v : BlockId}

/-! ## Paths of recorded edges -/

/-- What the immediate dominator of a block is among its strict dominators. -/
theorem Lawful.idom_of_ne_entry (hl : g.Lawful) (hb : g.isReachable b) (he : b ≠ g.entry) :
    ∃ d, g.idom? b = some d ∧ g.RankLt b d ∧ OnEveryPath g.Recorded g.entry d b ∧
      ∀ a, a ≠ b → OnEveryPath g.Recorded g.entry a b → OnEveryPath g.Recorded g.entry a d := by
  obtain ⟨d, hd⟩ := Option.isSome_iff_exists.1 ((hl.isSome_iff b).2 hb)
  obtain ⟨hs, hlt⟩ := hl.tree.up b d hd he
  have hmem : ∀ a, OnEveryPath g.Recorded g.entry a b ↔ a = b ∨ OnEveryPath g.Recorded g.entry a d := by
    intro a
    rw [← hl.mem_dominators_iff a b hb, dominators_of_up hl.tree hd he, List.mem_cons,
      hl.mem_dominators_iff a d hlt.isReachable_right]
  exact ⟨d, hd, hlt, (hmem d).2 (.inr .target), fun a ha h => ((hmem a).1 h).resolve_left ha⟩

namespace Lawful

theorem ne_entry_of_recorded (hl : g.Lawful) (he : g.Recorded u v) : v ≠ g.entry := by
  rintro rfl
  have hlt := rankLt_of_recorded hl.ordered he
  rcases hl.rankLt_of_dominates (hl.entry_dominates hlt.isReachable_right) with rfl | hlt'
  · exact hlt.irrefl
  · exact hlt.asymm hlt'

theorem dominates_iff_of_ne (hl : g.Lawful) (hb : g.isReachable b) (hne : b ≠ g.entry) :
    g.dominates a b ↔ a = b ∨ ∀ p ∈ g.preds b, g.dominates a p := by
  rw [hl.dominates_iff_onEveryPath hb, onEveryPath_iff_of_ne hne]
  refine or_congr_right (forall_congr' fun p => ?_)
  rw [← recorded_iff_mem_preds hl.ordered]
  refine forall_congr' fun he => ?_
  rw [hl.dominates_iff_onEveryPath (hl.isReachable_of_recorded he).1]

/-- The immediate dominator is the strict dominator that all others dominate. -/
theorem idom?_eq_some_iff (hl : g.Lawful) (hb : g.isReachable b) (hne : b ≠ g.entry) :
    g.idom? b = some d ↔
      g.dominates d b ∧ d ≠ b ∧ ∀ a, a ≠ b → g.dominates a b → g.dominates a d := by
  obtain ⟨d', hd', hlt, hp, hn⟩ := hl.idom_of_ne_entry hb hne
  have hdom : g.dominates d' b := (hl.dominates_iff_onEveryPath hb).2 hp
  have hnear : ∀ a, a ≠ b → g.dominates a b → g.dominates a d' := by
    intro a hab ha
    rw [hl.dominates_iff_onEveryPath hb] at ha
    rw [hl.dominates_iff_onEveryPath hlt.isReachable_right]
    exact hn a hab ha
  constructor
  · intro hd
    rw [hd'] at hd
    cases hd
    exact ⟨hdom, hlt.ne.symm, hnear⟩
  · rintro ⟨hd, hdb, hall⟩
    rw [hd', hl.dominates_antisymm (hall d' hlt.ne.symm hdom) (hnear d hdb hd)]

end Lawful

/-- In the graph of a source whose traversal starts at the entry, the reachable
blocks are those with an immediate dominator, `dominates` says whether a block
is on every path of recorded edges from the entry to another, the immediate
dominator is the nearest of these blocks, and `dominators` lists them up to the
entry. -/
theorem dominators_of_build (hs : src.Consistent) (h : (build src opts).value = .ok g) :
    (g.entry = src.entry ∧ ∀ b, ((g.idom? b).isSome ↔ b ∈ g.postOrder) ∧
      (b ∈ g.postOrder ↔ g.isReachable b) ∧ (g.isReachable b ↔ ∃ l, Path g.Recorded g.entry b l)) ∧
    (∀ a b, g.dominates a b ↔
      g.isReachable a ∧ g.isReachable b ∧ OnEveryPath g.Recorded g.entry a b) ∧
    (g.idom? g.entry = some g.entry ∧ ∀ b, g.isReachable b → b ≠ g.entry →
      ∃ d, g.idom? b = some d ∧ d ≠ b ∧ g.RankLt b d ∧ OnEveryPath g.Recorded g.entry d b ∧
        ∀ a, a ≠ b → OnEveryPath g.Recorded g.entry a b → OnEveryPath g.Recorded g.entry a d) ∧
    (∀ b, g.isReachable b →
      (∀ a, a ∈ g.dominators b ↔ OnEveryPath g.Recorded g.entry a b) ∧ (g.dominators b).Nodup ∧
      (g.dominators b).Pairwise g.RankLt ∧ (g.dominators b).head? = some b ∧
      (g.dominators b).getLast? = some g.entry) ∧
    (∀ b, ¬ g.isReachable b → g.dominators b = []) := by
  obtain ⟨hl, he, -⟩ := lawful_of_build hs h
  have hpost : ∀ b, b ∈ g.postOrder ↔ g.isReachable b := fun b => mem_postOrder_iff hl.ordered
  refine ⟨⟨he, fun b => ⟨?_, hpost b, ?_⟩⟩, fun a b => ?_, ⟨hl.tree.entry, fun b hb hne => ?_⟩,
    fun b hb => ?_, fun b hb => ?_⟩
  · rw [hl.isSome_iff, hpost]
  · exact ⟨hl.exists_path b, fun ⟨_, hp⟩ => hl.isReachable_of_path hp⟩
  · constructor
    · intro hd
      obtain ⟨ha, hb⟩ := hl.isReachable_of_dominates hd
      exact ⟨ha, hb, (hl.dominates_iff_onEveryPath hb).1 hd⟩
    · rintro ⟨-, hb, hp⟩
      exact (hl.dominates_iff_onEveryPath hb).2 hp
  · obtain ⟨d, hd, hlt, hp, hn⟩ := hl.idom_of_ne_entry hb hne
    exact ⟨d, hd, hlt.ne.symm, hlt, hp, hn⟩
  · have hline := hl.tree.line ((hl.isSome_iff b).2 hb)
    have hsorted := hline.pairwise hl.tree
    exact ⟨fun a => hl.mem_dominators_iff a b hb, hsorted.imp RankLt.ne, hsorted, hline.head?_eq,
      hline.getLast?_eq⟩
  · rw [← hl.isSome_iff, Option.not_isSome_iff_eq_none] at hb
    exact dominators_of_none hb

/-- A loop in a loop. The inner one has a selection in it, and nothing leads to
block 9. -/
def loopInLoop : Body := .ofList ⟨1⟩ [
  (⟨1⟩, ⟨.direct ⟨2⟩, .none⟩),
  (⟨2⟩, ⟨.direct ⟨3⟩, .loop ⟨8⟩⟩),
  (⟨3⟩, ⟨.select ⟨4⟩ ⟨6⟩, .loop ⟨6⟩⟩),
  (⟨4⟩, ⟨.select ⟨5⟩ ⟨7⟩, .selection ⟨7⟩⟩),
  (⟨5⟩, ⟨.direct ⟨7⟩, .none⟩),
  (⟨6⟩, ⟨.select ⟨2⟩ ⟨8⟩, .none⟩),
  (⟨7⟩, ⟨.direct ⟨3⟩, .none⟩),
  (⟨8⟩, ⟨.ret, .none⟩),
  (⟨9⟩, ⟨.direct ⟨3⟩, .none⟩)]

theorem dominators_of_loopInLoop : loopInLoop.source.Consistent ∧
    ∃ g, (build loopInLoop.source).value = .ok g ∧
      g.dominators ⟨7⟩ = [⟨7⟩, ⟨4⟩, ⟨3⟩, ⟨2⟩, ⟨1⟩] ∧
      ∀ a, a ∈ g.dominators ⟨7⟩ ↔ OnEveryPath g.Recorded g.entry a ⟨7⟩ := by
  obtain ⟨g, hg, hd⟩ : ∃ g, (build loopInLoop.source).value = .ok g ∧
      (g.dominators ⟨7⟩, g.isReachable ⟨7⟩) = ([⟨7⟩, ⟨4⟩, ⟨3⟩, ⟨2⟩, ⟨1⟩], true) :=
    exists_of_map_build (by cbv)
  obtain ⟨hd, hr⟩ := Prod.mk.inj hd
  obtain ⟨-, -, -, hlist, -⟩ := dominators_of_build loopInLoop.consistent_source hg
  exact ⟨loopInLoop.consistent_source, g, hg, hd, (hlist _ hr).1⟩

/-! ## Paths along back edges -/

/-- An edge between reachable blocks that was followed, recorded or not. -/
def Followed (g : Graph) (src : Source) (opts : Options) (u v : BlockId) : Prop :=
  g.isReachable u ∧ g.isReachable v ∧ src.Follows opts u v

/-- Every back edge leads to a block that dominates its source. -/
def Reducible (g : Graph) : Prop := ∀ e ∈ g.backEdges, g.dominates e.target e.source

instance (g : Graph) : Decidable g.Reducible :=
  inferInstanceAs (Decidable (∀ e ∈ g.backEdges, g.dominates e.target e.source))

/-- The followed edges are the recorded ones and the back edges. -/
theorem followed_iff (hl : g.Lawful) (ha : g.traversal.Accounts src opts) :
    g.Followed src opts u v ↔ g.Recorded u v ∨ ⟨u, v⟩ ∈ g.backEdges := by
  rw [backEdges, Array.mem_toList_iff]
  constructor
  · rintro ⟨hu, -, hf⟩
    obtain ⟨r, hr⟩ := isReachable_iff.1 hu
    exact (ha.follows_iff u v r hr).1 hf
  · intro h
    have hu : g.isReachable u := by
      rcases h with h | h
      · exact (hl.isReachable_of_recorded h).1
      · exact isReachable_iff.2 (ha.rank_of_backEdge _ h)
    obtain ⟨r, hr⟩ := isReachable_iff.1 hu
    have hf := (ha.follows_iff u v r hr).2 h
    exact ⟨hu, isReachable_iff.2 (ha.rank_of_follows u v r hr hf), hf⟩

/-- Control that branches from the entry stays among the reachable blocks. -/
theorem followed_of_branches (hl : g.Lawful) (ha : g.traversal.Accounts src opts) {l : List BlockId}
    (h : Path src.Branches g.entry b l) : g.isReachable b ∧ Path (g.Followed src opts) g.entry b l := by
  induction h with
  | single => exact ⟨hl.isReachable_entry, .single⟩
  | @snoc u v l _ he ih =>
    obtain ⟨r, hr⟩ := isReachable_iff.1 ih.1
    have hv := isReachable_iff.2 (ha.rank_of_follows u v r hr he.follows)
    exact ⟨hv, ih.2.snoc ⟨ih.1, hv, he.follows⟩⟩

/-- A block on every path from the entry along followed edges, back edges
included, is a dominator. When all back edges lead to dominators of their
sources the converse holds as well, so that a dominator is on every path that
control can take. -/
theorem dominates_of_followed (hs : src.Consistent) (h : (build src opts).value = .ok g) :
    (∀ u v, g.Followed src opts u v ↔ g.Recorded u v ∨ ⟨u, v⟩ ∈ g.backEdges) ∧
    (∀ a b, g.isReachable a → g.isReachable b →
      OnEveryPath (g.Followed src opts) g.entry a b → g.dominates a b) ∧
    (g.Reducible → ∀ a b, g.dominates a b →
      OnEveryPath (g.Followed src opts) g.entry a b ∧ OnEveryPath src.Branches g.entry a b) := by
  obtain ⟨hl, -, ha⟩ := lawful_of_build hs h
  have hiff : ∀ u v, g.Followed src opts u v ↔ g.Recorded u v ∨ ⟨u, v⟩ ∈ g.backEdges :=
    fun _ _ => followed_iff hl ha
  refine ⟨hiff, fun a b _ hb hp => ?_, fun hr a b hd => ?_⟩
  · exact (hl.dominates_iff_onEveryPath hb).2 (hp.anti fun u v he => (hiff u v).2 (.inl he))
  · have hb := (hl.isReachable_of_dominates hd).2
    have hp := (hl.dominates_iff_onEveryPath hb).1 hd
    -- a path loses its back edges where it comes by their targets for the first time
    have hcut : ∀ u v, g.Followed src opts u v →
        g.Recorded u v ∨ OnEveryPath g.Recorded g.entry v u := by
      intro u v hf
      refine ((hiff u v).1 hf).imp_right fun hback => ?_
      exact (hl.dominates_iff_onEveryPath hf.1).1 (hr _ hback)
    have hfull : OnEveryPath (g.Followed src opts) g.entry a b := by
      intro l hpath
      obtain ⟨l', hpath', hsub⟩ := hpath.cut hcut
      exact hsub (hp l' hpath')
    exact ⟨hfull, fun l hpath => hfull l (followed_of_branches hl ha hpath).2⟩

theorem dominates_of_followed_loopInLoop : loopInLoop.source.Consistent ∧
    ∃ g, (build loopInLoop.source).value = .ok g ∧
      g.backEdges = [⟨⟨7⟩, ⟨3⟩⟩, ⟨⟨6⟩, ⟨2⟩⟩] ∧ g.Reducible ∧
      OnEveryPath loopInLoop.source.Branches g.entry ⟨4⟩ ⟨7⟩ := by
  obtain ⟨g, hg, hd⟩ : ∃ g, (build loopInLoop.source).value = .ok g ∧
      (g.backEdges, decide g.Reducible, g.dominates ⟨4⟩ ⟨7⟩) =
        ([⟨⟨7⟩, ⟨3⟩⟩, ⟨⟨6⟩, ⟨2⟩⟩], true, true) := exists_of_map_build (by cbv)
  obtain ⟨hb, hd⟩ := Prod.mk.inj hd
  obtain ⟨hr, hd⟩ := Prod.mk.inj hd
  have hr := of_decide_eq_true hr
  obtain ⟨-, -, hpath⟩ := dominates_of_followed loopInLoop.consistent_source hg
  exact ⟨loopInLoop.consistent_source, g, hg, hb, hr, (hpath hr _ _ hd).2⟩

end FlowGraph.Graph
