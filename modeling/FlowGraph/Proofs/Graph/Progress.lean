import FlowGraph.Proofs.Ends
import FlowGraph.Proofs.Graph.Build
/-!
# No climb runs out

Ranks grow towards the root of every tree that the pass over the dominators
builds (`Tree`), also when the traversal started at another block than the
entry. So a climb ends within its steps whatever blocks it is asked about
(`Tree.ends_commonDominator`), and the pass can only fail on a block that has no
dominator (`ends_assignDominators`).
-/

namespace FlowGraph

/-- A search has gone astray: it has taken all its steps, or has come to the
root of the tree and found nothing. -/
inductive Error.Internal : Error → Prop
  | chainsNeverMeet (a b : BlockId) : Internal (.invariant (.chainsNeverMeet a b))
  | chainEnds (b d other : BlockId) : Internal (.invariant (.chainEnds b d other))
  | endlessWalk (b : BlockId) : Internal (.invariant (.endlessWalk b))

namespace Graph

variable {g : Graph} {a b d p root : BlockId}

/-! ## Common dominators -/

theorem commonDominator_self (g : Graph) (a : BlockId) : g.commonDominator a a = .ok a := by
  rw [commonDominator, climb, if_pos rfl]

/-- The first step towards the common dominator of two blocks. -/
theorem commonDominator_of_ne (hab : a ≠ b) : g.commonDominator a b = (do
    let rankA ← g.dominatedRank a
    let rankB ← g.dominatedRank b
    if rankA < rankB then
      g.climb (2 * g.idoms.size + 1) (← g.stepUp a b) b
    else
      g.climb (2 * g.idoms.size + 1) a (← g.stepUp b a)) := by
  rw [commonDominator, climb, if_neg hab]

theorem ends_dominatedRank (g : Graph) (b : BlockId) :
    Ends (fun _ => (g.idom? b).isSome) (¬ ·.Internal) (g.dominatedRank b) := by
  unfold dominatedRank
  split
  · exact nofun
  · next d hd =>
    split
    · exact Option.isSome_iff_exists.2 ⟨d, hd⟩
    · exact nofun

/-- The climb from a block of the tree ends at one of its dominators. -/
theorem Tree.ends_commonDominator (ht : Tree g) (a b : BlockId) :
    Ends (fun c => (g.idom? a).isSome → (g.idom? c).isSome ∧ c ∈ g.dominators a) (¬ ·.Internal)
      (g.commonDominator a b) := by
  by_cases hab : a = b
  · subst hab
    rw [commonDominator_self]
    exact fun ha => ⟨ha, mem_dominators_self ht ha⟩
  by_cases hs : (g.idom? a).isSome ∧ (g.idom? b).isSome
  · obtain ⟨c, hc, hm⟩ := exists_commonDominator ht hs.1 hs.2
    rw [hc]
    intro ha
    have hentry := (hm g.entry).2 ⟨entry_mem_dominators ht hs.1, entry_mem_dominators ht hs.2⟩
    have hcs := (ht.isSome_of_mem hentry).2
    exact ⟨hcs, ((hm c).1 (mem_dominators_self ht hcs)).1⟩
  · -- one of the two is not in the tree, which shows before the first step
    rw [commonDominator_of_ne hab]
    apply (g.ends_dominatedRank a).bind
    intro _ ha
    apply (g.ends_dominatedRank b).bind
    intro _ hb
    exact absurd ⟨ha, hb⟩ hs

/-! ## The pass over the dominators -/

theorem Tree.ends_assignDominator (ht : Tree g) (ho : g.traversal.PostOrdered root) (b : BlockId) :
    Ends (fun g' => Tree g' ∧ g'.traversal = g.traversal) (¬ ·.Internal) (g.assignDominator b) := by
  unfold assignDominator
  split
  · exact ⟨ht, rfl⟩
  next hb =>
  split
  · exact ⟨ht, rfl⟩
  next p preds hp =>
  split
  · rintro ⟨⟩
  next d hd =>
  have hs : (g.idom? p).isSome := Option.isSome_iff_exists.2 ⟨d, hd⟩
  have hlt : g.RankLt b p :=
    rankLt_of_recorded ho ((recorded_iff_mem_preds ho).2 (hp ▸ List.mem_cons_self))
  have hfold : Ends (fun c => (g.idom? c).isSome ∧ c ∈ g.dominators p) (¬ ·.Internal)
      (preds.foldlM g.commonDominator p) := by
    refine Ends.foldlM ?_ p ⟨hs, mem_dominators_self ht hs⟩
    rintro c q - ⟨hc, hcp⟩
    refine (ht.ends_commonDominator c q).imp (fun c' hc' => ?_) fun _ h => h
    exact ⟨(hc' hc).1, dominators_trans ht (hc' hc).2 hcp⟩
  apply hfold.bind
  rintro c ⟨hc, hcp⟩
  exact ⟨tree_withIdom ht hb hc (hlt.trans_dominator ht hcp), rfl⟩

/-- Whatever the pass has made of a graph is a tree. -/
theorem ends_assignDominators (ht : Tree g) (ho : g.traversal.PostOrdered root) :
    Ends (fun g' => Tree g' ∧ g'.traversal = g.traversal) (¬ ·.Internal) g.assignDominators := by
  refine Ends.foldlM ?_ g ⟨ht, rfl⟩
  rintro g' b - ⟨ht', hg'⟩
  have ho' : g'.traversal.PostOrdered root := hg' ▸ ho
  exact (ht'.ends_assignDominator ho' b).imp (fun _ h => ⟨h.1, h.2.trans hg'⟩) fun _ h => h

end Graph

end FlowGraph
