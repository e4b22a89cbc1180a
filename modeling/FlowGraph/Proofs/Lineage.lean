import FlowGraph.Proofs.Changing
import FlowGraph.Proofs.Edges
import FlowGraph.Proofs.Traversal.Cycles
/-!
# Lineages

The traversal entered every block but the first from another one, its parent,
which is its first recorded predecessor. Parents lead up from a block through all
that were on the path with it (`lineage_of_visited`), to the block where the
traversal started (`Lineage.getLast?_eq`). So the recorded predecessors tell which
edges are missing from them: a followed edge is a back edge exactly if it leads into
the lineage of its source (`mem_backEdges_iff_of_lineage`).
-/

namespace FlowGraph.Graph

variable {src : Source} {opts : Options} {g : Graph} {b p u v x root : BlockId}
  {l l' : List BlockId}

/-- A block, its first recorded predecessor, the first one of that, and so on as
long as there is one. -/
inductive Lineage (g : Graph) : BlockId → List BlockId → Prop
  | start {b : BlockId} : g.preds b = [] → Lineage g b [b]
  | up {b p : BlockId} {l : List BlockId} :
      (g.preds b).head? = some p → Lineage g p l → Lineage g b (b :: l)

theorem recorded_of_head?_preds (ho : g.traversal.PostOrdered root)
    (hp : (g.preds b).head? = some p) : g.Recorded p b :=
  (recorded_iff_mem_preds ho).2 (List.mem_of_mem_head? hp)

namespace Lineage

theorem head?_eq (h : g.Lineage b l) : l.head? = some b := by
  cases h <;> rfl

theorem unique (h : g.Lineage b l) (h' : g.Lineage b l') : l = l' := by
  induction h generalizing l' with
  | start hb =>
    cases h' with
    | start => rfl
    | up hp => simp [hb] at hp
  | up hp _ ih =>
    cases h' with
    | start hb => simp [hb] at hp
    | up hp' h' =>
      rw [hp] at hp'
      cases hp'
      rw [ih h']

section
variable (ho : g.traversal.PostOrdered root)
include ho

theorem pairwise (h : g.Lineage b l) : l.Pairwise g.RankLt := by
  induction h with
  | start => simp
  | up hp h ih =>
    have hlt := rankLt_of_recorded ho (recorded_of_head?_preds ho hp)
    exact hlt.pairwise_cons ih h.head?_eq

theorem rankLt_of_mem (h : g.Lineage b l) (hx : x ∈ l) : x = b ∨ g.RankLt b x :=
  rankLt_of_pairwise (h.pairwise ho) h.head?_eq hx

theorem getLast?_eq (h : g.Lineage b l) (hb : g.isReachable b) : l.getLast? = some root := by
  induction h with
  | @start b hn =>
    obtain ⟨r, hr⟩ := isReachable_iff.1 hb
    -- every block that is reached, other than the first, has a predecessor
    have hroot : b = root := Classical.byContradiction fun hne => ho.preds_ne_nil b r hr hne hn
    rw [hroot]
    rfl
  | up hp h ih =>
    have hlt := rankLt_of_recorded ho (recorded_of_head?_preds ho hp)
    rw [List.getLast?_cons_of_ne_nil (by cases h <;> simp)]
    exact ih hlt.isReachable_right

end

end Lineage

theorem exists_lineage (ho : g.traversal.PostOrdered root) : ∀ b, ∃ l, g.Lineage b l := by
  apply RankLt.induct (P := fun b => ∃ l, g.Lineage b l) fun _ _ => rank_le_size ho
  intro b ih
  cases hb : g.preds b with
  | nil => exact ⟨_, .start hb⟩
  | cons p ps =>
    have hp : (g.preds b).head? = some p := by rw [hb]; rfl
    obtain ⟨l, hl⟩ := ih p (rankLt_of_recorded ho (recorded_of_head?_preds ho hp))
    exact ⟨_, .up hp hl⟩

theorem lineage_of_awaits (hroot : g.preds root = [])
    (hp : ∀ u v, Traversal.Awaits (b :: l) u v → (g.preds v).head? = some u)
    (hlast : (b :: l).getLast? = some root) : g.Lineage b (b :: l) := by
  induction l generalizing b with
  | nil =>
    cases hlast
    exact .start hroot
  | cons c l ih =>
    rw [List.getLast?_cons_cons] at hlast
    exact .up (hp c b (.inl ⟨rfl, rfl⟩)) (ih (fun u v h => hp u v (.inr h)) hlast)

/-- At any time the path is the lineage of the block entered last. -/
theorem lineage_of_visited (h : (build src opts).value = .ok g) {s : Traversal.State}
    (hv : Traversal.State.Visited src opts s) (hb : s.blocks = b :: l) : g.Lineage b (b :: l) := by
  have hrun := (run_of_build h).2
  have hlast := hv.marking.bottom (by simp [hb])
  rw [hb] at hlast
  exact lineage_of_awaits (preds_root (Traversal.postOrdered_of_run hrun))
    (fun u v huv => hv.head?_preds hrun (hb ▸ huv)) hlast

/-- The target of a back edge was on the path, and so is in the lineage of its
source. What else is in a lineage ranks too high for an edge to be recorded. -/
theorem mem_backEdges_iff_of_lineage (h : (build src opts).value = .ok g) (hu : g.isReachable u)
    (hf : src.Follows opts u v) (hl : g.Lineage u l) : ⟨u, v⟩ ∈ g.backEdges ↔ v ∈ l := by
  have hrun := (run_of_build h).2
  constructor
  · intro he
    obtain ⟨s, hs, rest, hb, hv⟩ := Traversal.exists_of_backEdge hrun (Array.mem_toList_iff.1 he)
    rw [hl.unique (lineage_of_visited h hs hb), ← hb]
    exact hv
  · intro hv
    rw [mem_backEdges_iff_of_follows h hu hf]
    rcases hl.rankLt_of_mem (Traversal.postOrdered_of_run hrun) hv with rfl | hlt
    · exact RankLt.irrefl
    · exact hlt.asymm

/-- In every graph the first recorded predecessors make a tree. Each block other
than the one where the traversal started has one, and from every block they lead up
in rank to that one. The back edges are the followed edges that lead to a block on
this way up from their source, and the tree is that of the traversal: at any time
the path was the way up from the block entered last. The source may change while
the graph is built; what is followed is then what it answered, and that is what
`view` holds. -/
theorem lineages_of_build (src : Source) (opts : Options) :
    buildOver src opts (fun _ => src.block) = build src opts ∧
    ∀ views g, (buildOver src opts views).value = .ok g →
      (∀ b, g.isReachable b → b ≠ src.root → g.preds b ≠ []) ∧
      (∀ b, g.isReachable b → (∃! l, g.Lineage b l) ∧
        ∀ l, g.Lineage b l → l.Pairwise g.RankLt ∧ l.getLast? = some src.root) ∧
      ∃ view : View, view.Mixes views ∧
        buildOver src opts views = build (src.withView view) opts ∧
        (∀ u v l, g.isReachable u → (src.withView view).Follows opts u v → g.Lineage u l →
          (⟨u, v⟩ ∈ g.backEdges ↔ v ∈ l)) ∧
        ∀ s b l, Traversal.State.Visited (src.withView view) opts s → s.blocks = b :: l →
          g.Lineage b (b :: l) := by
  refine ⟨buildOver_const src opts, fun views g hg => ?_⟩
  obtain ⟨view, hmix, hview⟩ := exists_answers_of_buildOver src opts views
  rw [hview] at hg
  have ho := Traversal.postOrdered_of_run (run_of_build hg).2
  have hroot : (src.withView view).root = src.root := rfl
  rw [hroot] at ho
  refine ⟨fun b hb hne => ?_, fun b hb => ⟨?_, fun l hl => ⟨hl.pairwise ho, hl.getLast?_eq ho hb⟩⟩,
    view, hmix, hview, fun u v l hu hf hl => mem_backEdges_iff_of_lineage hg hu hf hl,
    fun s b l hv hb => lineage_of_visited hg hv hb⟩
  · obtain ⟨r, hr⟩ := isReachable_iff.1 hb
    exact ho.preds_ne_nil b r hr hne
  · obtain ⟨l, hl⟩ := exists_lineage ho b
    exact ⟨l, hl, fun l' hl' => hl'.unique hl⟩

/-- The second predecessor of block 4 is not its parent, block 2 leads back to its
parent for a merge, and block 3 to itself. -/
theorem lineages_of_tangle : ∃ g, (build tangle.source).value = .ok g ∧
    g.preds ⟨4⟩ = [⟨2⟩, ⟨3⟩] ∧ g.Lineage ⟨4⟩ [⟨4⟩, ⟨2⟩, ⟨1⟩] ∧
    [⟨4⟩, ⟨2⟩, ⟨1⟩].Pairwise g.RankLt ∧
    tangle.source.Follows .standard ⟨2⟩ ⟨1⟩ ∧ ⟨⟨2⟩, ⟨1⟩⟩ ∈ g.backEdges ∧
    tangle.source.Follows .standard ⟨3⟩ ⟨4⟩ ∧ ⟨⟨3⟩, ⟨4⟩⟩ ∉ g.backEdges := by
  obtain ⟨g, hg, hd⟩ : ∃ g, (build tangle.source).value = .ok g ∧
      (g.preds ⟨4⟩, g.preds ⟨2⟩, g.preds ⟨3⟩, g.preds ⟨1⟩, g.postOrder) =
        ([⟨2⟩, ⟨3⟩], [⟨1⟩], [⟨1⟩], [], [⟨4⟩, ⟨2⟩, ⟨3⟩, ⟨1⟩]) := exists_of_map_build (by cbv)
  simp only [Prod.mk.injEq] at hd
  obtain ⟨h4, h2, h3, h1, hpost⟩ := hd
  obtain ⟨hover, hall⟩ := lineages_of_build tangle.source .standard
  obtain ⟨-, hlines, view, hmix, -, hback, -⟩ := hall _ g (hover ▸ hg)
  have hview : tangle.source.withView view = tangle.source := by
    have : view = tangle.source.block := funext fun b => (hmix b).elim fun _ h => h
    rw [this]
    rfl
  rw [hview] at hback
  have hl2 : g.Lineage ⟨2⟩ [⟨2⟩, ⟨1⟩] := .up (by rw [h2]; rfl) (.start h1)
  have hl3 : g.Lineage ⟨3⟩ [⟨3⟩, ⟨1⟩] := .up (by rw [h3]; rfl) (.start h1)
  have hl4 : g.Lineage ⟨4⟩ [⟨4⟩, ⟨2⟩, ⟨1⟩] := .up (by rw [h4]; rfl) hl2
  have ho := Traversal.postOrdered_of_run (run_of_build hg).2
  have hreach : ∀ b ∈ [⟨4⟩, ⟨2⟩, ⟨3⟩, ⟨1⟩], g.isReachable b :=
    fun b hb => (mem_postOrder_iff ho).1 (hpost ▸ hb)
  have h21 : tangle.source.Follows .standard ⟨2⟩ ⟨1⟩ := ⟨_, rfl, by decide⟩
  have h34 : tangle.source.Follows .standard ⟨3⟩ ⟨4⟩ := ⟨_, rfl, by decide⟩
  refine ⟨g, hg, h4, hl4, ((hlines _ (hreach ⟨4⟩ (by decide))).2 _ hl4).1, h21, ?_, h34, ?_⟩
  · exact (hback _ _ _ (hreach ⟨2⟩ (by decide)) h21 hl2).2 (by decide)
  · exact mt (hback _ _ _ (hreach ⟨3⟩ (by decide)) h34 hl3).1 (by decide)

end FlowGraph.Graph
