import FlowGraph.Proofs.Dominance
import FlowGraph.Proofs.Edges
import FlowGraph.Proofs.Traversal.Cycles
/-!
# The order of branches

A traversal follows the exits of a block in the order they are written, and the
ranks depend on that order. In a reducible graph the edges do not. Every way to
the source of a back edge passes its target (`Reducible.mem_of_path`), so it is
a back edge in every order. Another order then records no edge that this one
does not, and since its back edges close cycles of recorded edges, they are back
edges here as well (`sameEdges_of_reducible`). Dominators depend on the edges
only (`dominators_of_reducible`).
-/

namespace FlowGraph

/-- Every block leads to the same blocks in both sources, whatever the order and
however often they are written. -/
structure Source.SameTargets (src : Source) (opts : Options) (src' : Source) : Prop where
  entry : src'.entry = src.entry
  follows_iff : ∀ u v, src'.Follows opts u v ↔ src.Follows opts u v

theorem Body.sameTargets_insert {body : Body} {opts : Options} {id : BlockId} {block block' : Block}
    (hb : body.get? id = some block) (h : ∀ v, v ∈ block'.followed opts ↔ v ∈ block.followed opts) :
    body.source.SameTargets opts (body.insert id block').source where
  entry := rfl
  follows_iff u v := by
    simp only [Source.Follows, source, get?_insert]
    split
    · next hu =>
      subst hu
      simp [hb, h]
    · rfl

namespace Graph

variable {src src' : Source} {opts : Options} {g g' : Graph} {a b u v : BlockId} {l : List BlockId}

/-! ## Graphs with the same edges -/

/-- Two graphs of the same blocks and edges, in whatever order they were found. -/
structure SameEdges (g g' : Graph) : Prop where
  entry : g'.entry = g.entry
  isReachable_iff : ∀ b, g'.isReachable b ↔ g.isReachable b
  recorded_iff : ∀ u v, g'.Recorded u v ↔ g.Recorded u v
  mem_backEdges_iff : ∀ e, e ∈ g'.backEdges ↔ e ∈ g.backEdges

namespace SameEdges

theorem onEveryPath_iff (h : g.SameEdges g') :
    OnEveryPath g'.Recorded g'.entry a b ↔ OnEveryPath g.Recorded g.entry a b := by
  have hr : g'.Recorded = g.Recorded := by
    funext u v
    exact propext (h.recorded_iff u v)
  rw [hr, h.entry]

theorem dominates_iff (h : g.SameEdges g') (hl : g.Lawful) (hl' : g'.Lawful) :
    g'.dominates a b ↔ g.dominates a b := by
  by_cases hb : g.isReachable b
  · have hb' := (h.isReachable_iff b).2 hb
    rw [hl.dominates_iff_onEveryPath hb, hl'.dominates_iff_onEveryPath hb', h.onEveryPath_iff]
  · constructor
    · intro hd
      exact absurd ((h.isReachable_iff b).1 (hl'.isReachable_of_dominates hd).2) hb
    · intro hd
      exact absurd (hl.isReachable_of_dominates hd).2 hb

theorem idom?_eq (h : g.SameEdges g') (hl : g.Lawful) (hl' : g'.Lawful) (b : BlockId) :
    g'.idom? b = g.idom? b := by
  by_cases hb : g.isReachable b
  · by_cases he : b = g.entry
    · have he' := hl'.tree.entry
      rw [h.entry] at he'
      rw [he, he', hl.tree.entry]
    · obtain ⟨d, hd, -⟩ := hl.idom_of_ne_entry hb he
      have hspec := (hl.idom?_eq_some_iff hb he).1 hd
      rw [hd, hl'.idom?_eq_some_iff ((h.isReachable_iff b).2 hb) (by rw [h.entry]; exact he)]
      simpa only [h.dominates_iff hl hl'] using hspec
  · have hb' := mt (h.isReachable_iff b).1 hb
    rw [← hl.isSome_iff, Option.not_isSome_iff_eq_none] at hb
    rw [← hl'.isSome_iff, Option.not_isSome_iff_eq_none] at hb'
    rw [hb, hb']

theorem exists_meet (h : g.SameEdges g') (hl : g.Lawful) (hl' : g'.Lawful) (ha : g.isReachable a)
    (hb : g.isReachable b) :
    ∃ c, g.commonDominator a b = .ok c ∧ g'.commonDominator a b = .ok c := by
  obtain ⟨c, hc, hr, hm⟩ := hl.exists_meet ha hb
  obtain ⟨c', hc', hr', hm'⟩ :=
    hl'.exists_meet ((h.isReachable_iff a).2 ha) ((h.isReachable_iff b).2 hb)
  have hsame : ∀ x, g.dominates x c' ↔ g.dominates x c := by
    intro x
    rw [hm, ← h.dominates_iff hl hl', hm', h.dominates_iff hl hl', h.dominates_iff hl hl']
  have hcc' := (hsame c).2 (hl.dominates_self hr)
  have hc'c := (hsame c').1 (hl.dominates_self ((h.isReachable_iff c').1 hr'))
  exact ⟨c, hc, hl.dominates_antisymm hcc' hc'c ▸ hc'⟩

end SameEdges

/-! ## Along recorded edges -/

theorem Lawful.rankLt_of_mem_path (hl : g.Lawful) (h : Path g.Recorded a b l) :
    ∀ x ∈ l, x = b ∨ g.RankLt b x := by
  induction h with
  | single => simp
  | @snoc u v l _ he ih =>
    have hlt := rankLt_of_recorded hl.ordered he
    intro x hx
    rcases List.mem_append.1 hx with hx | hx
    · rcases ih x hx with rfl | hlt'
      · exact .inr hlt
      · exact .inr (hlt.trans hlt')
    · exact .inl (List.mem_singleton.1 hx)

/-- A recorded edge leads to no block that was passed before. -/
theorem Lawful.not_recorded_of_mem_path (hl : g.Lawful) (h : Path g.Recorded a u l) (hv : v ∈ l) :
    ¬ g.Recorded u v := by
  intro he
  have hlt := rankLt_of_recorded hl.ordered he
  rcases hl.rankLt_of_mem_path h v hv with rfl | hlt'
  · exact hlt.irrefl
  · exact hlt.asymm hlt'

theorem exists_path_of_backEdge (h : (build src opts).value = .ok g) (he : ⟨u, v⟩ ∈ g.backEdges) :
    ∃ l, Path g.Recorded v u l :=
  Traversal.path_of_backEdge (run_of_build h).2 _ (Array.mem_toList_iff.1 he)

theorem not_recorded_of_backEdge (hs : src.Consistent) (h : (build src opts).value = .ok g)
    (he : ⟨u, v⟩ ∈ g.backEdges) : ¬ g.Recorded u v := by
  obtain ⟨l, hp⟩ := exists_path_of_backEdge h he
  exact (lawful_of_build hs h).1.not_recorded_of_mem_path hp hp.source_mem

/-! ## Along followed edges -/

/-- Any other dominator of the target of an edge dominates its source. -/
theorem Lawful.dominates_source (hl : g.Lawful) (he : g.Recorded u v) (hd : g.dominates a v)
    (hne : a ≠ v) : g.dominates a u := by
  have hv := (hl.isReachable_of_recorded he).2
  rcases (hl.dominates_iff_of_ne hv (hl.ne_entry_of_recorded he)).1 hd with rfl | hall
  · exact absurd rfl hne
  · exact hall u ((recorded_iff_mem_preds hl.ordered).1 he)

theorem Reducible.dominates_source (hr : g.Reducible) (hl : g.Lawful)
    (ha : g.traversal.Accounts src opts) (hf : g.Followed src opts u v) (hd : g.dominates a v)
    (hne : a ≠ v) : g.dominates a u := by
  rcases (followed_iff hl ha).1 hf with he | he
  · exact hl.dominates_source he hd hne
  · exact hl.dominates_trans hd (hr _ he)

/-- The dominators of a block are on every followed path to it. -/
theorem Reducible.mem_of_path (hr : g.Reducible) (hl : g.Lawful)
    (ha : g.traversal.Accounts src opts) (h : Path (g.Followed src opts) g.entry b l) :
    ∀ a, g.dominates a b → a ∈ l := by
  induction h with
  | single =>
    intro a hd
    have he := hl.entry_dominates (hl.isReachable_of_dominates hd).1
    exact List.mem_singleton.2 (hl.dominates_antisymm hd he)
  | @snoc u v l _ hf ih =>
    intro a hd
    by_cases hv : a = v
    · exact List.mem_append_right _ (List.mem_singleton.2 hv)
    · exact List.mem_append_left _ (ih a (hr.dominates_source hl ha hf hd hv))

/-! ## Two orders of the same branches -/

section
variable (hs : src.Consistent) (hs' : src'.Consistent) (ht : src.SameTargets opts src')
  (h : (build src opts).value = .ok g) (h' : (build src' opts).value = .ok g')
include hs hs' ht h h'

theorem isReachable_iff_of_sameTargets : g'.isReachable b ↔ g.isReachable b := by
  have hf : src'.Follows opts = src.Follows opts := by
    funext u v
    exact propext (ht.follows_iff u v)
  rw [isReachable_iff_path hs h, isReachable_iff_path hs' h', hf, ht.entry]

theorem followed_iff_of_sameTargets : g'.Followed src' opts u v ↔ g.Followed src opts u v := by
  simp only [Followed, ht.follows_iff, isReachable_iff_of_sameTargets hs hs' ht h h']

/-- A back edge of the reducible graph is a back edge in the other order. -/
theorem mem_backEdges_of_reducible (hr : g.Reducible) (he : ⟨u, v⟩ ∈ g.backEdges) :
    ⟨u, v⟩ ∈ g'.backEdges := by
  obtain ⟨hl, hentry, ha⟩ := lawful_of_build hs h
  obtain ⟨hl', hentry', ha'⟩ := lawful_of_build hs' h'
  have hiff : ∀ u v, g'.Followed src' opts u v ↔ g.Followed src opts u v :=
    fun _ _ => followed_iff_of_sameTargets hs hs' ht h h'
  have hf := (hiff u v).2 ((followed_iff hl ha).2 (.inr he))
  -- the edges recorded in the other order lead past `v` to `u`
  obtain ⟨l, hp⟩ := hl'.exists_path u hf.1
  have hp' : Path (g.Followed src opts) g.entry u l := by
    rw [hentry, ← ht.entry, ← hentry']
    exact hp.mono fun x y hxy => (hiff x y).1 ((followed_iff hl' ha').2 (.inl hxy))
  have hv := hr.mem_of_path hl ha hp' v (hr _ he)
  exact ((followed_iff hl' ha').1 hf).resolve_left (hl'.not_recorded_of_mem_path hp hv)

/-- What the other order records is recorded in the reducible graph. -/
theorem recorded_of_reducible (hr : g.Reducible) (he : g'.Recorded u v) : g.Recorded u v := by
  obtain ⟨hl, -, ha⟩ := lawful_of_build hs h
  obtain ⟨hl', -, ha'⟩ := lawful_of_build hs' h'
  have hf := (followed_iff_of_sameTargets hs hs' ht h h').1 ((followed_iff hl' ha').2 (.inl he))
  refine ((followed_iff hl ha).1 hf).resolve_right fun hb => ?_
  exact not_recorded_of_backEdge hs' h' (mem_backEdges_of_reducible hs hs' ht h h' hr hb) he

theorem sameEdges_of_reducible (hr : g.Reducible) : g.SameEdges g' := by
  obtain ⟨hl, hentry, ha⟩ := lawful_of_build hs h
  obtain ⟨hl', hentry', ha'⟩ := lawful_of_build hs' h'
  have hiff : ∀ u v, g'.Followed src' opts u v ↔ g.Followed src opts u v :=
    fun _ _ => followed_iff_of_sameTargets hs hs' ht h h'
  have hrec : ∀ u v, g'.Recorded u v → g.Recorded u v :=
    fun _ _ => recorded_of_reducible hs hs' ht h h' hr
  -- a back edge of the other order closes a cycle of edges that are recorded in this one
  have hback : ∀ u v, ⟨u, v⟩ ∈ g'.backEdges → ⟨u, v⟩ ∈ g.backEdges := by
    intro u v he
    obtain ⟨l, hp⟩ := exists_path_of_backEdge h' he
    have hp := hp.mono hrec
    have hf := (hiff u v).1 ((followed_iff hl' ha').2 (.inr he))
    exact ((followed_iff hl ha).1 hf).resolve_left (hl.not_recorded_of_mem_path hp hp.source_mem)
  refine ⟨by rw [hentry, hentry', ht.entry], fun b => isReachable_iff_of_sameTargets hs hs' ht h h',
    fun u v => ⟨hrec u v, fun he => ?_⟩,
    fun e => ⟨hback e.source e.target, mem_backEdges_of_reducible hs hs' ht h h' hr⟩⟩
  have hf := (hiff u v).2 ((followed_iff hl ha).2 (.inl he))
  refine ((followed_iff hl' ha').1 hf).resolve_right fun hb => ?_
  exact not_recorded_of_backEdge hs h (hback u v hb) he

end

/-- If one order of the branches gives a reducible graph, every order gives the
same blocks and edges, and the same dominators. -/
theorem dominators_of_reducible (hs : src.Consistent) (hs' : src'.Consistent)
    (ht : src.SameTargets opts src') (h : (build src opts).value = .ok g)
    (h' : (build src' opts).value = .ok g') (hr : g.Reducible) :
    g.SameEdges g' ∧ (∀ b, g'.idom? b = g.idom? b) ∧
    ∀ a b, g.isReachable a → g.isReachable b →
      ∃ c, g.commonDominator a b = .ok c ∧ g'.commonDominator a b = .ok c := by
  obtain ⟨hl, -, -⟩ := lawful_of_build hs h
  obtain ⟨hl', -, -⟩ := lawful_of_build hs' h'
  have hsame := sameEdges_of_reducible hs hs' ht h h' hr
  exact ⟨hsame, hsame.idom?_eq hl hl', fun a b ha hb => hsame.exists_meet hl hl' ha hb⟩

/-- Block 3 of `loopInLoop` with its targets the other way around, and one of
them twice. -/
def swapped : Block := ⟨.multiSelect [⟨0, ⟨6⟩⟩, ⟨1, ⟨4⟩⟩, ⟨2, ⟨6⟩⟩] none, .loop ⟨6⟩⟩

theorem dominators_of_reducible_swapped : loopInLoop.source.Consistent ∧
    (loopInLoop.insert ⟨3⟩ swapped).source.Consistent ∧
    loopInLoop.source.SameTargets .standard (loopInLoop.insert ⟨3⟩ swapped).source ∧
    ∃ g g', (build loopInLoop.source).value = .ok g ∧
      (build (loopInLoop.insert ⟨3⟩ swapped).source).value = .ok g' ∧ g.Reducible ∧
      g.postOrder = [⟨7⟩, ⟨5⟩, ⟨4⟩, ⟨8⟩, ⟨6⟩, ⟨3⟩, ⟨2⟩, ⟨1⟩] ∧
      g'.postOrder = [⟨8⟩, ⟨6⟩, ⟨7⟩, ⟨5⟩, ⟨4⟩, ⟨3⟩, ⟨2⟩, ⟨1⟩] ∧
      g.SameEdges g' ∧ ∀ b, g'.idom? b = g.idom? b := by
  have ht : loopInLoop.source.SameTargets .standard (loopInLoop.insert ⟨3⟩ swapped).source := by
    have hb : loopInLoop.get? ⟨3⟩ = some ⟨.select ⟨4⟩ ⟨6⟩, .loop ⟨6⟩⟩ := by cbv
    refine Body.sameTargets_insert hb fun v => ?_
    show v ∈ [⟨6⟩, ⟨4⟩, ⟨6⟩, ⟨6⟩] ↔ v ∈ [⟨4⟩, ⟨6⟩, ⟨6⟩]
    grind
  obtain ⟨g, hg, hd⟩ : ∃ g, (build loopInLoop.source).value = .ok g ∧
      (decide g.Reducible, g.postOrder) =
        (true, [⟨7⟩, ⟨5⟩, ⟨4⟩, ⟨8⟩, ⟨6⟩, ⟨3⟩, ⟨2⟩, ⟨1⟩]) := exists_of_map_build (by cbv)
  obtain ⟨g', hg', ho'⟩ : ∃ g, (build (loopInLoop.insert ⟨3⟩ swapped).source).value = .ok g ∧
      g.postOrder = [⟨8⟩, ⟨6⟩, ⟨7⟩, ⟨5⟩, ⟨4⟩, ⟨3⟩, ⟨2⟩, ⟨1⟩] := exists_of_map_build (by cbv)
  obtain ⟨hr, ho⟩ := Prod.mk.inj hd
  have hr := of_decide_eq_true hr
  have hs' := (loopInLoop.insert ⟨3⟩ swapped).consistent_source
  obtain ⟨hsame, hidom, -⟩ := dominators_of_reducible loopInLoop.consistent_source hs' ht hg hg' hr
  exact ⟨loopInLoop.consistent_source, hs', ht, g, g', hg, hg', hr, ho, ho', hsame, hidom⟩

end Graph

end FlowGraph
