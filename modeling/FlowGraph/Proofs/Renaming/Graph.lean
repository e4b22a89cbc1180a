import FlowGraph.Graph.Loop
import FlowGraph.Graph.Walk
import FlowGraph.Proofs.Changing
import FlowGraph.Proofs.Renaming.Traversal
/-!
# Graphs of renamed sources

`Graph.Renames` relates two graphs by what can be asked of them. It holds of
the graphs of a source and the renamed source (`build_renamed`), and from then
on every query gives renamed answers to renamed questions.
-/

namespace FlowGraph.Graph

variable {p : BlockId → BlockId} {g g' : Graph}

/-- The second graph is the first with its blocks renamed: the same ranks, and
the images of lists, edges and immediate dominators. -/
structure Renames (p : BlockId → BlockId) (g g' : Graph) : Prop where
  entry : g'.entry = p g.entry
  postOrder : g'.postOrder = g.postOrder.map p
  rank? : ∀ b, g'.rank? (p b) = g.rank? b
  preds : ∀ b, g'.preds (p b) = (g.preds b).map p
  succs : ∀ b, g'.succs (p b) = (g.succs b).map p
  backEdges : g'.backEdges = g.backEdges.map (Edge.rename p)
  mergeEdges : g'.mergeEdges = g.mergeEdges.map (Edge.rename p)
  idom? : ∀ b, g'.idom? (p b) = (g.idom? b).map p
  size_idoms : g'.idoms.size = g.idoms.size

namespace Renames

theorem size (h : g.Renames p g') : g'.size = g.size := by
  have hlen := congrArg List.length h.postOrder
  simpa [Graph.postOrder, Graph.size] using hlen

theorem isReachable (h : g.Renames p g') (b : BlockId) :
    g'.isReachable (p b) = g.isReachable b := by
  rw [Graph.isReachable, h.rank?, Graph.isReachable]

/-! ## Dominators -/

theorem dominatedRank (h : g.Renames p g') (b : BlockId) :
    EndsRenamed p (fun rank rank' => rank' = rank) (g.dominatedRank b)
      (g'.dominatedRank (p b)) := by
  unfold Graph.dominatedRank
  rw [h.idom?, h.rank?]
  cases g.idom? b with
  | none => exact .error _
  | some d =>
    cases g.rank? b with
    | none => exact .error _
    | some rank => exact .ok rfl

theorem stepUp (hp : Function.Injective p) (h : g.Renames p g') (b other : BlockId) :
    EndsRenamed p (fun d d' => d' = p d) (g.stepUp b other) (g'.stepUp (p b) (p other)) := by
  unfold Graph.stepUp
  rw [h.idom?]
  cases g.idom? b with
  | none => exact .error _
  | some d =>
    simp only [Option.map_some, hp.eq_iff]
    split
    · exact .error _
    · exact .ok rfl

theorem climb (hp : Function.Injective p) (h : g.Renames p g') (budget : Nat) : ∀ a b,
    EndsRenamed p (fun d d' => d' = p d) (g.climb budget a b) (g'.climb budget (p a) (p b)) := by
  induction budget with
  | zero =>
    intro a b
    simp only [Graph.climb, hp.eq_iff]
    split
    · exact .ok rfl
    · exact .error _
  | succ budget ih =>
    intro a b
    simp only [Graph.climb, hp.eq_iff]
    split
    · exact .ok rfl
    · refine (h.dominatedRank a).bind ?_
      rintro rankA _ rfl
      refine (h.dominatedRank b).bind ?_
      rintro rankB _ rfl
      split
      · refine (h.stepUp hp a b).bind ?_
        rintro d _ rfl
        exact ih d b
      · refine (h.stepUp hp b a).bind ?_
        rintro d _ rfl
        exact ih a d

theorem commonDominator (hp : Function.Injective p) (h : g.Renames p g') (a b : BlockId) :
    EndsRenamed p (fun d d' => d' = p d) (g.commonDominator a b)
      (g'.commonDominator (p a) (p b)) := by
  unfold Graph.commonDominator
  rw [h.size_idoms]
  exact h.climb hp _ a b

theorem chain (hp : Function.Injective p) (h : g.Renames p g') (steps : Nat) : ∀ b below,
    g'.chain steps (p b) (below.map p) = (g.chain steps b below).map p := by
  induction steps with
  | zero =>
    intro b below
    simp only [Graph.chain, Array.map_push]
  | succ steps ih =>
    intro b below
    simp only [Graph.chain, h.idom?]
    cases g.idom? b with
    | none => simp only [Option.map_none, Array.map_push]
    | some d =>
      simp only [Option.map_some, hp.eq_iff, ← Array.map_push]
      split
      · rfl
      · exact ih d _

theorem dominators (hp : Function.Injective p) (h : g.Renames p g') (b : BlockId) :
    g'.dominators (p b) = (g.dominators b).map p := by
  have hchain := h.chain hp g.idoms.size b #[]
  rw [Array.map_empty] at hchain
  unfold Graph.dominators
  rw [h.idom?, h.size_idoms, hchain]
  cases g.idom? b with
  | none => rfl
  | some d => simp only [Option.map_some, Array.toList_map]

theorem dominates (hp : Function.Injective p) (h : g.Renames p g') (a b : BlockId) :
    g'.dominates (p a) (p b) = g.dominates a b := by
  have hmem : p a ∈ (g.dominators b).map p ↔ a ∈ g.dominators b := by simp [hp.eq_iff]
  rw [Graph.dominates, h.isReachable, h.dominators hp, Graph.dominates, List.contains_eq_mem,
    List.contains_eq_mem]
  simp only [hmem]

end Renames

/-! ## Loops -/

/-- The approach from a renamed block. -/
def Approach.rename (p : BlockId → BlockId) (a : Approach) : Approach := { a with next := p a.next }

variable {view view' : View}

theorem approach_renamed (hp : Function.Injective p) (hview : view.Renames p view')
    (b first : BlockId) (preds : List BlockId) :
    EndsRenamed p (fun a a' => a' = a.rename p) (approach view b first preds)
      (approach view' (p b) (p first) (preds.map p)) := by
  induction preds with
  | nil => exact .ok rfl
  | cons pred preds ih =>
    simp only [List.map_cons, approach, hview pred]
    cases view pred with
    | none => exact .error _
    | some block =>
      simp only [Option.map_some, Block.merge_rename]
      cases block.merge with
      | none => exact ih
      | loop mergeBlock =>
        simp only [Merge.rename, hp.eq_iff]
        split
        · exact .ok rfl
        · exact ih
      | selection nextBlock =>
        simp only [Merge.rename, hp.eq_iff]
        split
        · exact .ok rfl
        · exact ih

namespace Renames

theorem searchStep (hp : Function.Injective p) (h : g.Renames p g')
    (hview : view.Renames p view') {rest rest' : BlockId → Except Error (Option BlockId)}
    (hrest : ∀ b, EndsRenamed p (fun header header' => header' = header.map p) (rest b) (rest' (p b)))
    (b : BlockId) :
    EndsRenamed p (fun header header' => header' = header.map p) (g.searchStep view rest b)
      (g'.searchStep view' rest' (p b)) := by
  simp only [Graph.searchStep, h.preds]
  cases g.preds b with
  | nil => exact .ok rfl
  | cons first preds =>
    refine (approach_renamed hp hview b first (first :: preds)).bind ?_
    rintro ⟨next, skipsHeader⟩ _ rfl
    cases skipsHeader with
    | true => exact hrest next
    | false =>
      refine (hview.resolve next).bind ?_
      rintro block _ rfl
      simp only [Block.merge_rename, Merge.isLoop_rename]
      split
      · exact .ok rfl
      · exact hrest next

theorem searchLoop (hp : Function.Injective p) (h : g.Renames p g')
    (hview : view.Renames p view') (start : BlockId) (steps : Nat) : ∀ b,
    EndsRenamed p (fun header header' => header' = header.map p) (g.searchLoop view start steps b)
      (g'.searchLoop view' (p start) steps (p b)) := by
  induction steps with
  | zero => exact fun b => .error _
  | succ steps ih => exact h.searchStep hp hview ih

theorem loopHeader? (hp : Function.Injective p) (h : g.Renames p g')
    (hview : view.Renames p view') (b : BlockId) :
    EndsRenamed p (fun header header' => header' = header.map p) (g.loopHeader? view b)
      (g'.loopHeader? view' (p b)) := by
  unfold Graph.loopHeader?
  rw [h.size]
  exact h.searchLoop hp hview b _ b

end Renames

/-! ## Building -/

theorem renames_single (hp : Function.Injective p) {t t' : Traversal} (h : t.Renames p t')
    (entry : BlockId) : (single entry t).Renames p (single (p entry) t') where
  entry := rfl
  postOrder := by simp [postOrder, single, h.order]
  rank? b := by simp only [rank?, Traversal.rank?, single, h.mark?]
  preds b := h.preds b
  succs b := h.succs b
  backEdges := by simp [backEdges, single, h.backEdges]
  mergeEdges := by simp [mergeEdges, single, h.mergeEdges]
  idom? b := by
    simp only [idom?_single, hp.eq_iff]
    split <;> rfl
  size_idoms := by simp [single, Std.TreeMap.size_insert]

theorem Renames.withIdom (hp : Function.Injective p) (h : g.Renames p g') (b d : BlockId) :
    (g.withIdom b d).Renames p (g'.withIdom (p b) (p d)) := by
  have hmem : p b ∈ g'.idoms ↔ b ∈ g.idoms := by
    have hsome := congrArg Option.isSome (h.idom? b)
    rw [Option.isSome_map] at hsome
    rw [Std.TreeMap.mem_iff_isSome_getElem?, Std.TreeMap.mem_iff_isSome_getElem?]
    exact Bool.eq_iff_iff.1 hsome
  exact {
    entry := h.entry
    postOrder := h.postOrder
    rank? := h.rank?
    preds := h.preds
    succs := h.succs
    backEdges := h.backEdges
    mergeEdges := h.mergeEdges
    idom? := fun x => by
      simp only [idom?_withIdom, hp.eq_iff, h.idom?]
      split <;> rfl
    size_idoms := by
      simp only [Graph.withIdom, Std.TreeMap.size_insert, Std.TreeMap.contains_iff_mem, hmem,
        h.size_idoms] }

theorem assignDominator_renamed (hp : Function.Injective p) (h : g.Renames p g') (b : BlockId) :
    EndsRenamed p (Renames p) (g.assignDominator b) (g'.assignDominator (p b)) := by
  unfold assignDominator
  simp only [h.entry, hp.eq_iff, h.preds]
  split
  · exact .ok h
  · cases g.preds b with
    | nil => exact .ok h
    | cons pred preds =>
      simp only [List.map_cons, h.idom?]
      cases g.idom? pred with
      | none => exact .error _
      | some _ =>
        have hmeet : EndsRenamed p (fun d d' => d' = p d) (preds.foldlM g.commonDominator pred)
            ((preds.map p).foldlM g'.commonDominator (p pred)) := by
          refine EndsRenamed.foldlM ?_ preds pred (p pred) rfl
          rintro a _ c rfl
          exact h.commonDominator hp a c
        refine hmeet.bind ?_
        rintro d _ rfl
        exact .ok (h.withIdom hp b d)

theorem assignDominators_renamed (hp : Function.Injective p) (h : g.Renames p g') :
    EndsRenamed p (Renames p) g.assignDominators g'.assignDominators := by
  have horder : g'.reversePostOrder = g.reversePostOrder.map p := by
    rw [reversePostOrder, h.postOrder, reversePostOrder, List.map_reverse]
  unfold assignDominators
  rw [horder]
  exact EndsRenamed.foldlM (fun _ _ b h => assignDominator_renamed hp h b) _ _ _ h

/-- What is logged at the end of a build. -/
theorem Renames.built_eq (h : g.Renames p g') :
    Event.built g'.entry g'.size g'.traversal.backEdges.size g'.traversal.mergeEdges.size =
      (Event.built g.entry g.size g.traversal.backEdges.size g.traversal.mergeEdges.size).rename p := by
  have hback := congrArg List.length h.backEdges
  have hmerge := congrArg List.length h.mergeEdges
  simp only [Graph.backEdges, Graph.mergeEdges, Array.length_toList, List.length_map] at hback hmerge
  simp only [Event.rename, h.entry, h.size, hback, hmerge]

theorem ofFound_renamed (hp : Function.Injective p)
    {found found' : Logged (Except Error Traversal)}
    (h : found.Renames p (Traversal.Renames p) found') (entry : BlockId) :
    (ofFound entry found).Renames p (Renames p) (ofFound (p entry) found') := by
  obtain ⟨value, events⟩ := found
  obtain ⟨value', events'⟩ := found'
  obtain rfl : events' = events.map (Event.rename p) := h.events
  cases h.value with
  | error e => exact ⟨.error e, rfl⟩
  | @ok t t' ht =>
    have hpass := assignDominators_renamed hp (renames_single hp ht entry)
    unfold ofFound
    cases hbuilt : assignDominators (single entry t) with
    | error e =>
      simp only [hbuilt, hpass.of_error hbuilt]
      exact ⟨.error e, rfl⟩
    | ok g =>
      obtain ⟨g', hbuilt', hg⟩ := hpass.of_ok hbuilt
      simp only [hbuilt, hbuilt']
      refine ⟨.ok hg, ?_⟩
      rw [hg.built_eq, Array.map_push]

/-- Building keeps to the renaming, also where it fails and in what it logs. -/
theorem build_renamed (hp : Function.Injective p) {src src' : Source} (hsrc : src.Renames p src')
    (opts : Options) : (build src opts).Renames p (Renames p) (build src' opts) := by
  rw [build, build, hsrc.entry]
  exact ofFound_renamed hp (Traversal.run_renamed hp hsrc opts) src.entry

end FlowGraph.Graph

/-! ## Walks -/

namespace FlowGraph.Walk

variable {p : BlockId → BlockId} {g g' : Graph} {w w' : Walk}

/-- The second walk has seen and visited what the first has, renamed. -/
structure Renames (p : BlockId → BlockId) (w w' : Walk) : Prop where
  seen : ∀ b, w'.seen.contains (p b) = w.seen.contains b
  visited : w'.visited = w.visited.map p

theorem Renames.visit (hp : Function.Injective p) (h : w.Renames p w') (b : BlockId) :
    (w.visit b).Renames p (w'.visit (p b)) where
  seen x := by
    have hcmp : (compare (p b) (p x) == .eq) = (compare b x == .eq) := by
      rw [Bool.eq_iff_iff]
      simp [hp.eq_iff]
    simp only [Walk.visit, Std.TreeSet.contains_insert, hcmp, h.seen]
  visited := by simp only [Walk.visit, h.visited, Array.map_push]

theorem run_renamed (hp : Function.Injective p) (h : g.Renames p g')
    {goesOn goesOn' : BlockId → Bool} (hgoes : ∀ b, goesOn' (p b) = goesOn b)
    (hw : w.Renames p w') (stack : List BlockId) :
    (run g goesOn w stack).Renames p (run g' goesOn' w' (stack.map p)) := by
  induction w, stack using Walk.run.induct g goesOn generalizing w' with
  | case1 w =>
    rw [List.map_nil, run_nil, run_nil]
    exact hw
  | case2 w b stack hseen ih =>
    rw [run_of_seen hseen, List.map_cons, run_of_seen ((hw.seen b).trans hseen)]
    exact ih hw
  | case3 w b stack hseen ih =>
    have hpush : (if goesOn' (p b) then g'.succs (p b) ++ stack.map p else stack.map p) =
        (if goesOn b then g.succs b ++ stack else stack).map p := by
      rw [hgoes, h.succs]
      split
      · rw [List.map_append]
      · rfl
    rw [run_of_unseen hseen, List.map_cons, run_of_unseen ((hw.seen b).trans hseen), hpush]
    exact ih (hw.visit hp b)

end FlowGraph.Walk
