import FlowGraph.Proofs.Changing
import FlowGraph.Proofs.Edges
import FlowGraph.Proofs.Graph.Progress
import FlowGraph.Proofs.LoopSearch
import FlowGraph.Proofs.Placement
import FlowGraph.Proofs.Traversal.Failing
import FlowGraph.Proofs.Traversal.Recursion
/-!
# What can go wrong

A graph of a source whose traversal starts at the entry fails to build for two
reasons only: a block that followed edges lead to does not resolve, or the path
is too long (`outcome_of_build`). Other sources make the pass over the dominators
fail as well, but no source, however it changes, makes a search run out of steps
(`not_internal_of_build`).
-/

namespace FlowGraph

/-- The least set of blocks that contains the entry and every block that an edge
is followed to from one that it contains. -/
inductive Source.Reaches (src : Source) (opts : Options) : BlockId → Prop
  | entry : Reaches src opts src.entry
  | follow {u v : BlockId} : Reaches src opts u → src.Follows opts u v → Reaches src opts v

/-- Every block that it contains resolves. -/
def Source.Resolves (src : Source) (opts : Options) : Prop :=
  ∀ b, src.Reaches opts b → (src.block b).isSome

theorem Source.reaches_iff {src : Source} {opts : Options} {b : BlockId} :
    src.Reaches opts b ↔ ∃ l, Path (src.Follows opts) src.entry b l := by
  constructor
  · intro h
    induction h with
    | entry => exact ⟨_, .single⟩
    | follow _ hf ih =>
      obtain ⟨l, hl⟩ := ih
      exact ⟨_, hl.snoc hf⟩
  · rintro ⟨l, hl⟩
    induction hl with
    | single => exact .entry
    | snoc _ hf ih => exact .follow ih hf

/-! ## Placements -/

namespace Placement

variable {g : Graph}

theorem ends_anyAbove (g : Graph) (rank : Nat) (targets : List BlockId) :
    Ends (fun _ => True) (¬ ·.Internal) (anyAbove g rank targets) := by
  induction targets with
  | nil => exact trivial
  | cons target targets ih =>
    unfold anyAbove
    split
    · exact nofun
    · exact ih.map fun _ _ => trivial

theorem ends_isContinue (g : Graph) (view : View) (b : BlockId) :
    Ends (fun _ => True) (¬ ·.Internal) (isContinue g view b) := by
  unfold isContinue View.resolve
  split
  · exact nofun
  · cases view b with
    | none => exact nofun
    | some block => exact ends_anyAbove g _ block.successors

theorem ends_lift (g : Graph) (view : View) (p : Placement) :
    Ends (fun _ => True) (¬ ·.Internal) (p.lift g view).value := by
  unfold lift
  split
  · exact trivial
  · split
    · next e he => exact (ends_isContinue g view _).of_error he
    · exact trivial
    · exact trivial

theorem ends_add (ht : g.Tree) (b : BlockId) (p : Placement) :
    Ends (fun _ => True) (¬ ·.Internal) (p.add g b) := by
  unfold add
  split
  · exact trivial
  · split
    · exact trivial
    · split
      · exact trivial
      · exact (ht.ends_commonDominator _ _).map fun _ _ => trivial

theorem not_internal_of_addAll (ht : g.Tree) {e : Error} (bs : List BlockId) :
    ∀ p : Placement, (p.addAll g bs).2 = some e → ¬ e.Internal := by
  induction bs with
  | nil => exact fun _ h => by cases h
  | cons b bs ih =>
    intro p h
    unfold addAll at h
    split at h
    · exact ih _ h
    · next e' he =>
      cases h
      exact (ends_add ht b p).of_error he

theorem not_internal_of_call (ht : g.Tree) {e : Error} (p : Placement) (c : Call)
    (h : (call g p c).2 = some e) : ¬ e.Internal := by
  cases c with
  | add b =>
    simp only [call] at h
    split at h
    · cases h
    · next e' he =>
      cases h
      exact (ends_add ht b p).of_error he
  | addAll bs => exact not_internal_of_addAll ht bs p h
  | lift view =>
    simp only [call] at h
    split at h
    · cases h
    · next e' he =>
      cases h
      exact (ends_lift g view p).of_error he

end Placement

namespace Graph

variable {src : Source} {opts : Options} {g : Graph} {root : BlockId}

/-! ## The search for a loop -/

theorem ends_loopHeaderOver? (ho : g.traversal.PostOrdered root) (views : Nat → View) (b : BlockId) :
    Ends (fun r => ∀ a, r = some a → g.RankLt b a) (fun e => ∃ p, e = .unknown p)
      (g.loopHeaderOver? views b) := by
  apply (ends_searchLoopOver ho b _ views b (g.within_size b)).imp
  · exact fun r hr a ha => (hr a ha).rankLt
  · rintro e ⟨⟩
    exact ⟨_, rfl⟩

/-! ## Building -/

theorem ends_build (src : Source) (opts : Options) :
    Ends (fun g => Tree g ∧ g.traversal.PostOrdered src.root) (¬ ·.Internal) (build src opts).value := by
  cases hr : (Traversal.run src opts).value with
  | error e =>
    rw [value_build_of_error hr]
    cases Traversal.fails_of_run hr with
    | unknown => exact nofun
    | tooDeep => exact nofun
  | ok t =>
    have ho := Traversal.postOrdered_of_run hr
    have htree : Tree (single src.entry t) := tree_single ho
    rw [value_build hr]
    refine (ends_assignDominators htree ho).imp ?_ fun _ he => he
    rintro g ⟨htree, hfound⟩
    exact ⟨htree, hfound ▸ ho⟩

/-- No source makes a search run out, while a graph is built or in any later
query, about any blocks. `views` is what the source answers while the graph is
built. It may change at any time, and the traversal need not start at the entry.
The answers to the queries may differ from those, and may change during the
search for a loop as well. -/
theorem not_internal_of_build (src : Source) (opts : Options) :
    buildOver src opts (fun _ => src.block) = build src opts ∧
    ∀ views,
      (∀ e, (buildOver src opts views).value = .error e → ¬ e.Internal) ∧
      ∀ g, (buildOver src opts views).value = .ok g →
        (∀ a b e, g.commonDominator a b = .error e → ¬ e.Internal) ∧
        (∀ view b e, g.loopHeader? view b = .error e → ¬ e.Internal) ∧
        (∀ views' b e, g.loopHeaderOver? views' b = .error e → ¬ e.Internal) ∧
        ∀ p c e, (Placement.call g p c).2 = some e → ¬ e.Internal := by
  refine ⟨buildOver_const src opts, fun views => ?_⟩
  obtain ⟨view, hview⟩ := exists_view_of_buildOver src opts views
  rw [hview]
  have hbuild := ends_build (src.withView view) opts
  refine ⟨fun e he => hbuild.of_error he, fun g hg => ?_⟩
  obtain ⟨ht, ho⟩ := hbuild.of_ok hg
  have hsearch : ∀ views' b e, g.loopHeaderOver? views' b = .error e → ¬ e.Internal := by
    intro views' b e he
    obtain ⟨p, rfl⟩ := (ends_loopHeaderOver? ho views' b).of_error he
    exact nofun
  refine ⟨fun a b e he => (ht.ends_commonDominator a b).of_error he, fun view b e he => ?_, hsearch,
    fun p c e he => Placement.not_internal_of_call ht p c he⟩
  exact hsearch (fun _ => view) b e (g.loopHeaderOver?_const view b ▸ he)

/-- Block 1 leads to the entry, where the traversal does not start. -/
def detour : Source where
  entry := ⟨2⟩
  root := ⟨1⟩
  block := (Body.ofList ⟨1⟩ [
    (⟨1⟩, ⟨.direct ⟨2⟩, .none⟩),
    (⟨2⟩, ⟨.select ⟨3⟩ ⟨1⟩, .none⟩),
    (⟨3⟩, ⟨.ret, .none⟩)]).get?

/-- The branch back to block 1 is gone once block 1 has been looked up. -/
def detourViews : Nat → View
  | 0 => detour.block
  | _ => (Body.ofList ⟨1⟩ [(⟨2⟩, ⟨.direct ⟨3⟩, .none⟩), (⟨3⟩, ⟨.ret, .none⟩)]).get?

theorem not_internal_of_build_detour : ¬ detour.Consistent ∧
    ∃ g, (buildOver detour .standard detourViews).value = .ok g ∧ g.backEdges = [] ∧
      g.commonDominator ⟨3⟩ ⟨1⟩ = .error (.unreachable ⟨1⟩) ∧
      (∀ a b e, g.commonDominator a b = .error e → ¬ e.Internal) ∧
      ∀ view b e, g.loopHeader? view b = .error e → ¬ e.Internal := by
  obtain ⟨g, hg, hd⟩ : ∃ g, (buildOver detour .standard detourViews).value = .ok g ∧
      (g.backEdges, g.commonDominator ⟨3⟩ ⟨1⟩) = ([], .error (.unreachable ⟨1⟩)) :=
    exists_of_map_build (by cbv)
  obtain ⟨hback, hc⟩ := Prod.mk.inj hd
  obtain ⟨-, hall⟩ := not_internal_of_build detour .standard
  obtain ⟨-, hgraph⟩ := hall detourViews
  obtain ⟨hcommon, hsearch, -, -⟩ := hgraph g hg
  exact ⟨by decide, g, hg, hback, hc, hcommon, hsearch⟩

/-! ## Building from the entry -/

section
variable (hs : src.Consistent)
include hs

theorem fails_of_build {e : Error} (h : (build src opts).value = .error e) :
    Traversal.Fails src opts e := by
  cases hr : (Traversal.run src opts).value with
  | error e' =>
    rw [value_build_of_error hr] at h
    cases h
    exact Traversal.fails_of_run hr
  | ok t =>
    obtain ⟨g, hg, -⟩ := exists_build hs hr
    rw [h] at hg
    cases hg

theorem unknown_of_fails {b : BlockId} (h : Traversal.Fails src opts (.unknown b)) :
    src.Reaches opts b ∧ src.block b = none := by
  cases h with
  | unknown hp hb =>
    rw [hs] at hp
    exact ⟨Source.reaches_iff.2 ⟨_, hp⟩, hb⟩

theorem resolves_of_build (h : (build src opts).value = .ok g) : src.Resolves opts := by
  intro b hb
  obtain ⟨-, -, ha⟩ := lawful_of_build hs h
  obtain ⟨r, hr⟩ := isReachable_iff.1 ((isReachable_iff_path hs h).2 (Source.reaches_iff.1 hb))
  obtain ⟨block, hblock⟩ := ha.resolves b r hr
  rw [hblock]
  rfl

/-- With room on the path for every block that resolves, building fails only if
one does not. -/
theorem exists_unknown_of_build {n : Nat} {e : Error} (hn : src.AtMost n) (hd : n < opts.maxDepth)
    (h : (build src opts).value = .error e) :
    ∃ b, e = .unknown b ∧ src.Reaches opts b ∧ src.block b = none := by
  cases fails_of_build hs h with
  | unknown hp hb => exact ⟨_, rfl, unknown_of_fails hs (.unknown hp hb)⟩
  | @tooDeep b l _ hnodup hl hres =>
    have hle := hn l (List.nodup_append.1 hnodup).1 hres
    omega

end

/-- Building from the entry succeeds only if every block that followed edges lead
to resolves, and fails only on a block that does not or on the limit of the path.
If the limit is above the number of blocks that resolve, it succeeds exactly if
all do. Once the traversal has succeeded, nothing fails. -/
theorem outcome_of_build (hs : src.Consistent) (opts : Options) :
    ((∃ g, (build src opts).value = .ok g) → src.Resolves opts) ∧
    (∀ e, (build src opts).value = .error e →
      (∃ b, e = .unknown b ∧ src.Reaches opts b ∧ src.block b = none) ∨
        e = .tooDeep opts.maxDepth) ∧
    (∀ n, src.AtMost n → n < opts.maxDepth →
      ((∃ g, (build src opts).value = .ok g) ↔ src.Resolves opts) ∧
      (¬ src.Resolves opts → ∃ b, (build src opts).value = .error (.unknown b) ∧
        src.Reaches opts b ∧ src.block b = none)) ∧
    ∀ t, (Traversal.run src opts).value = .ok t → ∃ g, (build src opts).value = .ok g := by
  have hok : (∃ g, (build src opts).value = .ok g) → src.Resolves opts :=
    fun ⟨_, hg⟩ => resolves_of_build hs hg
  refine ⟨hok, fun e he => ?_, fun n hn hd => ?_, fun t ht => ?_⟩
  · cases fails_of_build hs he with
    | unknown hp hb => exact .inl ⟨_, rfl, unknown_of_fails hs (.unknown hp hb)⟩
    | tooDeep => exact .inr rfl
  · cases hb : (build src opts).value with
    | ok g =>
      have hres := hok ⟨g, hb⟩
      exact ⟨⟨fun _ => hres, fun _ => ⟨g, rfl⟩⟩, fun h => absurd hres h⟩
    | error e =>
      obtain ⟨b, rfl, hreach, hnone⟩ := exists_unknown_of_build hs hn hd hb
      have hres : ¬ src.Resolves opts := by
        intro h
        have := h b hreach
        simp [hnone] at this
      refine ⟨⟨?_, fun h => absurd h hres⟩, fun _ => ⟨b, rfl, hreach, hnone⟩⟩
      rintro ⟨g, hg⟩
      cases hg
  · obtain ⟨g, hg, -⟩ := exists_build hs ht
    exact ⟨g, hg⟩

/-- Block 3, which does not exist, is only the merge block of a loop. -/
def dangling : Body := .ofList ⟨1⟩ [
  (⟨1⟩, ⟨.direct ⟨2⟩, .loop ⟨3⟩⟩),
  (⟨2⟩, ⟨.direct ⟨1⟩, .none⟩)]

theorem outcome_of_build_dangling : dangling.source.Consistent ∧ dangling.source.AtMost 2 ∧
    (build dangling.source).value = .error (.unknown ⟨3⟩) ∧
    ¬ dangling.source.Resolves .standard ∧ dangling.source.Reaches .standard ⟨3⟩ ∧
    dangling.source.Resolves .literal := by
  have hs := dangling.consistent_source
  have hn : dangling.source.AtMost 2 := dangling.atMost_source
  have he : (build dangling.source).value = .error (.unknown ⟨3⟩) := by cbv
  obtain ⟨g, hg, -⟩ : ∃ g, (build dangling.source .literal).value = .ok g ∧ g.size = 2 :=
    exists_of_map_build (by cbv)
  obtain ⟨-, herror, hroom, -⟩ := outcome_of_build hs .standard
  obtain ⟨hok, -⟩ := outcome_of_build hs .literal
  refine ⟨hs, hn, he, fun h => ?_, ?_, hok ⟨g, hg⟩⟩
  · obtain ⟨g', hg'⟩ := (hroom 2 hn (by decide)).1.2 h
    rw [he] at hg'
    cases hg'
  · obtain ⟨b, hb, hreach, -⟩ | hdeep := herror _ he
    · cases hb
      exact hreach
    · cases hdeep

end Graph

end FlowGraph
