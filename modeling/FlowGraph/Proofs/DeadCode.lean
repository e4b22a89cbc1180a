import FlowGraph.Proofs.Errors
/-!
# Only reachable code counts

A traversal looks up the entry and what followed edges lead to from there. Of a
block it sees where it branches to and which loop it heads (`Block.outline`).
Whatever else the blocks of two sources hold, and whatever blocks there are
besides, building gives the same result, errors included (`build_eq_of_sameCode`).
-/

namespace FlowGraph

/-- Where a block branches to, in order, and the merge block of the loop it heads. -/
def Block.outline (b : Block) : List BlockId × Option BlockId := (b.successors, b.merge.loopBlock?)

theorem Block.exits_eq_of_outline_eq {block block' : Block} (h : block'.outline = block.outline)
    (opts : Options) : block'.exits opts = block.exits opts := by
  obtain ⟨hsucc, hloop⟩ := Prod.mk.inj h
  rw [exits, exits, hsucc, hloop]

namespace Source

/-- What followed edges lead to from the entry resolves in both sources or in
neither, and to blocks with the same outline. -/
structure SameCode (src : Source) (opts : Options) (src' : Source) : Prop where
  entry : src'.entry = src.entry
  outline_eq : ∀ b, src.Reaches opts b →
    (src'.block b).map Block.outline = (src.block b).map Block.outline

variable {src src' : Source} {opts : Options} {b : BlockId}

theorem SameCode.exits?_eq (h : src.SameCode opts src') (hb : src.Reaches opts b) :
    src.exits? opts b = src'.exits? opts b := by
  have hout := h.outline_eq b hb
  unfold exits?
  match hblock : src.block b, hblock' : src'.block b with
  | none, none => rfl
  | none, some _ => simp [hblock, hblock'] at hout
  | some _, none => simp [hblock, hblock'] at hout
  | some block, some block' =>
    simp only [hblock, hblock', Option.map_some, Option.some.injEq] at hout
    simp only [Option.map_some, Block.exits_eq_of_outline_eq hout]

/-- The blocks that a graph reaches are all that matters. -/
theorem sameCode_of_build {g : Graph} (hs : src.Consistent)
    (hg : (Graph.build src opts).value = .ok g) (he : src'.entry = src.entry)
    (h : ∀ b ∈ g.postOrder, (src'.block b).map Block.outline = (src.block b).map Block.outline) :
    src.SameCode opts src' := by
  refine ⟨he, fun b hb => h b ?_⟩
  obtain ⟨hl, -, -⟩ := Graph.lawful_of_build hs hg
  rw [Graph.mem_postOrder_iff hl.ordered, Graph.isReachable_iff_path hs hg]
  exact reaches_iff.1 hb

end Source

namespace Traversal

variable {src src' : Source} {opts : Options} {b : BlockId}

/-- A traversal from the entry asks for nothing but what followed edges lead to. -/
theorem State.Visited.reaches_of_asks {s : State} (hs : src.Consistent) (h : Visited src opts s)
    (hb : s.asks? = some b) : src.Reaches opts b := by
  obtain ⟨u, blocks, hblocks, hf⟩ := h.follows_of_asks hb
  have hp := h.path_blocks hblocks
  rw [hs] at hp
  exact .follow (Source.reaches_iff.2 ⟨_, hp⟩) hf

theorem run_eq_of_sameCode (hs : src.Consistent) (hs' : src'.Consistent) (h : src.SameCode opts src') :
    run src opts = run src' opts := by
  have hroot : src'.root = src.root := by rw [hs, hs', h.entry]
  have henter : State.enter src opts src.root {} = State.enter src' opts src.root {} := by
    apply State.enter_congr
    rw [hs]
    exact h.exits?_eq .entry
  unfold run
  rw [hroot, ← henter]
  cases he : State.enter src opts src.root {} with
  | halt result => rfl
  | next s =>
    obtain ⟨hd, block, hb, rfl⟩ := State.enter_eq_next he
    have hv := State.Visited.start hd hb
    refine State.run_congr (fun _ _ hv hstep => hv.step hstep) (fun _ _ hv hb => ?_) hv
    exact h.exits?_eq (hv.reaches_of_asks hs hb)

end Traversal

namespace Graph

variable {src : Source} {opts : Options}

/-- Sources with the same code give the same result: the same graph, or the
same error. So nothing depends on blocks that followed edges do not lead to,
on how a block that has the same targets is written, or on the merges of
selections. -/
theorem build_eq_of_sameCode (hs : src.Consistent) (opts : Options) :
    (∀ src' : Source, src'.Consistent → src.SameCode opts src' → build src' opts = build src opts) ∧
    (∀ view : View, (∀ b, src.Reaches opts b → view b = src.block b) →
      build (src.withView view) opts = build src opts) ∧
    ∀ rewritten : BlockId → Block → Block,
      (∀ b block, (rewritten b block).successors = block.successors ∧
        (rewritten b block).merge.loopBlock? = block.merge.loopBlock?) →
      build (src.withView fun b => (src.block b).map (rewritten b)) opts = build src opts := by
  have main : ∀ src' : Source, src'.Consistent → src.SameCode opts src' →
      build src' opts = build src opts := by
    intro src' hs' h
    rw [build, build, h.entry, Traversal.run_eq_of_sameCode hs hs' h]
  refine ⟨main, fun view h => ?_, fun rewritten h => ?_⟩
  · exact main _ hs ⟨rfl, fun b hb => by simp only [Source.withView, h b hb]⟩
  · refine main _ hs ⟨rfl, fun b _ => ?_⟩
    have hout : Block.outline ∘ rewritten b = Block.outline :=
      funext fun block => Prod.ext (h b block).1 (h b block).2
    simp only [Source.withView, Option.map_map, hout]

/-- `loopInLoop` without its selection and its dead block. Block 3 branches on a
value now, and block 8, from which nothing leads anywhere, ends otherwise. -/
def rewrittenLoop : Body := .ofList ⟨1⟩ [
  (⟨0⟩, ⟨.select ⟨3⟩ ⟨12⟩, .loop ⟨11⟩⟩),
  (⟨1⟩, ⟨.direct ⟨2⟩, .none⟩),
  (⟨2⟩, ⟨.direct ⟨3⟩, .loop ⟨8⟩⟩),
  (⟨3⟩, ⟨.multiSelect [⟨7, ⟨4⟩⟩] (some ⟨6⟩), .loop ⟨6⟩⟩),
  (⟨4⟩, ⟨.select ⟨5⟩ ⟨7⟩, .none⟩),
  (⟨5⟩, ⟨.direct ⟨7⟩, .none⟩),
  (⟨6⟩, ⟨.select ⟨2⟩ ⟨8⟩, .none⟩),
  (⟨7⟩, ⟨.direct ⟨3⟩, .none⟩),
  (⟨8⟩, ⟨.kill, .selection ⟨9⟩⟩)]

theorem build_eq_of_sameCode_rewrittenLoop : loopInLoop.source.Consistent ∧
    rewrittenLoop.source.Consistent ∧ loopInLoop.source.SameCode .standard rewrittenLoop.source ∧
    rewrittenLoop.get? ⟨9⟩ ≠ loopInLoop.get? ⟨9⟩ ∧ rewrittenLoop.get? ⟨3⟩ ≠ loopInLoop.get? ⟨3⟩ ∧
    build rewrittenLoop.source = build loopInLoop.source := by
  have hs := loopInLoop.consistent_source
  have hs' := rewrittenLoop.consistent_source
  obtain ⟨g, hg, hpost⟩ : ∃ g, (build loopInLoop.source).value = .ok g ∧
      g.postOrder = [⟨7⟩, ⟨5⟩, ⟨4⟩, ⟨8⟩, ⟨6⟩, ⟨3⟩, ⟨2⟩, ⟨1⟩] := exists_of_map_build (by cbv)
  have hsame : loopInLoop.source.SameCode .standard rewrittenLoop.source := by
    refine Source.sameCode_of_build hs hg rfl ?_
    rw [hpost]
    decide
  obtain ⟨hbuild, -, -⟩ := build_eq_of_sameCode hs .standard
  exact ⟨hs, hs', hsame, by decide, by decide, hbuild _ hs' hsame⟩

end Graph

end FlowGraph
