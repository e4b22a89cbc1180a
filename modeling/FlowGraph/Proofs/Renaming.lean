import Mathlib.Data.List.Forall2
import FlowGraph.Proofs.Placement
import FlowGraph.Proofs.Renaming.Graph
/-!
# Identifiers are opaque

No identifier is special, 0 included, and nothing depends on their order as
numbers. When the identifiers of a source are renamed by an injective map, the
outcome of a build and every answer of the graph are renamed along with them
(`outcome_of_renames`). Such a map reaches all identifiers, since there are
finitely many, so what is said of the images leaves out no block.
-/

namespace FlowGraph

variable {p : BlockId → BlockId} {g g' : Graph} {view view' : View}

/-! ## Placements -/

namespace Placement

/-- The placement at the renamed block. -/
def rename (p : BlockId → BlockId) (q : Placement) : Placement := ⟨q.point.map p⟩

theorem add_renamed (hp : Function.Injective p) (h : g.Renames p g') (b : BlockId) (q : Placement) :
    EndsRenamed p (fun r r' => r' = r.rename p) (q.add g b) ((q.rename p).add g' (p b)) := by
  unfold add
  rw [h.idom?]
  cases g.idom? b with
  | none => exact .ok rfl
  | some _ =>
    obtain ⟨point⟩ := q
    cases point with
    | none => exact .ok rfl
    | some current =>
      simp only [rename, Option.map_some, hp.eq_iff]
      split
      · exact .ok rfl
      · refine (h.commonDominator hp b current).map ?_
        rintro d _ rfl
        rfl

theorem addAll_renamed (hp : Function.Injective p) (h : g.Renames p g') (bs : List BlockId) :
    ∀ q : Placement, (q.rename p).addAll g' (bs.map p) =
      ((q.addAll g bs).1.rename p, (q.addAll g bs).2.map (Error.rename p)) := by
  induction bs with
  | nil => exact fun q => rfl
  | cons b bs ih =>
    intro q
    rw [List.map_cons, addAll, addAll, (add_renamed hp h b q).eq_map]
    cases q.add g b with
    | ok r => exact ih r
    | error e => rfl

theorem anyAbove_renamed (h : g.Renames p g') (rank : Nat) (targets : List BlockId) :
    EndsRenamed p (fun above above' => above' = above) (anyAbove g rank targets)
      (anyAbove g' rank (targets.map p)) := by
  induction targets with
  | nil => exact .ok rfl
  | cons target targets ih =>
    simp only [List.map_cons, anyAbove, h.rank?]
    cases g.rank? target with
    | none => exact .error _
    | some r =>
      refine ih.map ?_
      rintro above _ rfl
      rfl

theorem isContinue_renamed (h : g.Renames p g') (hview : view.Renames p view') (b : BlockId) :
    EndsRenamed p (fun above above' => above' = above) (isContinue g view b)
      (isContinue g' view' (p b)) := by
  unfold isContinue
  rw [h.rank?]
  cases g.rank? b with
  | none => exact .error _
  | some rank =>
    refine (hview.resolve b).bind ?_
    rintro block _ rfl
    rw [Block.successors_rename]
    exact anyAbove_renamed h rank block.successors

theorem lift_renamed (h : g.Renames p g') (hview : view.Renames p view') (q : Placement) :
    (q.lift g view).Renames p (fun r r' => r' = r.rename p) ((q.rename p).lift g' view') := by
  obtain ⟨point⟩ := q
  cases point with
  | none => exact ⟨.ok rfl, by simp [lift, rename]⟩
  | some d =>
    simp only [lift, rename, Option.map_some, (isContinue_renamed h hview d).eq_map, h.entry]
    cases isContinue g view d with
    | error e => exact ⟨.error e, by simp [Except.map, Except.mapError]⟩
    | ok above =>
      cases above with
      | false => exact ⟨.ok rfl, by simp [Except.map, Except.mapError]⟩
      | true => exact ⟨.ok rfl, by simp [Except.map, Except.mapError, Event.rename]⟩

/-- The second call is the first with its blocks renamed. A lift then sees
renamed blocks. -/
inductive Call.Renames (p : BlockId → BlockId) : Call → Call → Prop
  | add (b : BlockId) : Renames p (add b) (add (p b))
  | addAll (bs : List BlockId) : Renames p (addAll bs) (addAll (bs.map p))
  | lift {view view' : View} : view.Renames p view' → Renames p (lift view) (lift view')

theorem call_renamed (hp : Function.Injective p) (h : g.Renames p g') {c c' : Call}
    (hc : c.Renames p c') (q : Placement) :
    call g' (q.rename p) c' = ((call g q c).1.rename p, (call g q c).2.map (Error.rename p)) := by
  cases hc with
  | add b =>
    rw [call, call, (add_renamed hp h b q).eq_map]
    cases q.add g b <;> rfl
  | addAll bs => exact addAll_renamed hp h bs q
  | @lift view view' hview =>
    rw [call, call, (lift_renamed h hview q).value.eq_map]
    cases (q.lift g view).value <;> rfl

theorem after_renamed (hp : Function.Injective p) (h : g.Renames p g') {calls calls' : List Call}
    (hcalls : List.Forall₂ (Call.Renames p) calls calls') :
    ∀ q : Placement, after g' (q.rename p) calls' = (after g q calls).rename p := by
  induction hcalls with
  | nil => exact fun q => rfl
  | cons hc _ ih =>
    intro q
    rw [after, after, call_renamed hp h hc]
    exact ih _

end Placement

/-! ## Whole builds -/

namespace Graph

/-- Renamed questions get renamed answers. -/
structure AnswersAlike (p : BlockId → BlockId) (g g' : Graph) : Prop where
  commonDominator : ∀ a b, g'.commonDominator (p a) (p b) =
    ((g.commonDominator a b).map p).mapError (Error.rename p)
  dominators : ∀ b, g'.dominators (p b) = (g.dominators b).map p
  dominates : ∀ a b, g'.dominates (p a) (p b) = g.dominates a b
  loopHeader? : ∀ view view' : View, view.Renames p view' → ∀ b, g'.loopHeader? view' (p b) =
    ((g.loopHeader? view b).map (Option.map p)).mapError (Error.rename p)
  walkFrom : ∀ (seen seen' : Std.TreeSet BlockId) (goesOn goesOn' : BlockId → Bool),
    (∀ b, seen'.contains (p b) = seen.contains b) → (∀ b, goesOn' (p b) = goesOn b) →
    ∀ b, (g.walkFrom seen b goesOn).Renames p (g'.walkFrom seen' (p b) goesOn')
  call : ∀ (q : Placement) (c c' : Placement.Call), c.Renames p c' → (q.rename p).call g' c' =
    ((q.call g c).1.rename p, (q.call g c).2.map (Error.rename p))
  after : ∀ calls calls' : List Placement.Call,
    List.Forall₂ (Placement.Call.Renames p) calls calls' →
    Placement.after g' {} calls' = (Placement.after g {} calls).rename p

theorem Renames.answersAlike (hp : Function.Injective p) (h : g.Renames p g') :
    g.AnswersAlike p g' where
  commonDominator a b := (h.commonDominator hp a b).eq_map
  dominators := h.dominators hp
  dominates := h.dominates hp
  loopHeader? _ _ hview b := (h.loopHeader? hp hview b).eq_map
  walkFrom _ _ _ _ hseen hgoes b := Walk.run_renamed hp h hgoes ⟨hseen, by simp⟩ [b]
  call q _ _ hc := Placement.call_renamed hp h hc q
  after _ _ hcalls := Placement.after_renamed hp h hcalls {}

variable {src src' : Source}

/-- Renaming the identifiers of a source renames the outcome of its build: the
error and its block, or the graph with all that can be asked of it. -/
theorem outcome_of_renames (hp : Function.Injective p) (hsrc : src.Renames p src')
    (opts : Options) :
    (build src' opts).events = (build src opts).events.map (Event.rename p) ∧
    (∀ e, (build src opts).value = .error e → (build src' opts).value = .error (e.rename p)) ∧
    ∀ g, (build src opts).value = .ok g →
      ∃ g', (build src' opts).value = .ok g' ∧ g.Renames p g' ∧ g.AnswersAlike p g' := by
  obtain ⟨hvalue, hevents⟩ := build_renamed hp hsrc opts
  refine ⟨hevents, fun e he => hvalue.of_error he, fun g hg => ?_⟩
  obtain ⟨g', hg', h⟩ := hvalue.of_ok hg
  exact ⟨g', hg', h, h.answersAlike hp⟩

/-- The order of the identifiers from 0 to 8 turned around. -/
def mirrored (b : BlockId) : BlockId := ⟨8 - b.raw⟩

theorem mirrored_injective : Function.Injective mirrored := by
  rintro ⟨a⟩ ⟨b⟩ h
  have hraw : 8 - a = 8 - b := congrArg BlockId.raw h
  rw [(UInt32.sub_right_inj 8).1 hraw]

theorem outcome_of_renames_mirrored : Function.Injective mirrored ∧
    loopInLoop.source.Renames mirrored (loopInLoop.rename mirrored).source ∧
    ∃ g g', (build loopInLoop.source).value = .ok g ∧
      (build (loopInLoop.rename mirrored).source).value = .ok g' ∧
      g.postOrder = [⟨7⟩, ⟨5⟩, ⟨4⟩, ⟨8⟩, ⟨6⟩, ⟨3⟩, ⟨2⟩, ⟨1⟩] ∧
      g'.postOrder = [⟨1⟩, ⟨3⟩, ⟨4⟩, ⟨0⟩, ⟨2⟩, ⟨5⟩, ⟨6⟩, ⟨7⟩] ∧
      g.commonDominator ⟨5⟩ ⟨8⟩ = .ok ⟨2⟩ ∧ g'.commonDominator ⟨3⟩ ⟨0⟩ = .ok ⟨6⟩ := by
  have hrenames := loopInLoop.renames_rename mirrored_injective
  obtain ⟨g, hg, hd⟩ : ∃ g, (build loopInLoop.source).value = .ok g ∧
      (g.postOrder, g.commonDominator ⟨5⟩ ⟨8⟩) =
        ([⟨7⟩, ⟨5⟩, ⟨4⟩, ⟨8⟩, ⟨6⟩, ⟨3⟩, ⟨2⟩, ⟨1⟩], .ok ⟨2⟩) := exists_of_map_build (by cbv)
  obtain ⟨hpost, hmeet⟩ := Prod.mk.inj hd
  obtain ⟨-, -, houtcome⟩ := outcome_of_renames mirrored_injective hrenames .standard
  obtain ⟨g', hg', h, halike⟩ := houtcome g hg
  have hpost' := h.postOrder
  have hmeet' := halike.commonDominator ⟨5⟩ ⟨8⟩
  rw [hpost] at hpost'
  rw [hmeet] at hmeet'
  exact ⟨mirrored_injective, hrenames, g, g', hg, hg', hpost, hpost', hmeet, hmeet'⟩

end Graph

end FlowGraph
