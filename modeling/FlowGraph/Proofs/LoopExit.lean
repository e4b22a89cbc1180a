import FlowGraph.Proofs.Errors
import FlowGraph.Proofs.Loop
/-!
# The search from a merge block

From a merge block the search goes to the first recorded predecessor that owns
it (`owner?`), and on from there without a look at whether that is a loop
(`loopHeader?_eq_of_owner`). If that is the header of a loop, the loops around
its merge block are those around the header. But a selection may own the merge
block of a loop as well, and its header may be the first. It may lie in the
loop, which the search then takes to be around the merge block
(`loopHeader?_of_mergeEdge`, `loopHeader?_merge_eq_header`).
-/

namespace FlowGraph

/-- The block has `b` for its merge block, be it the merge of a loop or of a selection. -/
def View.Owns (view : View) (p b : BlockId) : Prop :=
  view.merge? p = some (.loop b) ∨ view.merge? p = some (.selection b)

instance (view : View) (p b : BlockId) : Decidable (view.Owns p b) :=
  inferInstanceAs (Decidable (_ ∨ _))

namespace Graph

variable {src : Source} {opts : Options} {g : Graph} {view : View} {b h m p root : BlockId}

/-- The first recorded predecessor that owns the block. -/
def owner? (g : Graph) (view : View) (b : BlockId) : Option BlockId := (g.preds b).find? (view.Owns · b)

/-! ## The first step -/

/-- The search goes to the first predecessor that owns the block. -/
theorem approach_of_find? (first : BlockId) {preds : List BlockId}
    (hres : ∀ p ∈ preds, ∃ block, view p = some block) (hp : preds.find? (view.Owns · b) = some p) :
    approach view b first preds = .ok ⟨p, decide (view.merge? p = some (.loop b))⟩ := by
  induction preds with
  | nil => cases hp
  | cons q preds ih =>
    rw [List.forall_mem_cons] at hres
    obtain ⟨⟨block, hb⟩, hrest⟩ := hres
    have hm := View.merge?_of_eq_some hb
    rw [List.find?_cons] at hp
    split at hp
    · next howns =>
      cases hp
      rcases of_decide_eq_true howns with hl | hl
      all_goals
        rw [hm, Option.some.injEq] at hl
        simp [approach, hb, hm, hl]
    · next howns =>
      have howns := of_decide_eq_false howns
      have hloop : block.merge ≠ .loop b := fun heq => howns (.inl (by rw [hm, heq]))
      have hsel : block.merge ≠ .selection b := fun heq => howns (.inr (by rw [hm, heq]))
      rw [← ih hrest hp]
      cases hmb : block.merge with
      | none => simp [approach, hb, hmb]
      | loop c =>
        have hcb : c ≠ b := fun heq => hloop (hmb.trans (congrArg _ heq))
        simp [approach, hb, hmb, hcb]
      | selection c =>
        have hcb : c ≠ b := fun heq => hsel (hmb.trans (congrArg _ heq))
        simp [approach, hb, hmb, hcb]

theorem owns_of_owner? (hp : g.owner? view b = some p) : p ∈ g.preds b ∧ view.Owns p b := by
  rw [owner?] at hp
  exact ⟨List.mem_of_find?_eq_some hp, by simpa using List.find?_some hp⟩

/-- From a block that has an owner the search goes on as from the owner. -/
theorem loopHeader?_eq_of_owner (ho : g.traversal.PostOrdered root)
    (hres : ∀ p ∈ g.preds b, ∃ block, view p = some block) (hp : g.owner? view b = some p) :
    g.loopHeader? view b = g.loopHeader? view p := by
  obtain ⟨hmem, howns⟩ := owns_of_owner? hp
  have hlt : g.RankLt b p := rankLt_of_recorded ho ((recorded_iff_mem_preds ho).2 hmem)
  have hrest : g.searchLoop view b g.size p = g.loopHeader? view p :=
    searchLoop_congr ho b p _ _ p ((g.within_size b).up ho hlt) (g.within_size p)
  obtain ⟨block, hb⟩ := hres p hmem
  have hm := View.merge?_of_eq_some hb
  obtain ⟨first, preds, hps⟩ := List.exists_cons_of_ne_nil (List.ne_nil_of_mem hmem)
  have happ := approach_of_find? first hres hp
  rw [hps] at happ
  rw [loopHeader?, searchLoop_succ, searchStep, hps]
  simp only [happ, bind, Except.bind, View.resolve, hb, hrest]
  -- an owner that is not skipped heads a selection, and so no loop
  rcases howns with hl | hl
  · simp [hl]
  · have hsel : block.merge = .selection b := Option.some.inj (hm.symm.trans hl)
    simp [hm, hsel, Merge.isLoop]

/-- The search never finds the block where it starts. -/
theorem loopHeader?_ne (ho : g.traversal.PostOrdered root) (view : View) (b : BlockId) :
    g.loopHeader? view b ≠ .ok (some b) := by
  intro hok
  rw [← loopHeaderOver?_const] at hok
  exact ((ends_loopHeaderOver? ho _ b).of_ok hok b rfl).irrefl

/-! ## The merge block of a loop -/

theorem merge?_of_mergeEdge (hb : (build src opts).value = .ok g) (he : ⟨h, m⟩ ∈ g.mergeEdges) :
    src.block.merge? h = some (.loop m) ∧ g.Recorded h m := by
  have hrun := (run_of_build hb).2
  have hrec : g.Recorded h m :=
    (Traversal.accounts_of_run hrun).mem_succs_of_mergeEdge _ (Array.mem_toList_iff.1 he)
  have hr := (rankLt_of_recorded (Traversal.postOrdered_of_run hrun) hrec).isReachable_right
  obtain ⟨block, hblock, hsorts⟩ := sortsExits_of_build hb hr
  have hcount := hsorts.mergeEdges m
  have hpos := List.count_pos_iff.2 he
  split at hcount
  · next hloop => exact ⟨by rw [View.merge?, hblock, Option.map_some, hloop.2.1], hrec⟩
  · omega

/-- The search from the merge block of a loop, if no other loop has the same one.
It goes on as from the header, so that it never finds the loop itself, unless a
selection with this merge block was recorded before. Then it goes on as from the
header of the first such selection. -/
theorem loopHeader?_of_mergeEdge (hb : (build src opts).value = .ok g) (he : ⟨h, m⟩ ∈ g.mergeEdges)
    (honly : ∀ h', g.isReachable h' → src.block.merge? h' = some (.loop m) → h' = h) :
    (∀ before after, g.preds m = before ++ h :: after →
      (∀ q ∈ before, src.block.merge? q ≠ some (.selection m)) →
        g.loopHeader? src.block m = g.loopHeader? src.block h ∧
          g.loopHeader? src.block m ≠ .ok (some h)) ∧
    ∃ p, g.owner? src.block m = some p ∧ (p = h ∨ src.block.merge? p = some (.selection m)) ∧
      g.loopHeader? src.block m = g.loopHeader? src.block p := by
  have hrun := (run_of_build hb).2
  have ho := Traversal.postOrdered_of_run hrun
  have ha := Traversal.accounts_of_run hrun
  have hpred : ∀ p ∈ g.preds m, g.isReachable p := fun p hp =>
    (rankLt_of_recorded ho ((recorded_iff_mem_preds ho).2 hp)).isReachable_right
  have hres : ∀ p ∈ g.preds m, ∃ block, src.block p = some block := by
    intro p hp
    obtain ⟨r, hr⟩ := isReachable_iff.1 (hpred p hp)
    exact ha.resolves p r hr
  obtain ⟨hloop, hrec⟩ := merge?_of_mergeEdge hb he
  have hmem : h ∈ g.preds m := (recorded_iff_mem_preds ho).1 hrec
  have howns : decide (src.block.Owns h m) = true := decide_eq_true (.inl hloop)
  refine ⟨fun before after hsplit hsel => ?_, ?_⟩
  · have hnew : h ∉ before := by
      have hnodup := Traversal.nodup_preds_of_run hrun m
      rw [← preds, hsplit] at hnodup
      exact fun hin => (List.nodup_append.1 hnodup).2.2 h hin h List.mem_cons_self rfl
    have hown : g.owner? src.block m = some h := by
      refine List.find?_eq_some_iff_append.2 ⟨howns, before, after, hsplit, fun q hq => ?_⟩
      suffices hno : ¬ src.block.Owns q m by simpa using hno
      rintro (hql | hqs)
      · have hqh := honly q (hpred q (hsplit ▸ List.mem_append_left _ hq)) hql
        exact hnew (hqh ▸ hq)
      · exact hsel q hq hqs
    have heq := loopHeader?_eq_of_owner ho hres hown
    refine ⟨heq, ?_⟩
    rw [heq]
    exact loopHeader?_ne ho src.block h
  · obtain ⟨p, hp⟩ : ∃ p, g.owner? src.block m = some p :=
      Option.isSome_iff_exists.1 (List.find?_isSome.2 ⟨h, hmem, howns⟩)
    obtain ⟨hpm, hpo⟩ := owns_of_owner? hp
    exact ⟨p, hp, hpo.imp_left (honly p (hpred p hpm)), loopHeader?_eq_of_owner ho hres hp⟩

/-- A loop in a loop. The inner one is left to block 5 by its header and by a
selection that meets there too. -/
def sharedExit : Body := .ofList ⟨1⟩ [
  (⟨1⟩, ⟨.direct ⟨2⟩, .none⟩),
  (⟨2⟩, ⟨.direct ⟨3⟩, .loop ⟨7⟩⟩),
  (⟨3⟩, ⟨.select ⟨5⟩ ⟨4⟩, .loop ⟨5⟩⟩),
  (⟨4⟩, ⟨.select ⟨6⟩ ⟨5⟩, .selection ⟨5⟩⟩),
  (⟨5⟩, ⟨.select ⟨2⟩ ⟨7⟩, .none⟩),
  (⟨6⟩, ⟨.direct ⟨3⟩, .none⟩),
  (⟨7⟩, ⟨.ret, .none⟩)]

theorem loopHeader?_of_mergeEdge_sharedExit : ∃ g, (build sharedExit.source).value = .ok g ∧
    ⟨⟨3⟩, ⟨5⟩⟩ ∈ g.mergeEdges ∧ g.preds ⟨5⟩ = [⟨3⟩, ⟨4⟩] ∧
    (∀ h', g.isReachable h' → sharedExit.source.block.merge? h' = some (.loop ⟨5⟩) → h' = ⟨3⟩) ∧
    g.loopHeader? sharedExit.source.block ⟨3⟩ = .ok (some ⟨2⟩) ∧
    g.loopHeader? sharedExit.source.block ⟨5⟩ = .ok (some ⟨2⟩) := by
  obtain ⟨g, hg, hd⟩ : ∃ g, (build sharedExit.source).value = .ok g ∧
      (g.mergeEdges, g.preds ⟨5⟩, g.postOrder, g.loopHeader? sharedExit.source.block ⟨3⟩) =
        ([⟨⟨3⟩, ⟨5⟩⟩, ⟨⟨2⟩, ⟨7⟩⟩], [⟨3⟩, ⟨4⟩], [⟨7⟩, ⟨5⟩, ⟨6⟩, ⟨4⟩, ⟨3⟩, ⟨2⟩, ⟨1⟩],
          .ok (some ⟨2⟩)) := exists_of_map_build (by cbv)
  simp only [Prod.mk.injEq] at hd
  obtain ⟨hedges, hpreds, hpost, hh⟩ := hd
  have he : ⟨⟨3⟩, ⟨5⟩⟩ ∈ g.mergeEdges := by simp [hedges]
  have honly : ∀ h', g.isReachable h' →
      sharedExit.source.block.merge? h' = some (.loop ⟨5⟩) → h' = ⟨3⟩ := by
    intro h' hr
    rw [← mem_postOrder_iff (Traversal.postOrdered_of_run (run_of_build hg).2), hpost] at hr
    revert h'
    decide
  obtain ⟨hfirst, -⟩ := loopHeader?_of_mergeEdge hg he honly
  refine ⟨g, hg, he, hpreds, honly, hh, ?_⟩
  rw [(hfirst [] [⟨4⟩] hpreds (by simp)).1, hh]

/-- The header of a loop leads to a selection that meets where the loop ends. -/
def earlySelection : Body := .ofList ⟨1⟩ [
  (⟨1⟩, ⟨.direct ⟨2⟩, .loop ⟨4⟩⟩),
  (⟨2⟩, ⟨.select ⟨3⟩ ⟨4⟩, .selection ⟨4⟩⟩),
  (⟨3⟩, ⟨.direct ⟨1⟩, .none⟩),
  (⟨4⟩, ⟨.ret, .none⟩)]

/-- From the merge block of a loop the search may come back to the loop. -/
theorem loopHeader?_merge_eq_header : earlySelection.source.Consistent ∧
    ∃ g, (build earlySelection.source).value = .ok g ∧ ⟨⟨1⟩, ⟨4⟩⟩ ∈ g.mergeEdges ∧
      (∀ h', g.isReachable h' → earlySelection.source.block.merge? h' = some (.loop ⟨4⟩) → h' = ⟨1⟩) ∧
      g.loopHeader? earlySelection.source.block ⟨4⟩ = .ok (some ⟨1⟩) ∧
      g.loopHeader? earlySelection.source.block ⟨1⟩ = .ok none := by
  obtain ⟨g, hg, hd⟩ : ∃ g, (build earlySelection.source).value = .ok g ∧
      (g.mergeEdges, g.postOrder, g.loopHeader? earlySelection.source.block ⟨4⟩,
        g.loopHeader? earlySelection.source.block ⟨1⟩) =
        ([⟨⟨1⟩, ⟨4⟩⟩], [⟨3⟩, ⟨4⟩, ⟨2⟩, ⟨1⟩], .ok (some ⟨1⟩), .ok none) :=
    exists_of_map_build (by cbv)
  simp only [Prod.mk.injEq] at hd
  obtain ⟨hedges, hpost, h4, h1⟩ := hd
  refine ⟨earlySelection.consistent_source, g, hg, by simp [hedges], fun h' hr => ?_, h4, h1⟩
  rw [← mem_postOrder_iff (Traversal.postOrdered_of_run (run_of_build hg).2), hpost] at hr
  revert h'
  decide

end Graph

end FlowGraph
