import FlowGraph.Proofs.Errors
import FlowGraph.Proofs.Undominated
/-!
# Detours

The traversal of a source may start at another block than its entry. This block
gets no dominator, for it has no predecessors, and the pass over the dominators
fails at the first block that it leads to, unless that is the entry
(`fails_assignDominators`). If it leads nowhere else, every way goes by the entry,
and the dominators are those that a traversal from there would have given
(`Detour`).
-/

namespace FlowGraph.Graph

variable {src : Source} {opts : Options} {g : Graph} {a b p root : BlockId}
  {t : Traversal} {done todo : List BlockId}

/-! ## Where the pass fails -/

/-- Blocks of which one has no dominator have no common dominator, and the error
names that block. -/
theorem foldlM_commonDominator_of_none (ht : Tree g) (hn : g.idom? p = none) (l : List BlockId) :
    ∀ a, (g.idom? a).isSome → g.isReachable a → p ∈ l →
      (∀ q ∈ l, q ≠ p → (g.idom? q).isSome) →
      l.foldlM g.commonDominator a = .error (.unreachable p) := by
  induction l with
  | nil => exact fun _ _ _ hp _ => absurd hp List.not_mem_nil
  | cons q l ih =>
    intro a ha hr hp hall
    by_cases hq : q = p
    · rw [List.foldlM_cons, hq, commonDominator_of_none_right ha hr hn]
      rfl
    · obtain ⟨c, hc, -⟩ := exists_commonDominator ht ha (hall q List.mem_cons_self hq)
      obtain ⟨hcs, hca⟩ := (ht.ends_commonDominator a q).of_ok hc ha
      have hcr : g.isReachable c := by
        rcases rankLt_of_mem_dominators ht hca with rfl | hlt
        · exact hr
        · exact hlt.isReachable_right
      have hp' : p ∈ l := (List.mem_cons.1 hp).resolve_left (Ne.symm hq)
      rw [List.foldlM_cons, hc]
      exact ih c hcs hcr hp' fun x hx => hall x (List.mem_cons_of_mem _ hx)

/-- The error names the predecessor without a dominator. It says as much of the first
predecessor, and of any other that it is unreachable. -/
theorem assignDominator_of_none (ht : Tree g) (ho : g.traversal.PostOrdered root)
    (hb : b ≠ g.entry) (hp : p ∈ g.preds b) (hn : g.idom? p = none)
    (hall : ∀ q ∈ g.preds b, q ≠ p → (g.idom? q).isSome) :
    g.assignDominator b = .error (.invariant (.undominated p b)) ∨
      g.assignDominator b = .error (.unreachable p) := by
  obtain ⟨q, qs, hqs⟩ := List.exists_cons_of_ne_nil (List.ne_nil_of_mem hp)
  have hq : q ∈ g.preds b := hqs ▸ List.mem_cons_self
  by_cases hqp : q = p
  · left
    simp only [assignDominator, if_neg hb, hqs, hqp, hn]
  · right
    obtain ⟨d, hd⟩ := Option.isSome_iff_exists.1 (hall q hq hqp)
    have hlt : g.RankLt b q := rankLt_of_recorded ho ((recorded_iff_mem_preds ho).2 hq)
    have hps : p ∈ qs := by
      rw [hqs] at hp
      exact (List.mem_cons.1 hp).resolve_left (Ne.symm hqp)
    have hfold := foldlM_commonDominator_of_none ht hn qs q (hall q hq hqp) hlt.isReachable_right
      hps fun x hx => hall x (hqs ▸ List.mem_cons_of_mem _ hx)
    simp only [assignDominator, if_neg hb, hqs, hd, hfold, bind, Except.bind]

theorem Passed.fails_next (h : Passed root done (b :: todo) g) (hroot : root ≠ g.entry)
    (hb : b ≠ g.entry) (he : g.Recorded root b) :
    g.assignDominator b = .error (.invariant (.undominated root b)) ∨
      g.assignDominator b = .error (.unreachable root) := by
  refine assignDominator_of_none h.dominated.tree h.ordered hb
    ((recorded_iff_mem_preds h.ordered).1 he) ?_ fun q hq => h.isSome_of_mem_preds hq
  rw [← Option.not_isSome_iff_eq_none, h.isSome_iff]
  rintro (hentry | ⟨-, hne⟩)
  · exact hroot hentry
  · exact hne rfl

/-- The pass has come to a block other than the entry that the root leads to. -/
inductive Strays (t : Traversal) (entry root : BlockId) : Error → Prop
  | first {b : BlockId} : b ∈ t.succs.neighbours root → b ≠ entry →
      Strays t entry root (.invariant (.undominated root b))
  | later {b : BlockId} : b ∈ t.succs.neighbours root → b ≠ entry →
      Strays t entry root (.unreachable root)

theorem Passed.fails_foldlM (todo : List BlockId) :
    ∀ (g : Graph) (done : List BlockId), Passed root done todo g → root ≠ g.entry →
      (∃ b ∈ todo, g.Recorded root b ∧ b ≠ g.entry) →
      ∃ e, todo.foldlM assignDominator g = .error e ∧ Strays g.traversal g.entry root e := by
  induction todo with
  | nil =>
    rintro g done - - ⟨b, hb, -⟩
    exact absurd hb List.not_mem_nil
  | cons c todo ih =>
    rintro g done h hroot ⟨b, hb, hrec, hne⟩
    by_cases hc : g.Recorded root c ∧ c ≠ g.entry
    · rcases h.fails_next hroot hc.2 hc.1 with he | he
      · exact ⟨_, by rw [List.foldlM_cons, he]; rfl, .first hc.1 hc.2⟩
      · exact ⟨_, by rw [List.foldlM_cons, he]; rfl, .later hc.1 hc.2⟩
    · -- the pass takes `c`, so the block to fail at comes later
      have hbc : b ∈ todo := by
        refine (List.mem_cons.1 hb).resolve_left ?_
        rintro rfl
        exact hc ⟨hrec, hne⟩
      obtain ⟨g', hok, he, ht, h'⟩ := h.exists_next fun hr =>
        .inr (Classical.byContradiction fun hce => hc ⟨hr, hce⟩)
      have hex : ∃ b ∈ todo, g'.Recorded root b ∧ b ≠ g'.entry := by
        simp only [Recorded, succs, ht, he]
        exact ⟨b, hbc, hrec, hne⟩
      obtain ⟨e, hfail, hstray⟩ := ih g' (done ++ [c]) h' (by rwa [he]) hex
      rw [ht, he] at hstray
      exact ⟨e, by rw [List.foldlM_cons, hok]; exact hfail, hstray⟩

theorem fails_assignDominators {entry : BlockId} (ho : t.PostOrdered root) (hroot : root ≠ entry)
    (hb : b ∈ t.succs.neighbours root) (hne : b ≠ entry) :
    ∃ e, assignDominators (single entry t) = .error e ∧ Strays t entry root e := by
  have h : Passed root [] (single entry t).reversePostOrder (single entry t) := passed_single ho
  have hmem : b ∈ (single entry t).reversePostOrder := by
    have hrec : (single entry t).Recorded root b := hb
    exact h.mem_iff.2 (rankLt_of_recorded ho hrec).isReachable_left
  exact Passed.fails_foldlM _ _ [] h hroot ⟨b, hmem, hb, hne⟩

/-! ## Where it does not -/

/-- The blocks of the graph have their dominators with respect to the entry, except
`root`, where the traversal started. It has none. -/
structure Detour (g : Graph) (root : BlockId) : Prop where
  isReachable : g.isReachable root
  idom?_root : g.idom? root = none
  idom?_entry : g.idom? g.entry = some g.entry
  exists_idom : ∀ b, g.isReachable b → b ≠ root → b ≠ g.entry →
    ∃ d, g.idom? b = some d ∧ g.RankLt b d
  getLast?_dominators : ∀ b, g.isReachable b → b ≠ root →
    (g.dominators b).getLast? = some g.entry
  dominates_iff : ∀ a b, g.isReachable a → a ≠ root → g.isReachable b → b ≠ root →
    (g.dominates a b ↔ OnEveryPath g.Recorded g.entry a b)

theorem Dominated.detour (hd : Dominated g) (ho : g.traversal.PostOrdered root)
    (hroot : root ≠ g.entry)
    (hk : ∀ b, (g.idom? b).isSome ↔ b = g.entry ∨ g.isReachable b ∧ b ≠ root) : g.Detour root where
  isReachable := isReachable_root ho
  idom?_root := by
    rw [← Option.not_isSome_iff_eq_none, hk]
    rintro (he | ⟨-, hne⟩)
    · exact hroot he
    · exact hne rfl
  idom?_entry := hd.tree.entry
  exists_idom b hb hne he := by
    obtain ⟨d, hbd⟩ := Option.isSome_iff_exists.1 ((hk b).2 (.inr ⟨hb, hne⟩))
    exact ⟨d, hbd, (hd.tree.up b d hbd he).2⟩
  getLast?_dominators b hb hne := (hd.tree.line ((hk b).2 (.inr ⟨hb, hne⟩))).getLast?_eq
  dominates_iff a b ha _ hb hne := by
    rw [dominates, Bool.and_eq_true, List.contains_iff_mem, and_iff_right ha]
    exact hd.mem_dominators_iff b ((hk b).2 (.inr ⟨hb, hne⟩)) a

theorem exists_detour {entry : BlockId} (ho : t.PostOrdered root) (hroot : root ≠ entry)
    (hall : ∀ b ∈ t.succs.neighbours root, b = entry) :
    ∃ g, assignDominators (single entry t) = .ok g ∧ g.entry = entry ∧ g.traversal = t ∧
      g.Detour root := by
  obtain ⟨g, hg, he, ht, hd, hk⟩ := exists_assignDominators ho fun b hb => .inr (hall b hb)
  subst he ht
  exact ⟨g, hg, rfl, rfl, hd.detour ho hroot hk⟩

theorem forall_mem_eq_iff {l : List BlockId} (hn : l.Nodup) :
    (∀ b ∈ l, b = a) ↔ l = [] ∨ l = [a] := by
  constructor
  · intro h
    match l with
    | [] => exact .inl rfl
    | [b] => exact .inr (by rw [h b List.mem_cons_self])
    | b :: c :: l =>
      have hbc : b = c := (h b (by simp)).trans (h c (by simp)).symm
      exact absurd (hbc ▸ List.mem_cons_self) (List.nodup_cons.1 hn).1
  · rintro (rfl | rfl) <;> simp

/-! ## The result -/

/-- A source whose entry is not the block where its traversal starts gives a graph
exactly if that block, the root, leads nowhere but to the entry. Else building it
fails, and the error names the root, which has no dominator. The graph knows no
dominator of the root either. All other reachable blocks have their dominators with
respect to the entry. -/
theorem build_of_not_consistent (hs : ¬ src.Consistent) (ht : (Traversal.run src opts).value = .ok t) :
    ((∃ g, (build src opts).value = .ok g) ↔ ∀ b ∈ t.succs.neighbours src.root, b = src.entry) ∧
    ((∀ b ∈ t.succs.neighbours src.root, b = src.entry) ↔
      t.succs.neighbours src.root = [] ∨ t.succs.neighbours src.root = [src.entry]) ∧
    (∀ e, (build src opts).value = .error e → e = .unreachable src.root ∨
      ∃ b ∈ t.succs.neighbours src.root, b ≠ src.entry ∧
        e = .invariant (.undominated src.root b) ∧
        e.message = s!"predecessor {src.root} of {b} has no immediate dominator") ∧
    ∀ g, (build src opts).value = .ok g →
      g.entry = src.entry ∧ g.traversal = t ∧ g.Detour src.root := by
  have ho := Traversal.postOrdered_of_run ht
  have hnodup : (t.succs.neighbours src.root).Nodup :=
    Traversal.nodup_succs_of_run ht (rank?_root (g := single src.entry t) ho)
  have hok := exists_detour ho hs
  have hfail : ∀ b ∈ t.succs.neighbours src.root, b ≠ src.entry →
      ∃ e, assignDominators (single src.entry t) = .error e ∧ Strays t src.entry src.root e :=
    fun b hb hne => fails_assignDominators ho hs hb hne
  rw [← value_build ht] at hok hfail
  have hall : ∀ g, (build src opts).value = .ok g →
      ∀ b ∈ t.succs.neighbours src.root, b = src.entry := by
    intro g hg b hb
    apply Classical.byContradiction
    intro hne
    obtain ⟨e, he, -⟩ := hfail b hb hne
    rw [hg] at he
    cases he
  refine ⟨⟨fun ⟨g, hg⟩ => hall g hg, fun h => ?_⟩, forall_mem_eq_iff hnodup, fun e he => ?_,
    fun g hg => ?_⟩
  · obtain ⟨g, hg, -⟩ := hok h
    exact ⟨g, hg⟩
  · by_cases h : ∀ b ∈ t.succs.neighbours src.root, b = src.entry
    · obtain ⟨g, hg, -⟩ := hok h
      rw [he] at hg
      cases hg
    · simp only [Classical.not_forall] at h
      obtain ⟨b, hb, hne⟩ := h
      obtain ⟨e', he', hstray⟩ := hfail b hb hne
      rw [he] at he'
      cases he'
      cases hstray with
      | first hb hne => exact .inr ⟨_, hb, hne, rfl, rfl⟩
      | later => exact .inl rfl
  · obtain ⟨g', hg', hdetour⟩ := hok (hall g hg)
    rw [hg] at hg'
    cases hg'
    exact hdetour

/-- Like `detour`, but block 1 leads past the entry as well. -/
def bypass : Source where
  entry := ⟨2⟩
  root := ⟨1⟩
  block := (Body.ofList ⟨1⟩ [
    (⟨1⟩, ⟨.select ⟨2⟩ ⟨3⟩, .none⟩),
    (⟨2⟩, ⟨.direct ⟨3⟩, .none⟩),
    (⟨3⟩, ⟨.ret, .none⟩)]).get?

theorem build_of_detour : ¬ detour.Consistent ∧ ¬ bypass.Consistent ∧
    (∃ t g, (Traversal.run detour .standard).value = .ok t ∧ t.succs.neighbours ⟨1⟩ = [⟨2⟩] ∧
      (build detour).value = .ok g ∧ g.Detour ⟨1⟩ ∧ g.dominators ⟨3⟩ = [⟨3⟩, ⟨2⟩]) ∧
    ∃ t, (Traversal.run bypass .standard).value = .ok t ∧
      t.succs.neighbours ⟨1⟩ = [⟨2⟩, ⟨3⟩] ∧ (¬ ∃ g, (build bypass).value = .ok g) ∧
      (build bypass).value = .error (.unreachable ⟨1⟩) := by
  have hd : ¬ detour.Consistent := by decide
  have hb : ¬ bypass.Consistent := by decide
  refine ⟨hd, hb, ?_, ?_⟩
  · obtain ⟨t, ht, hsucc⟩ : ∃ t, (Traversal.run detour .standard).value = .ok t ∧
        t.succs.neighbours ⟨1⟩ = [⟨2⟩] := exists_of_map_build (by cbv)
    obtain ⟨g, hg, hdom⟩ : ∃ g, (build detour).value = .ok g ∧ g.dominators ⟨3⟩ = [⟨3⟩, ⟨2⟩] :=
      exists_of_map_build (by cbv)
    obtain ⟨-, -, -, hgraph⟩ := build_of_not_consistent hd ht
    exact ⟨t, g, ht, hsucc, hg, (hgraph g hg).2.2, hdom⟩
  · obtain ⟨t, ht, hsucc⟩ : ∃ t, (Traversal.run bypass .standard).value = .ok t ∧
        t.succs.neighbours ⟨1⟩ = [⟨2⟩, ⟨3⟩] := exists_of_map_build (by cbv)
    obtain ⟨hiff, -⟩ := build_of_not_consistent hb ht
    refine ⟨t, ht, hsucc, fun hg => ?_, by cbv⟩
    have hroot : ⟨3⟩ ∈ t.succs.neighbours ⟨1⟩ := by simp [hsucc]
    exact absurd (hiff.1 hg ⟨3⟩ hroot) (by decide)

end FlowGraph.Graph
