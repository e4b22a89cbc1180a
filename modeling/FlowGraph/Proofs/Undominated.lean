import FlowGraph.Proofs.Dominance
import FlowGraph.Proofs.Graph.Progress
/-!
# Blocks without a dominator

A block that cannot be reached has no immediate dominator and dominates nothing.
Nor has it a common dominator with another block, and the error names the first of
the two that is to blame. Asked about such a block and itself, `commonDominator`
takes no step and names the block, where all other queries say that it has no
dominators (`fitsDominators_iff`).
-/

namespace FlowGraph.Graph

variable {src : Source} {opts : Options} {g : Graph} {a b c : BlockId}

/-! ## Queries that agree -/

/-- What `commonDominator` says of two blocks fits what is said of each: it has no
answer if one of the two has no dominators, and otherwise answers with a dominator
of both. -/
structure FitsDominators (g : Graph) (a b : BlockId) : Prop where
  left : g.idom? a = none → g.commonDominator a b = .error (.unreachable a)
  right : (g.idom? a).isSome → g.idom? b = none → g.commonDominator a b = .error (.unreachable b)
  answers : (g.idom? a).isSome → (g.idom? b).isSome → ∃ c, g.commonDominator a b = .ok c
  dominates : ∀ c, g.commonDominator a b = .ok c → g.dominates c a ∧ g.dominates c b ∧
    (g.idom? a).isSome ∧ (g.idom? b).isSome ∧ (g.idom? c).isSome

theorem dominatedRank_of_none (hb : g.idom? b = none) : g.dominatedRank b = .error (.unreachable b) := by
  rw [dominatedRank, hb]

theorem commonDominator_of_none_left (hab : a ≠ b) (ha : g.idom? a = none) :
    g.commonDominator a b = .error (.unreachable a) := by
  rw [commonDominator_of_ne hab, dominatedRank_of_none ha]
  rfl

theorem commonDominator_of_none_right (ha : (g.idom? a).isSome) (hr : g.isReachable a)
    (hb : g.idom? b = none) : g.commonDominator a b = .error (.unreachable b) := by
  have hab : a ≠ b := by
    rintro rfl
    rw [hb] at ha
    cases ha
  obtain ⟨r, hr⟩ := isReachable_iff.1 hr
  rw [commonDominator_of_ne hab, dominatedRank_eq_ok ha hr, dominatedRank_of_none hb]
  rfl

namespace Lawful

variable (hl : g.Lawful)
include hl

theorem commonDominator_of_none_right (ha : (g.idom? a).isSome) (hb : g.idom? b = none) :
    g.commonDominator a b = .error (.unreachable b) :=
  Graph.commonDominator_of_none_right ha ((hl.isSome_iff a).1 ha) hb

theorem exists_commonDominator_of_isSome (ha : (g.idom? a).isSome) (hb : (g.idom? b).isSome) :
    ∃ c, g.commonDominator a b = .ok c ∧ g.dominates c a ∧ g.dominates c b ∧ (g.idom? c).isSome := by
  obtain ⟨c, hc, hr, hm⟩ := hl.exists_meet ((hl.isSome_iff a).1 ha) ((hl.isSome_iff b).1 hb)
  obtain ⟨hca, hcb⟩ := (hm c).1 (hl.dominates_self hr)
  exact ⟨c, hc, hca, hcb, (hl.isSome_iff c).2 hr⟩

theorem fitsDominators (h : a ≠ b ∨ (g.idom? a).isSome) : g.FitsDominators a b := by
  have hleft : g.idom? a = none → g.commonDominator a b = .error (.unreachable a) := by
    intro ha
    rcases h with hab | hs
    · exact commonDominator_of_none_left hab ha
    · rw [ha] at hs
      cases hs
  refine ⟨hleft, hl.commonDominator_of_none_right, fun ha hb => ?_, fun c hc => ?_⟩
  · obtain ⟨c, hc, -⟩ := hl.exists_commonDominator_of_isSome ha hb
    exact ⟨c, hc⟩
  -- an answer excludes both errors
  have ha : (g.idom? a).isSome := by
    rw [← Option.ne_none_iff_isSome]
    intro hn
    rw [hleft hn] at hc
    cases hc
  have hb : (g.idom? b).isSome := by
    rw [← Option.ne_none_iff_isSome]
    intro hn
    rw [hl.commonDominator_of_none_right ha hn] at hc
    cases hc
  obtain ⟨d, hd, hda, hdb, hds⟩ := hl.exists_commonDominator_of_isSome ha hb
  rw [hd] at hc
  cases hc
  exact ⟨hda, hdb, ha, hb, hds⟩

end Lawful

/-- About two blocks `commonDominator` agrees with the other queries, reachable or
not, unless they are the same unreachable block. Of a block and itself the answer
is always the block. -/
theorem fitsDominators_iff (hs : src.Consistent) (h : (build src opts).value = .ok g) :
    (∀ a b, g.FitsDominators a b ↔ a ≠ b ∨ (g.idom? a).isSome) ∧
    ∀ a, g.commonDominator a a = .ok a := by
  obtain ⟨hl, -, -⟩ := lawful_of_build hs h
  refine ⟨fun a b => ⟨fun hfits => ?_, hl.fitsDominators⟩, g.commonDominator_self⟩
  by_cases hab : a = b
  · subst hab
    rw [← Option.ne_none_iff_isSome]
    refine .inr fun ha => ?_
    have herr := hfits.left ha
    rw [commonDominator_self] at herr
    cases herr
  · exact .inl hab

/-- Nothing leads from block 1 to block 9. -/
def apart : Body := .ofList ⟨1⟩ [(⟨1⟩, ⟨.ret, .none⟩), (⟨9⟩, ⟨.ret, .none⟩)]

theorem fitsDominators_apart : apart.source.Consistent ∧
    ∃ g, (build apart.source).value = .ok g ∧ g.FitsDominators ⟨9⟩ ⟨1⟩ ∧
      g.commonDominator ⟨9⟩ ⟨1⟩ = .error (.unreachable ⟨9⟩) ∧ ¬ g.FitsDominators ⟨9⟩ ⟨9⟩ := by
  obtain ⟨g, hg, hd⟩ : ∃ g, (build apart.source).value = .ok g ∧ g.idom? ⟨9⟩ = none :=
    exists_of_map_build (by cbv)
  obtain ⟨hiff, -⟩ := fitsDominators_iff apart.consistent_source hg
  have hfits := (hiff ⟨9⟩ ⟨1⟩).2 (.inl (by decide))
  refine ⟨apart.consistent_source, g, hg, hfits, hfits.left hd, ?_⟩
  rw [hiff]
  rintro (hne | hsome)
  · exact hne rfl
  · rw [hd] at hsome
    cases hsome

/-- An unreachable block has no dominators, and yet a common dominator with itself. -/
theorem commonDominator_self_apart : apart.source.Consistent ∧
    ∃ g, (build apart.source).value = .ok g ∧ g.idom? ⟨9⟩ = none ∧
      g.commonDominator ⟨9⟩ ⟨9⟩ = .ok ⟨9⟩ ∧ g.dominates ⟨9⟩ ⟨9⟩ = false := by
  refine ⟨apart.consistent_source, ?_⟩
  obtain ⟨g, hg, hd⟩ : ∃ g, (build apart.source).value = .ok g ∧
      (g.idom? ⟨9⟩, g.commonDominator ⟨9⟩ ⟨9⟩, g.dominates ⟨9⟩ ⟨9⟩) = (none, .ok ⟨9⟩, false) :=
    exists_of_map_build (by cbv)
  simp only [Prod.mk.injEq] at hd
  exact ⟨g, hg, hd⟩

end FlowGraph.Graph
