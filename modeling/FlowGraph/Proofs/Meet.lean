import FlowGraph.Proofs.Dominance
/-!
# The nearest common dominator is a meet

Dominance orders the reachable blocks, with the entry at the bottom. The nearest
common dominator of two blocks is their greatest lower bound in this order
(`commonDominator_eq_ok_iff`), and so obeys the laws of a meet
(`commonDominator_of_build`).
-/

namespace FlowGraph.Graph

variable {src : Source} {opts : Options} {g : Graph} {a b c d d' e x : BlockId}

/-! ## Greatest lower bounds -/

/-- `d` dominates both `a` and `b`, and whatever does dominates `d`. -/
structure IsMeet (g : Graph) (a b d : BlockId) : Prop where
  left : g.dominates d a
  right : g.dominates d b
  greatest : ∀ e, g.dominates e a → g.dominates e b → g.dominates e d

namespace IsMeet

theorem unique (hl : g.Lawful) (h : g.IsMeet a b d) (h' : g.IsMeet a b d') : d = d' := by
  apply hl.dominates_antisymm
  · exact h'.greatest d h.left h.right
  · exact h.greatest d' h'.left h'.right

theorem symm (h : g.IsMeet a b d) : g.IsMeet b a d :=
  ⟨h.right, h.left, fun e hb ha => h.greatest e ha hb⟩

theorem of_dominates (hl : g.Lawful) (h : g.dominates a b) : g.IsMeet a b a :=
  ⟨hl.dominates_self (hl.isReachable_of_dominates h).1, h, fun _ ha _ => ha⟩

theorem assoc (hl : g.Lawful) (hab : g.IsMeet a b d) (hbc : g.IsMeet b c e) (h : g.IsMeet d c x) :
    g.IsMeet a e x where
  left := hl.dominates_trans h.left hab.left
  right := hbc.greatest x (hl.dominates_trans h.left hab.right) h.right
  greatest y ha he := by
    have hb := hl.dominates_trans he hbc.left
    have hc := hl.dominates_trans he hbc.right
    exact h.greatest y (hab.greatest y ha hb) hc

end IsMeet

namespace Lawful

variable (hl : g.Lawful)
include hl

theorem exists_isMeet (ha : g.isReachable a) (hb : g.isReachable b) :
    ∃ d, g.commonDominator a b = .ok d ∧ g.isReachable d ∧ g.IsMeet a b d := by
  obtain ⟨d, hd, hr, hm⟩ := hl.exists_meet ha hb
  obtain ⟨hda, hdb⟩ := (hm d).1 (hl.dominates_self hr)
  exact ⟨d, hd, hr, hda, hdb, fun e hea heb => (hm e).2 ⟨hea, heb⟩⟩

theorem commonDominator_eq_ok_iff (ha : g.isReachable a) (hb : g.isReachable b) :
    g.commonDominator a b = .ok d ↔ g.IsMeet a b d := by
  obtain ⟨d', hd', -, hm⟩ := hl.exists_isMeet ha hb
  rw [hd']
  constructor
  · rintro ⟨⟩
    exact hm
  · exact fun h => congrArg Except.ok (hm.unique hl h)

end Lawful

/-! ## The laws of a meet -/

/-- Of reachable blocks, `commonDominator` is the meet in the order of dominance:
it has an answer, which is the greatest lower bound, it is commutative,
idempotent and associative, it decides dominance, and the entry absorbs. -/
theorem commonDominator_of_build (hs : src.Consistent) (h : (build src opts).value = .ok g) :
    (∀ a b, g.isReachable a → g.isReachable b →
      (∃ d, g.commonDominator a b = .ok d ∧ g.isReachable d) ∧
      ∀ d, g.commonDominator a b = .ok d ↔ g.dominates d a ∧ g.dominates d b ∧
        ∀ e, g.dominates e a → g.dominates e b → g.dominates e d) ∧
    (∀ a b, g.isReachable a → g.isReachable b → g.commonDominator a b = g.commonDominator b a) ∧
    (∀ a, g.isReachable a → g.commonDominator a a = .ok a) ∧
    (∀ a b c, g.isReachable a → g.isReachable b → g.isReachable c →
      (do g.commonDominator (← g.commonDominator a b) c) =
        (do g.commonDominator a (← g.commonDominator b c))) ∧
    (∀ a b, g.isReachable a → g.isReachable b → (g.commonDominator a b = .ok a ↔ g.dominates a b)) ∧
    ∀ a, g.isReachable a → g.commonDominator a g.entry = .ok g.entry ∧
      g.commonDominator g.entry a = .ok g.entry := by
  obtain ⟨hl, -, -⟩ := lawful_of_build hs h
  have hentry := hl.isReachable_entry
  refine ⟨fun a b ha hb => ⟨?_, fun d => ?_⟩, fun a b ha hb => ?_, fun a ha => ?_,
    fun a b c ha hb hc => ?_, fun a b ha hb => ?_, fun a ha => ?_⟩
  · obtain ⟨d, hd, hr, -⟩ := hl.exists_isMeet ha hb
    exact ⟨d, hd, hr⟩
  · rw [hl.commonDominator_eq_ok_iff ha hb]
    exact ⟨fun hm => ⟨hm.left, hm.right, hm.greatest⟩, fun ⟨hda, hdb, hall⟩ => ⟨hda, hdb, hall⟩⟩
  · obtain ⟨d, hd, -, hm⟩ := hl.exists_isMeet ha hb
    rw [hd, (hl.commonDominator_eq_ok_iff hb ha).2 hm.symm]
  · exact (hl.commonDominator_eq_ok_iff ha ha).2 (.of_dominates hl (hl.dominates_self ha))
  · obtain ⟨d, hd, hdr, hm⟩ := hl.exists_isMeet ha hb
    obtain ⟨e, he, her, hm'⟩ := hl.exists_isMeet hb hc
    obtain ⟨x, hx, -, hmx⟩ := hl.exists_isMeet hdr hc
    have hx' := (hl.commonDominator_eq_ok_iff ha her).2 (hm.assoc hl hm' hmx)
    simp only [hd, he, bind, Except.bind, hx, hx']
  · rw [hl.commonDominator_eq_ok_iff ha hb]
    exact ⟨fun hm => hm.right, .of_dominates hl⟩
  · have hm : g.IsMeet g.entry a g.entry := .of_dominates hl (hl.entry_dominates ha)
    exact ⟨(hl.commonDominator_eq_ok_iff ha hentry).2 hm.symm,
      (hl.commonDominator_eq_ok_iff hentry ha).2 hm⟩

theorem commonDominator_of_loopInLoop : loopInLoop.source.Consistent ∧
    ∃ g, (build loopInLoop.source).value = .ok g ∧
      g.isReachable ⟨5⟩ ∧ g.isReachable ⟨7⟩ ∧ g.isReachable ⟨8⟩ ∧
      g.commonDominator ⟨5⟩ ⟨7⟩ = .ok ⟨4⟩ ∧ g.commonDominator ⟨7⟩ ⟨5⟩ = .ok ⟨4⟩ ∧
      (do g.commonDominator ⟨5⟩ (← g.commonDominator ⟨7⟩ ⟨8⟩)) = .ok ⟨2⟩ := by
  obtain ⟨g, hg, hd⟩ : ∃ g, (build loopInLoop.source).value = .ok g ∧
      (g.isReachable ⟨5⟩, g.isReachable ⟨7⟩, g.isReachable ⟨8⟩, g.commonDominator ⟨5⟩ ⟨7⟩,
        g.commonDominator ⟨4⟩ ⟨8⟩) = (true, true, true, .ok ⟨4⟩, .ok ⟨2⟩) :=
    exists_of_map_build (by cbv)
  simp only [Prod.mk.injEq] at hd
  obtain ⟨h5, h7, h8, h57, h48⟩ := hd
  obtain ⟨-, hcomm, -, hassoc, -⟩ := commonDominator_of_build loopInLoop.consistent_source hg
  refine ⟨loopInLoop.consistent_source, g, hg, h5, h7, h8, h57, ?_, ?_⟩
  · rw [← hcomm _ _ h5 h7, h57]
  · rw [← hassoc _ _ _ h5 h7 h8, h57]
    exact h48

end FlowGraph.Graph
