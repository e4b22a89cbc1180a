import Mathlib.Data.List.Permutation
import FlowGraph.Graph.Build
import FlowGraph.Proofs.Path
import FlowGraph.Proofs.Graph.Tree
import FlowGraph.Proofs.Traversal.Following
/-!
# Dominators come out right

The pass over the blocks keeps a tree whose ways to the root are the dominators
in the sense of paths (`Dominated`). It takes a block when all its recorded
predecessors are in the tree (`Passed.exists_next`). So it never fails on what a
traversal from the entry has found (`exists_build`), and a graph that is built is
`Lawful`.
-/

namespace FlowGraph.Graph

variable {g : Graph} {a b d p x : BlockId}

/-- The edge from `u` to `v` is recorded. -/
def Recorded (g : Graph) (u v : BlockId) : Prop := v ∈ g.succs u

/-! ## Ranks and recorded edges -/

theorem recorded_iff_mem_preds (ho : g.traversal.PostOrdered x) : g.Recorded a b ↔ a ∈ g.preds b :=
  (ho.mem_preds_iff a b).symm

theorem rankLt_of_recorded (ho : g.traversal.PostOrdered x) (h : g.Recorded a b) : g.RankLt b a :=
  ho.rank_lt a b h

theorem isReachable_iff : g.isReachable b ↔ ∃ r, g.rank? b = some r := Option.isSome_iff_exists

theorem RankLt.isReachable_left (h : g.RankLt a b) : g.isReachable a := by
  obtain ⟨r, _, hr, _⟩ := h
  exact isReachable_iff.2 ⟨r, hr⟩

theorem RankLt.isReachable_right (h : g.RankLt a b) : g.isReachable b := by
  obtain ⟨_, q, _, hq, _⟩ := h
  exact isReachable_iff.2 ⟨q, hq⟩

theorem mem_postOrder_iff (ho : g.traversal.PostOrdered x) : b ∈ g.postOrder ↔ g.isReachable b := by
  rw [isReachable_iff, postOrder, Array.mem_toList_iff, Array.mem_iff_getElem?]
  constructor
  · rintro ⟨i, hi⟩
    exact ⟨i + 1, (ho.rank_iff b (i + 1)).2 ⟨i, rfl, hi⟩⟩
  · rintro ⟨r, hr⟩
    obtain ⟨i, -, hi⟩ := (ho.rank_iff b r).1 hr
    exact ⟨i, hi⟩

theorem rank_le_size (ho : g.traversal.PostOrdered x) {r : Nat} (hr : g.rank? b = some r) :
    r ≤ g.size := by
  obtain ⟨i, rfl, hi⟩ := (ho.rank_iff b r).1 hr
  obtain ⟨hi, -⟩ := Array.getElem?_eq_some_iff.1 hi
  exact hi

theorem Within.up (ho : g.traversal.PostOrdered x) {steps : Nat} (h : g.Within (steps + 1) a)
    (hlt : g.RankLt a b) : g.Within steps b :=
  h.next (fun _ _ hr => rank_le_size ho hr) hlt

theorem rank?_getElem_postOrder (ho : g.traversal.PostOrdered x) {i : Nat}
    (hi : i < g.postOrder.length) : g.rank? g.postOrder[i] = some (i + 1) := by
  refine (ho.rank_iff _ _).2 ⟨i, rfl, ?_⟩
  have hi' : i < g.traversal.order.size := by simpa [postOrder] using hi
  rw [Array.getElem?_eq_getElem hi']
  simp [postOrder]

theorem pairwise_postOrder (ho : g.traversal.PostOrdered x) : g.postOrder.Pairwise g.RankLt := by
  rw [List.pairwise_iff_getElem]
  intro i j hi hj hij
  exact ⟨i + 1, j + 1, rank?_getElem_postOrder ho hi, rank?_getElem_postOrder ho hj, by omega⟩

/-- Ranks tell any two reachable blocks apart. -/
theorem rankLt_trichotomy (ho : g.traversal.PostOrdered x) (ha : g.isReachable a)
    (hb : g.isReachable b) : g.RankLt a b ∨ a = b ∨ g.RankLt b a := by
  obtain ⟨r, hr⟩ := isReachable_iff.1 ha
  obtain ⟨q, hq⟩ := isReachable_iff.1 hb
  rw [rankLt_iff hr hq, rankLt_iff hq hr]
  rcases Nat.lt_trichotomy r q with hlt | rfl | hlt
  · exact .inl hlt
  · obtain ⟨i, hi, hia⟩ := (ho.rank_iff a r).1 hr
    obtain ⟨j, hj, hjb⟩ := (ho.rank_iff b r).1 hq
    obtain rfl : i = j := by omega
    rw [hia] at hjb
    exact .inr (.inl (Option.some.inj hjb))
  · exact .inr (.inr hlt)

theorem rank?_root (ho : g.traversal.PostOrdered x) : g.rank? x = some (g.size - 1 + 1) := by
  have hlast := ho.root_last
  rw [Array.back?_eq_getElem?] at hlast
  exact (ho.rank_iff x _).2 ⟨_, rfl, hlast⟩

theorem isReachable_root (ho : g.traversal.PostOrdered x) : g.isReachable x :=
  isReachable_iff.2 ⟨_, rank?_root ho⟩

/-- Nothing ranks above the block where the traversal starts. -/
theorem not_rankLt_root (ho : g.traversal.PostOrdered x) : ¬ g.RankLt x b := by
  rintro ⟨r, q, hr, hq, hlt⟩
  have hroot := rank?_root ho
  have hle := rank_le_size ho hq
  rw [hroot] at hr
  cases hr
  omega

theorem preds_root (ho : g.traversal.PostOrdered x) : g.preds x = [] := by
  apply List.eq_nil_iff_forall_not_mem.2
  intro p hp
  exact not_rankLt_root ho (rankLt_of_recorded ho ((recorded_iff_mem_preds ho).2 hp))

/-! ## One block -/

/-- In a tree of some of the blocks, the ways to the root are the dominators. -/
structure Dominated (g : Graph) : Prop where
  tree : Tree g
  mem_dominators_iff : ∀ b, (g.idom? b).isSome →
    ∀ a, a ∈ g.dominators b ↔ OnEveryPath g.Recorded g.entry a b

theorem tree_withIdom (ht : Tree g) (hb : b ≠ g.entry) (hd : (g.idom? d).isSome)
    (hlt : g.RankLt b d) : Tree (g.withIdom b d) where
  entry := by
    rw [entry_withIdom, idom?_withIdom, if_neg hb]
    exact ht.entry
  up x d' hx he := by
    have hkeep : ∀ y, (g.idom? y).isSome → ((g.withIdom b d).idom? y).isSome := by
      intro y hy
      rw [idom?_withIdom]
      split
      · rfl
      · exact hy
    rw [idom?_withIdom] at hx
    split at hx
    · next hbx =>
      cases hx
      exact ⟨hkeep d hd, hbx ▸ hlt⟩
    · obtain ⟨hs, hlt'⟩ := ht.up x d' hx he
      exact ⟨hkeep d' hs, hlt'⟩
  rank_le := ht.rank_le

theorem dominators_withIdom (ht : Tree g) (ht' : Tree (g.withIdom b d)) (hnew : g.idom? b = none) :
    ∀ x, (g.idom? x).isSome → (g.withIdom b d).dominators x = g.dominators x := by
  refine ht.induct ?_ fun x d' hx he ih => ?_
  · rw [dominators_of_entry ht]
    exact dominators_of_entry ht'
  · have hbx : b ≠ x := by rintro rfl; simp [hnew] at hx
    rw [dominators_of_up ht hx he, ← ih]
    exact dominators_of_up ht' (by rw [idom?_withIdom, if_neg hbx, hx]) he

/-- A block whose recorded predecessors are all in the tree joins it. -/
theorem exists_assignDominator (ho : g.traversal.PostOrdered x) (h : Dominated g) (hb : b ≠ g.entry)
    (hnew : g.idom? b = none) (hn : g.preds b ≠ []) (hp : ∀ p ∈ g.preds b, (g.idom? p).isSome) :
    ∃ d, g.assignDominator b = .ok (g.withIdom b d) ∧ Dominated (g.withIdom b d) := by
  obtain ⟨p, ps, hps⟩ := List.exists_cons_of_ne_nil hn
  have hmem : ∀ q ∈ p :: ps, (g.idom? q).isSome := hps ▸ hp
  have hs : (g.idom? p).isSome := hmem p List.mem_cons_self
  obtain ⟨d, hd, hm⟩ := exists_foldlM_commonDominator h.tree ps p hs
    fun q hq => hmem q (List.mem_cons_of_mem _ hq)
  -- the predecessors meet at or above `p`, at the entry if nowhere else
  have hdp : d ∈ g.dominators p ∧ (g.idom? d).isSome := by
    have he : g.entry ∈ g.dominators d := by
      refine (hm g.entry).2 ⟨entry_mem_dominators h.tree hs, fun q hq => ?_⟩
      exact entry_mem_dominators h.tree (hmem q (List.mem_cons_of_mem _ hq))
    have hsd := (h.tree.isSome_of_mem he).2
    exact ⟨((hm d).1 (mem_dominators_self h.tree hsd)).1, hsd⟩
  have hbp : g.RankLt b p :=
    rankLt_of_recorded ho ((recorded_iff_mem_preds ho).2 (hps ▸ List.mem_cons_self))
  have hlt : g.RankLt b d := hbp.trans_dominator h.tree hdp.1
  have ht' := tree_withIdom h.tree hb hdp.2 hlt
  have hdom := dominators_withIdom h.tree ht' hnew
  refine ⟨d, ?_, ht', fun x hx a => ?_⟩
  · obtain ⟨d', hd'⟩ := Option.isSome_iff_exists.1 hs
    simp only [assignDominator, if_neg hb, hps, hd', hd, bind, Except.bind]
    rfl
  · show a ∈ (g.withIdom b d).dominators x ↔ OnEveryPath g.Recorded g.entry a x
    by_cases hbx : b = x
    · subst hbx
      rw [dominators_of_up ht' (by rw [idom?_withIdom, if_pos rfl]) hb, hdom d hdp.2, List.mem_cons,
        hm, onEveryPath_iff_of_ne hb]
      refine or_congr_right ?_
      rw [← List.forall_mem_cons (p := fun q => a ∈ g.dominators q), ← hps]
      constructor
      · intro hall q hq
        have hq := (recorded_iff_mem_preds ho).1 hq
        exact (h.mem_dominators_iff q (hp q hq) a).1 (hall q hq)
      · intro hall q hq
        exact (h.mem_dominators_iff q (hp q hq) a).2 (hall q ((recorded_iff_mem_preds ho).2 hq))
    · rw [idom?_withIdom, if_neg hbx] at hx
      rw [hdom x hx]
      exact h.mem_dominators_iff x hx a

/-! ## All blocks -/

/-- The pass has taken the blocks `done`, and `todo` come next. The tree has the
entry and all of `done`, except for the block where the traversal started if that
is not the entry. -/
structure Passed (root : BlockId) (done todo : List BlockId) (g : Graph) : Prop where
  ordered : g.traversal.PostOrdered root
  order : g.reversePostOrder = done ++ todo
  dominated : Dominated g
  isSome_iff : ∀ x, (g.idom? x).isSome ↔ x = g.entry ∨ x ∈ done ∧ x ≠ root

namespace Passed

variable {root : BlockId} {done todo : List BlockId}

theorem mem_iff (h : Passed root done todo g) : x ∈ done ++ todo ↔ g.isReachable x := by
  rw [← h.order, reversePostOrder, List.mem_reverse]
  exact mem_postOrder_iff h.ordered

/-- The order of the pass is the one of falling ranks. -/
theorem pairwise (h : Passed root done todo g) :
    (done ++ todo).Pairwise fun u v => g.RankLt v u := by
  rw [← h.order, reversePostOrder, List.pairwise_reverse]
  exact pairwise_postOrder h.ordered

/-- The predecessors of a block are taken before it. -/
theorem mem_of_mem_preds (h : Passed root done (b :: todo) g) (hp : p ∈ g.preds b) :
    p ∈ done := by
  have hlater := (List.pairwise_cons.1 (List.pairwise_append.1 h.pairwise).2.1).1
  have hlt := rankLt_of_recorded h.ordered ((recorded_iff_mem_preds h.ordered).2 hp)
  rcases List.mem_append.1 (h.mem_iff.2 hlt.isReachable_right) with hd | hd
  · exact hd
  · rcases List.mem_cons.1 hd with rfl | hd
    · exact absurd hlt RankLt.irrefl
    · exact absurd (hlater p hd) hlt.asymm

theorem isSome_of_mem_preds (h : Passed root done (b :: todo) g) (hp : p ∈ g.preds b)
    (hne : p ≠ root) : (g.idom? p).isSome :=
  (h.isSome_iff p).2 (.inr ⟨h.mem_of_mem_preds hp, hne⟩)

/-- The next block is not in the tree yet. -/
theorem idom?_eq_none (h : Passed root done (b :: todo) g) (hb : b ≠ g.entry) :
    g.idom? b = none := by
  rw [← Option.not_isSome_iff_eq_none, h.isSome_iff]
  rintro (he | ⟨hd, -⟩)
  · exact hb he
  · exact ((List.pairwise_append.1 h.pairwise).2.2 b hd b List.mem_cons_self).irrefl

/-- The entry is in the tree already, and another block where the traversal started
stays out of it. -/
theorem skip (h : Passed root done (b :: todo) g) (hb : b = g.entry ∨ b = root) :
    Passed root (done ++ [b]) todo g where
  ordered := h.ordered
  order := by simp [h.order]
  dominated := h.dominated
  isSome_iff x := by
    rw [h.isSome_iff, List.mem_append, List.mem_singleton]
    grind

theorem insert (h : Passed root done (b :: todo) g) (hb : b ≠ root)
    (hd : Dominated (g.withIdom b d)) : Passed root (done ++ [b]) todo (g.withIdom b d) where
  ordered := h.ordered
  order := by
    rw [List.append_assoc]
    exact h.order
  dominated := hd
  isSome_iff x := by
    rw [idom?_withIdom, entry_withIdom, List.mem_append, List.mem_singleton]
    split
    · next hx => simp [← hx, hb]
    · next hx =>
      rw [h.isSome_iff]
      grind

/-- The pass takes the next block, unless an edge leads there, and not to the entry,
from a block that has no dominator because the traversal started at it. -/
theorem exists_next (h : Passed root done (b :: todo) g)
    (hb : g.Recorded root b → root = g.entry ∨ b = g.entry) :
    ∃ g', g.assignDominator b = .ok g' ∧ g'.entry = g.entry ∧ g'.traversal = g.traversal ∧
      Passed root (done ++ [b]) todo g' := by
  have ho := h.ordered
  by_cases he : b = g.entry
  · exact ⟨g, by rw [assignDominator, if_pos he], rfl, rfl, h.skip (.inl he)⟩
  by_cases hroot : b = root
  · refine ⟨g, ?_, rfl, rfl, h.skip (.inr hroot)⟩
    rw [assignDominator, if_neg he, hroot, preds_root ho]
  obtain ⟨r, hr⟩ := isReachable_iff.1 (h.mem_iff.1 (List.mem_append_right done List.mem_cons_self))
  have hpreds : ∀ p ∈ g.preds b, (g.idom? p).isSome := by
    intro p hp
    by_cases hpr : p = root
    · have hrec := (recorded_iff_mem_preds ho).2 hp
      exact (h.isSome_iff p).2 (.inl (hpr.trans ((hb (hpr ▸ hrec)).resolve_right he)))
    · exact h.isSome_of_mem_preds hp hpr
  obtain ⟨d, hok, hd⟩ := exists_assignDominator ho h.dominated he (h.idom?_eq_none he)
    (ho.preds_ne_nil b r hr hroot) hpreds
  exact ⟨_, hok, rfl, rfl, h.insert hroot hd⟩

theorem exists_foldlM (todo : List BlockId) :
    ∀ (g : Graph) (done : List BlockId), Passed root done todo g →
      (∀ b ∈ todo, g.Recorded root b → root = g.entry ∨ b = g.entry) →
      ∃ g', todo.foldlM assignDominator g = .ok g' ∧ g'.entry = g.entry ∧
        g'.traversal = g.traversal ∧ Passed root (done ++ todo) [] g' := by
  induction todo with
  | nil => exact fun g done h _ => ⟨g, rfl, rfl, rfl, by rwa [List.append_nil]⟩
  | cons b todo ih =>
    intro g done h hall
    obtain ⟨g₁, hok, he₁, ht₁, h₁⟩ := h.exists_next (hall b List.mem_cons_self)
    have hall₁ : ∀ x ∈ todo, g₁.Recorded root x → root = g₁.entry ∨ x = g₁.entry := by
      simp only [Recorded, succs, ht₁, he₁]
      exact fun x hx => hall x (List.mem_cons_of_mem _ hx)
    obtain ⟨g', hg', he', ht', h'⟩ := ih g₁ (done ++ [b]) h₁ hall₁
    refine ⟨g', ?_, he'.trans he₁, ht'.trans ht₁, by simpa using h'⟩
    simp only [List.foldlM_cons, hok, bind, Except.bind]
    exact hg'

end Passed

/-! ## The result -/

/-- What holds of the graph of a source whose traversal starts at the entry. -/
structure Lawful (g : Graph) : Prop where
  ordered : g.traversal.PostOrdered g.entry
  tree : Tree g
  isSome_iff : ∀ b, (g.idom? b).isSome ↔ g.isReachable b
  mem_dominators_iff : ∀ a b, g.isReachable b →
    (a ∈ g.dominators b ↔ OnEveryPath g.Recorded g.entry a b)

theorem tree_single {t : Traversal} {entry root : BlockId} (ho : t.PostOrdered root) :
    Tree (single entry t) where
  entry := by simp [idom?_single]
  up b d hb he := by
    rw [idom?_single] at hb
    split at hb
    · next hb' => exact absurd hb'.symm he
    · cases hb
  rank_le _ _ hr := rank_le_size ho hr

theorem dominated_single {t : Traversal} {entry root : BlockId} (ho : t.PostOrdered root) :
    Dominated (single entry t) := by
  have ht : Tree (single entry t) := tree_single ho
  refine ⟨ht, fun b hb a => ?_⟩
  rw [idom?_single] at hb
  split at hb
  · next he =>
    subst he
    have hd := dominators_of_entry ht
    rw [entry_single] at hd ⊢
    rw [hd, onEveryPath_source_iff]
    exact List.mem_singleton
  · cases hb

theorem passed_single {t : Traversal} {entry root : BlockId} (ho : t.PostOrdered root) :
    Passed root [] (single entry t).reversePostOrder (single entry t) where
  ordered := ho
  order := rfl
  dominated := dominated_single ho
  isSome_iff x := by
    rw [idom?_single]
    split <;> simp_all [eq_comm]

theorem value_build_of_error {src : Source} {opts : Options} {e : Error}
    (hr : (Traversal.run src opts).value = .error e) : (build src opts).value = .error e := by
  rw [build, ofFound, hr]

theorem value_build {src : Source} {opts : Options} {t : Traversal}
    (hr : (Traversal.run src opts).value = .ok t) :
    (build src opts).value = assignDominators (single src.entry t) := by
  simp only [build, ofFound, hr]
  cases assignDominators (single src.entry t) <;> rfl

/-- The pass succeeds if the traversal started at the entry, or at a block that leads
to no other block. -/
theorem exists_assignDominators {t : Traversal} {entry root : BlockId} (ho : t.PostOrdered root)
    (hroot : ∀ b ∈ t.succs.neighbours root, root = entry ∨ b = entry) :
    ∃ g, assignDominators (single entry t) = .ok g ∧ g.entry = entry ∧ g.traversal = t ∧
      Dominated g ∧ ∀ b, (g.idom? b).isSome ↔ b = entry ∨ g.isReachable b ∧ b ≠ root := by
  obtain ⟨g, hg, he, ht, h⟩ := Passed.exists_foldlM (single entry t).reversePostOrder
    (single entry t) [] (passed_single ho) fun b _ => hroot b
  refine ⟨g, hg, he, ht, h.dominated, fun b => ?_⟩
  have hmem := h.mem_iff (x := b)
  rw [List.append_nil] at hmem
  rw [h.isSome_iff, hmem, he, entry_single]

/-- The pass over the dominators succeeds on what a traversal from the entry
has found. -/
theorem exists_build {src : Source} {opts : Options} {t : Traversal} (hs : src.Consistent)
    (hr : (Traversal.run src opts).value = .ok t) :
    ∃ g, (build src opts).value = .ok g ∧ g.entry = src.entry ∧ g.traversal = t ∧ g.Lawful := by
  have ho : t.PostOrdered src.entry := hs ▸ Traversal.postOrdered_of_run hr
  obtain ⟨g, hg, he, ht, hd, hk⟩ := exists_assignDominators ho fun _ _ => .inl rfl
  have ho' : g.traversal.PostOrdered g.entry := by
    rw [ht, he]
    exact ho
  have hiff : ∀ b, (g.idom? b).isSome ↔ g.isReachable b := by
    intro b
    have hentry := isReachable_root ho'
    rw [hk, ← he]
    grind
  exact ⟨g, (value_build hr).trans hg, he, ht, ho', hd.tree, hiff,
    fun a b hb => hd.mem_dominators_iff b ((hiff b).2 hb) a⟩

theorem lawful_of_build {src : Source} {opts : Options} (hs : src.Consistent)
    (h : (build src opts).value = .ok g) :
    g.Lawful ∧ g.entry = src.entry ∧ g.traversal.Accounts src opts := by
  match hr : (Traversal.run src opts).value with
  | .error e =>
    rw [value_build_of_error hr] at h
    cases h
  | .ok t =>
    obtain ⟨g', hg', he, ht, hl⟩ := exists_build hs hr
    rw [h] at hg'
    cases hg'
    exact ⟨hl, he, ht ▸ Traversal.accounts_of_run hr⟩

theorem exists_of_map_build {α β : Type} {built : Except Error α} {f : α → β} {y : β}
    (h : built.toOption.map f = some y) : ∃ g, built = .ok g ∧ f g = y := by
  cases built with
  | error e => simp [Except.toOption] at h
  | ok g => exact ⟨g, rfl, by simpa [Except.toOption] using h⟩

/-! ## Lawful graphs -/

namespace Lawful

theorem dominates_iff (hl : g.Lawful) : g.dominates a b ↔ a ∈ g.dominators b := by
  rw [dominates, Bool.and_eq_true, List.contains_iff_mem]
  refine and_iff_right_of_imp fun h => ?_
  exact (hl.isSome_iff a).1 (hl.tree.isSome_of_mem h).1

theorem isReachable_of_dominates (hl : g.Lawful) (h : g.dominates a b) :
    g.isReachable a ∧ g.isReachable b := by
  have := hl.tree.isSome_of_mem (hl.dominates_iff.1 h)
  exact ⟨(hl.isSome_iff a).1 this.1, (hl.isSome_iff b).1 this.2⟩

theorem dominates_iff_onEveryPath (hl : g.Lawful) (hb : g.isReachable b) :
    g.dominates a b ↔ OnEveryPath g.Recorded g.entry a b :=
  hl.dominates_iff.trans (hl.mem_dominators_iff a b hb)

theorem dominates_self (hl : g.Lawful) (hb : g.isReachable b) : g.dominates b b :=
  hl.dominates_iff.2 (mem_dominators_self hl.tree ((hl.isSome_iff b).2 hb))

theorem dominates_trans (hl : g.Lawful) (hab : g.dominates a b) (hbd : g.dominates b d) :
    g.dominates a d := by
  rw [hl.dominates_iff] at hab hbd ⊢
  exact dominators_trans hl.tree hab hbd

theorem dominates_antisymm (hl : g.Lawful) (hab : g.dominates a b) (hba : g.dominates b a) : a = b :=
  dominators_antisymm hl.tree (hl.dominates_iff.1 hab) (hl.dominates_iff.1 hba)

theorem rankLt_of_dominates (hl : g.Lawful) (h : g.dominates a b) : a = b ∨ g.RankLt b a :=
  rankLt_of_mem_dominators hl.tree (hl.dominates_iff.1 h)

theorem entry_dominates (hl : g.Lawful) (hb : g.isReachable b) : g.dominates g.entry b :=
  hl.dominates_iff.2 (entry_mem_dominators hl.tree ((hl.isSome_iff b).2 hb))

/-- Two reachable blocks have a nearest common dominator. -/
theorem exists_meet (hl : g.Lawful) (ha : g.isReachable a) (hb : g.isReachable b) :
    ∃ c, g.commonDominator a b = .ok c ∧ g.isReachable c ∧
      ∀ x, g.dominates x c ↔ g.dominates x a ∧ g.dominates x b := by
  obtain ⟨c, hc, hm⟩ :=
    exists_commonDominator hl.tree ((hl.isSome_iff a).2 ha) ((hl.isSome_iff b).2 hb)
  have hm' : ∀ x, g.dominates x c ↔ g.dominates x a ∧ g.dominates x b := by
    intro x
    rw [hl.dominates_iff, hl.dominates_iff, hl.dominates_iff]
    exact hm x
  have he := (hm' g.entry).2 ⟨hl.entry_dominates ha, hl.entry_dominates hb⟩
  exact ⟨c, hc, (hl.isReachable_of_dominates he).2, hm'⟩

theorem isReachable_entry (hl : g.Lawful) : g.isReachable g.entry := by
  rw [← hl.isSome_iff, hl.tree.entry]
  rfl

theorem preds_ne_nil (hl : g.Lawful) (hb : g.isReachable b) (he : b ≠ g.entry) : g.preds b ≠ [] := by
  obtain ⟨r, hr⟩ := isReachable_iff.1 hb
  exact hl.ordered.preds_ne_nil b r hr he

theorem isReachable_of_recorded (hl : g.Lawful) (h : g.Recorded a b) :
    g.isReachable a ∧ g.isReachable b :=
  have hlt := rankLt_of_recorded hl.ordered h
  ⟨hlt.isReachable_right, hlt.isReachable_left⟩

/-- Recorded edges lead to every reachable block. -/
theorem exists_path (hl : g.Lawful) : ∀ b, g.isReachable b → ∃ l, Path g.Recorded g.entry b l := by
  apply RankLt.induct (P := fun b => g.isReachable b → ∃ l, Path g.Recorded g.entry b l)
    hl.tree.rank_le
  intro b ih hb
  by_cases he : b = g.entry
  · subst he
    exact ⟨_, .single⟩
  · obtain ⟨p, hp⟩ := List.exists_mem_of_ne_nil _ (hl.preds_ne_nil hb he)
    have hrec := (recorded_iff_mem_preds hl.ordered).2 hp
    obtain ⟨l, hpath⟩ := ih p (rankLt_of_recorded hl.ordered hrec) (hl.isReachable_of_recorded hrec).1
    exact ⟨_, hpath.snoc hrec⟩

theorem isReachable_of_path (hl : g.Lawful) {l : List BlockId} (h : Path g.Recorded g.entry b l) :
    g.isReachable b := by
  cases h with
  | single => exact hl.isReachable_entry
  | snoc _ he => exact (hl.isReachable_of_recorded he).2

end Lawful

end FlowGraph.Graph
