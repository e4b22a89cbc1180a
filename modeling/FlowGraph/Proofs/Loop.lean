import FlowGraph.Graph.Loop
import FlowGraph.Proofs.Dominance
/-!
# The search finds the innermost loop

In structured code a loop is entered at its header and left to its merge block
(`Structured`). A step of the search then stays inside the same loops
(`encloses_merge_iff`), or arrives at the header of the innermost one
(`encloses_iff_of_pred`). The search ends there, or at the entry if there is no
loop.
-/

namespace FlowGraph

/-- The merge of the block that an identifier names. -/
def View.merge? (view : View) (b : BlockId) : Option Merge := (view b).map Block.merge

theorem View.merge?_of_eq_some {view : View} {b : BlockId} {block : Block} (h : view b = some block) :
    view.merge? b = some block.merge := by
  rw [merge?, h, Option.map_some]

/-- A loop header and the block where the loop goes on. -/
structure Loop where
  header : BlockId
  merge : BlockId
deriving DecidableEq

/-- The loop that a block heads. -/
def View.loop? (view : View) (b : BlockId) : Option Loop :=
  match view.merge? b with
  | some (.loop mergeBlock) => some ⟨b, mergeBlock⟩
  | _ => none

theorem View.loop?_eq_some_iff {view : View} {b : BlockId} {l : Loop} :
    view.loop? b = some l ↔ l.header = b ∧ view.merge? b = some (.loop l.merge) := by
  constructor
  · intro h
    unfold loop? at h
    split at h
    · next hm =>
      cases h
      exact ⟨rfl, hm⟩
    · cases h
  · rintro ⟨rfl, hm⟩
    rw [loop?, hm]

namespace Graph

variable {src : Source} {opts : Options} {g : Graph} {view : View} {l l' : Loop}
  {b p u v x : BlockId}

/-! ## Structured code -/

/-- The loops that reachable blocks head. -/
def loops (g : Graph) (view : View) : List Loop := g.postOrder.filterMap view.loop?

/-- The block is in the loop: dominated by the header, not by the merge block. -/
def InBody (g : Graph) (l : Loop) (b : BlockId) : Prop :=
  g.isReachable b ∧ g.dominates l.header b ∧ ¬ g.dominates l.merge b

instance (g : Graph) (l : Loop) (b : BlockId) : Decidable (g.InBody l b) :=
  inferInstanceAs (Decidable (_ ∧ _ ∧ ¬ _))

/-- Every loop has a merge block of its own, which it dominates and leads to,
and recorded edges enter it at the header and leave it to the merge block. -/
structure Structured (g : Graph) (view : View) : Prop where
  mergeEdge : ∀ l ∈ g.loops view, ⟨l.header, l.merge⟩ ∈ g.mergeEdges ∧ g.dominates l.header l.merge
  merge_inj : ∀ l ∈ g.loops view, ∀ l' ∈ g.loops view, l.merge = l'.merge → l.header = l'.header
  not_selection : ∀ l ∈ g.loops view, ∀ b ∈ g.postOrder, view.merge? b ≠ some (.selection l.merge)
  leave : ∀ l ∈ g.loops view, ∀ u ∈ g.postOrder, ∀ v ∈ g.succs u,
    g.InBody l u → ¬ g.InBody l v → v = l.merge
  enter : ∀ l ∈ g.loops view, ∀ u ∈ g.postOrder, ∀ v ∈ g.succs u,
    ¬ g.InBody l u → g.InBody l v → v = l.header

instance (g : Graph) (view : View) : Decidable (g.Structured view) :=
  decidable_of_iff
    ((∀ l ∈ g.loops view, ⟨l.header, l.merge⟩ ∈ g.mergeEdges ∧ g.dominates l.header l.merge) ∧
      (∀ l ∈ g.loops view, ∀ l' ∈ g.loops view, l.merge = l'.merge → l.header = l'.header) ∧
      (∀ l ∈ g.loops view, ∀ b ∈ g.postOrder, view.merge? b ≠ some (.selection l.merge)) ∧
      (∀ l ∈ g.loops view, ∀ u ∈ g.postOrder, ∀ v ∈ g.succs u,
        g.InBody l u → ¬ g.InBody l v → v = l.merge) ∧
      ∀ l ∈ g.loops view, ∀ u ∈ g.postOrder, ∀ v ∈ g.succs u,
        ¬ g.InBody l u → g.InBody l v → v = l.header)
    ⟨fun ⟨h₁, h₂, h₃, h₄, h₅⟩ => ⟨h₁, h₂, h₃, h₄, h₅⟩, fun ⟨h₁, h₂, h₃, h₄, h₅⟩ => ⟨h₁, h₂, h₃, h₄, h₅⟩⟩

/-- The block is in the loop and does not head it. -/
def Encloses (g : Graph) (view : View) (l : Loop) (b : BlockId) : Prop :=
  l ∈ g.loops view ∧ l.header ≠ b ∧ g.InBody l b

/-- The header of every other loop around the block dominates the one of this loop. -/
def Innermost (g : Graph) (view : View) (l : Loop) (b : BlockId) : Prop :=
  g.Encloses view l b ∧ ∀ l', g.Encloses view l' b → g.dominates l'.header l.header

theorem mem_loops (hl : g.Lawful) :
    l ∈ g.loops view ↔ g.isReachable l.header ∧ view.merge? l.header = some (.loop l.merge) := by
  rw [loops, List.mem_filterMap]
  constructor
  · rintro ⟨b, hb, hm⟩
    obtain ⟨rfl, hm⟩ := View.loop?_eq_some_iff.1 hm
    exact ⟨(mem_postOrder_iff hl.ordered).1 hb, hm⟩
  · rintro ⟨hr, hm⟩
    exact ⟨l.header, (mem_postOrder_iff hl.ordered).2 hr, View.loop?_eq_some_iff.2 ⟨rfl, hm⟩⟩

theorem Innermost.unique (hl : g.Lawful) (h : g.Innermost view l b) (h' : g.Innermost view l' b) :
    l.header = l'.header :=
  hl.dominates_antisymm (h'.2 l h.1) (h.2 l' h'.1)

/-- No loop is around a block that no recorded edge leads to. -/
theorem not_encloses_of_preds_eq_nil (hl : g.Lawful) (hb : g.preds b = []) : ¬ g.Encloses view l b := by
  intro h
  obtain ⟨-, hne, hr, hd, -⟩ := h
  by_cases he : b = g.entry
  · subst he
    exact hne (hl.dominates_antisymm hd (hl.entry_dominates (hl.isReachable_of_dominates hd).1))
  · exact hl.preds_ne_nil hr he hb

/-! ## Along an edge -/

theorem Structured.recorded (hst : g.Structured view) (ha : g.traversal.Accounts src opts)
    (h : l ∈ g.loops view) : g.Recorded l.header l.merge :=
  ha.mem_succs_of_mergeEdge _ (Array.mem_toList_iff.1 (hst.mergeEdge l h).1)

theorem not_inBody_of_rankLt (hl : g.Lawful) (h : g.RankLt l.header b) : ¬ g.InBody l b := by
  rintro ⟨-, hd, -⟩
  rcases hl.rankLt_of_dominates hd with rfl | h'
  · exact h.irrefl
  · exact h.asymm h'

theorem not_inBody_merge (hl : g.Lawful) : ¬ g.InBody l l.merge :=
  fun ⟨hr, _, hn⟩ => hn (hl.dominates_self hr)

theorem Structured.inBody_header (hst : g.Structured view) (hl : g.Lawful)
    (ha : g.traversal.Accounts src opts) (h : l ∈ g.loops view) : g.InBody l l.header := by
  have hr := ((mem_loops hl).1 h).1
  refine ⟨hr, hl.dominates_self hr, fun hd => ?_⟩
  have hlt := rankLt_of_recorded hl.ordered (hst.recorded ha h)
  exact hlt.ne (hl.dominates_antisymm hd (hst.mergeEdge l h).2)

theorem Structured.inBody_target (hst : g.Structured view) (hl : g.Lawful) (h : l ∈ g.loops view)
    (he : g.Recorded u v) (hu : g.InBody l u) (hv : l.merge ≠ v) : g.InBody l v := by
  have hmem := (mem_postOrder_iff hl.ordered).2 hu.1
  exact Decidable.byContradiction fun hn => hv (hst.leave l h u hmem v he hu hn).symm

theorem Structured.inBody_source (hst : g.Structured view) (hl : g.Lawful) (h : l ∈ g.loops view)
    (he : g.Recorded u v) (hv : g.InBody l v) (hne : l.header ≠ v) : g.InBody l u := by
  have hmem := (mem_postOrder_iff hl.ordered).2 (hl.isReachable_of_recorded he).1
  exact Decidable.byContradiction fun hn => hne (hst.enter l h u hmem v he hn hv).symm

/-- The loops around the merge block of a loop are those around the whole loop. -/
theorem Structured.encloses_merge_iff (hst : g.Structured view) (hl : g.Lawful)
    (ha : g.traversal.Accounts src opts) (h : l ∈ g.loops view) :
    g.Encloses view l' l.merge ↔ g.Encloses view l' l.header := by
  have he := hst.recorded ha h
  -- the edge leaves `l`, and no other loop is entered or left by it
  constructor
  · rintro ⟨hm, hne, hb⟩
    refine ⟨hm, fun heq => ?_, hst.inBody_source hl hm he hb hne⟩
    have hmerge := ((mem_loops hl).1 hm).2
    rw [heq, ((mem_loops hl).1 h).2] at hmerge
    cases l; cases l'
    cases heq; cases hmerge
    exact not_inBody_merge hl hb
  · rintro ⟨hm, hne, hb⟩
    refine ⟨hm, fun heq => ?_, hst.inBody_target hl hm he hb fun heq => ?_⟩
    · exact not_inBody_of_rankLt hl (heq ▸ rankLt_of_recorded hl.ordered he) hb
    · exact hne (hst.merge_inj l' hm l h heq)

/-- The loops around a block that is no merge block of a loop are those that
each of its predecessors is in. -/
theorem Structured.encloses_iff_of_pred (hst : g.Structured view) (hl : g.Lawful)
    (he : g.Recorded p x) (hx : ∀ l ∈ g.loops view, l.merge ≠ x) :
    g.Encloses view l x ↔ l ∈ g.loops view ∧ g.InBody l p := by
  constructor
  · rintro ⟨hm, hne, hb⟩
    exact ⟨hm, hst.inBody_source hl hm he hb hne⟩
  · rintro ⟨hm, hb⟩
    refine ⟨hm, fun heq => ?_, hst.inBody_target hl hm he hb (hx l hm)⟩
    exact not_inBody_of_rankLt hl (heq ▸ rankLt_of_recorded hl.ordered he) hb

/-! ## Along the search -/

/-- Where the search goes from `b`, and why. -/
inductive Approached (view : View) (b first : BlockId) (preds : List BlockId) : Approach → Prop
  | loop {p : BlockId} : p ∈ preds → view.merge? p = some (.loop b) →
      Approached view b first preds ⟨p, true⟩
  | selection {p : BlockId} : p ∈ preds → view.merge? p = some (.selection b) →
      Approached view b first preds ⟨p, false⟩
  | first : (∀ p ∈ preds, view.merge? p ≠ some (.loop b)) →
      Approached view b first preds ⟨first, false⟩

theorem exists_approach (b first : BlockId) (preds : List BlockId)
    (h : ∀ p ∈ preds, ∃ block, view p = some block) :
    ∃ a, approach view b first preds = .ok a ∧ Approached view b first preds a := by
  induction preds with
  | nil => exact ⟨_, rfl, .first (by simp)⟩
  | cons p preds ih =>
    rw [List.forall_mem_cons] at h
    obtain ⟨⟨block, hb⟩, hrest⟩ := h
    have hm := View.merge?_of_eq_some hb
    obtain ⟨a, hok, ha⟩ := ih hrest
    -- the search passes `p` by unless `p` owns `b`
    have hpass : block.merge ≠ .loop b → Approached view b first (p :: preds) a := by
      intro hne
      cases ha with
      | loop hp ho => exact .loop (List.mem_cons_of_mem _ hp) ho
      | selection hp ho => exact .selection (List.mem_cons_of_mem _ hp) ho
      | first hall =>
        refine .first ?_
        rw [List.forall_mem_cons]
        exact ⟨fun ho => hne (Option.some.inj (hm.symm.trans ho)), hall⟩
    simp only [approach, hb]
    cases hmb : block.merge with
    | none => exact ⟨a, hok, hpass (by simp [hmb])⟩
    | loop m =>
      by_cases hmeq : m = b
      · exact ⟨_, if_pos hmeq, .loop List.mem_cons_self (by rw [hm, hmb, hmeq])⟩
      · exact ⟨a, by rw [← hok]; exact if_neg hmeq, hpass (by simp [hmb, hmeq])⟩
    | selection m =>
      by_cases hmeq : m = b
      · exact ⟨_, if_pos hmeq, .selection List.mem_cons_self (by rw [hm, hmb, hmeq])⟩
      · exact ⟨a, by rw [← hok]; exact if_neg hmeq, hpass (by simp [hmb])⟩

theorem Approached.next_mem {first : BlockId} {preds : List BlockId} {a : Approach}
    (h : Approached view b first (first :: preds) a) : a.next ∈ first :: preds := by
  cases h with
  | loop hp => exact hp
  | selection hp => exact hp
  | first => exact List.mem_cons_self

/-- The header of the innermost loop around the block, or that there is none. -/
def Answers (g : Graph) (view : View) (b : BlockId) : Option BlockId → Prop
  | none => ∀ l, ¬ g.Encloses view l b
  | some h => ∃ l, l.header = h ∧ g.Innermost view l b

theorem Answers.congr (h : ∀ l, g.Encloses view l x ↔ g.Encloses view l p) {r : Option BlockId}
    (hr : g.Answers view p r) : g.Answers view x r := by
  cases r <;> simpa only [Answers, Innermost, h] using hr

theorem Answers.unique (hl : g.Lawful) {r r' : Option BlockId} (h : g.Answers view b r)
    (h' : g.Answers view b r') : r = r' := by
  match r, r', h, h' with
  | none, none, _, _ => rfl
  | none, some _, h, ⟨l, _, h'⟩ => exact absurd h'.1 (h l)
  | some _, none, ⟨l, _, h⟩, h' => exact absurd h.1 (h' l)
  | some _, some _, ⟨_, rfl, h⟩, ⟨_, rfl, h'⟩ => exact congrArg some (h.unique hl h')

section

variable {first : BlockId} {preds : List BlockId} {a : Approach} {r : Option BlockId}
  (hst : g.Structured view) (hl : g.Lawful) (ha : g.traversal.Accounts src opts)
  (hp : g.preds x = first :: preds) (h : Approached view x first (first :: preds) a)

include hst hl ha hp h

/-- Around an approach that does not leave a loop, the loops are those that the
next block is in. -/
theorem Approached.encloses_iff (hs : a.skipsHeader = false) :
    g.Encloses view l x ↔ l ∈ g.loops view ∧ g.InBody l a.next := by
  have hrec : ∀ p ∈ first :: preds, g.Recorded p x := fun p hmem =>
    (recorded_iff_mem_preds hl.ordered).2 (hp ▸ hmem)
  refine hst.encloses_iff_of_pred hl (hrec _ h.next_mem) fun l' hm heq => ?_
  cases h with
  | loop => cases hs
  | @selection p hpm ho =>
    have hmem := (mem_postOrder_iff hl.ordered).2 (hl.isReachable_of_recorded (hrec p hpm)).1
    exact hst.not_selection l' hm p hmem (heq ▸ ho)
  | first hall =>
    -- the header of `l'` is a predecessor, since it leads to its merge block
    have he := heq ▸ hst.recorded ha hm
    exact hall _ (hp ▸ (recorded_iff_mem_preds hl.ordered).1 he) (heq ▸ ((mem_loops hl).1 hm).2)

theorem Approached.answers_of_skips (hs : a.skipsHeader = true) (hr : g.Answers view a.next r) :
    g.Answers view x r := by
  cases h with
  | @loop p hpm ho =>
    have he : g.Recorded p x := (recorded_iff_mem_preds hl.ordered).2 (hp ▸ hpm)
    have hm : ⟨p, x⟩ ∈ g.loops view :=
      (mem_loops hl).2 ⟨(hl.isReachable_of_recorded he).1, ho⟩
    exact hr.congr fun l => hst.encloses_merge_iff hl ha hm
  | selection => cases hs
  | first => cases hs

theorem Approached.answers_header {m : BlockId} (hs : a.skipsHeader = false)
    (hm : view.merge? a.next = some (.loop m)) (hr : g.isReachable a.next) :
    g.Answers view x (some a.next) := by
  have hmem : ⟨a.next, m⟩ ∈ g.loops view := (mem_loops hl).2 ⟨hr, hm⟩
  refine ⟨⟨a.next, m⟩, rfl, ?_, fun l hl' => ?_⟩
  · exact (h.encloses_iff hst hl ha hp hs).2 ⟨hmem, hst.inBody_header hl ha hmem⟩
  · exact ((h.encloses_iff hst hl ha hp hs).1 hl').2.2.1

theorem Approached.answers_of_not_header (hs : a.skipsHeader = false)
    (hm : ∀ m, view.merge? a.next ≠ some (.loop m)) (hr : g.Answers view a.next r) :
    g.Answers view x r := by
  refine hr.congr fun l => ?_
  rw [h.encloses_iff hst hl ha hp hs]
  refine and_congr_right fun hmem => (and_iff_right ?_).symm
  intro heq
  exact hm l.merge (heq ▸ ((mem_loops hl).1 hmem).2)

end

theorem exists_searchLoop (hst : g.Structured src.block) (hl : g.Lawful)
    (ha : g.traversal.Accounts src opts) (start : BlockId) :
    ∀ steps x, 0 < steps → (∀ r, g.rank? x = some r → g.size < steps + r) →
      ∃ r, g.searchLoop src.block start steps x = .ok r ∧ g.Answers src.block x r := by
  have hres : ∀ p, g.isReachable p → ∃ block, src.block p = some block := by
    intro p hr
    obtain ⟨r, hr⟩ := isReachable_iff.1 hr
    exact ha.resolves p r hr
  intro steps
  induction steps with
  | zero => exact fun x h => absurd h (Nat.lt_irrefl 0)
  | succ steps ih =>
    intro x hpos hx
    cases hp : g.preds x with
    | nil => exact ⟨none, by rw [searchLoop_succ, searchStep, hp], fun l => not_encloses_of_preds_eq_nil hl hp⟩
    | cons first preds =>
      have hlt : ∀ p ∈ first :: preds, g.RankLt x p := fun p hmem =>
        rankLt_of_recorded hl.ordered ((recorded_iff_mem_preds hl.ordered).2 (hp ▸ hmem))
      obtain ⟨a, hok, happ⟩ := exists_approach x first (first :: preds)
        fun p hmem => hres p (hlt p hmem).isReachable_right
      have hreach := (hlt _ happ.next_mem).isReachable_right
      -- ranks grow along the search, so the steps that are left suffice
      obtain ⟨hpos', hx'⟩ := Within.next hl.tree.rank_le ⟨hpos, hx⟩ (hlt _ happ.next_mem)
      obtain ⟨r, hr, hans⟩ := ih a.next hpos' hx'
      obtain ⟨block, hb⟩ := hres _ hreach
      have hm := View.merge?_of_eq_some hb
      simp only [searchLoop_succ, searchStep, hp, hok, View.resolve, hb, bind, Except.bind]
      cases hs : a.skipsHeader with
      | true => exact ⟨r, hr, happ.answers_of_skips hst hl ha hp hs hans⟩
      | false =>
        cases hmb : block.merge with
        | loop m =>
          rw [hmb] at hm
          exact ⟨some a.next, rfl, happ.answers_header hst hl ha hp hs hm hreach⟩
        | none | selection =>
          refine ⟨r, hr, happ.answers_of_not_header hst hl ha hp hs (fun m heq => ?_) hans⟩
          rw [hm, hmb] at heq
          cases heq

/-- In structured code the search always has an answer, which is the header of
the innermost loop around the block, if there is a loop around it. -/
theorem loopHeader?_of_structured (hs : src.Consistent) (h : (build src opts).value = .ok g)
    (hst : g.Structured src.block) (b : BlockId) :
    (∃ r, g.loopHeader? src.block b = .ok r) ∧
    (∀ a, g.loopHeader? src.block b = .ok (some a) ↔
      ∃ l, l.header = a ∧ g.Innermost src.block l b) ∧
    (g.loopHeader? src.block b = .ok none ↔ ∀ l, ¬ g.Encloses src.block l b) ∧
    (¬ g.isReachable b → g.loopHeader? src.block b = .ok none) := by
  obtain ⟨hl, -, ha⟩ := lawful_of_build hs h
  obtain ⟨r, hr, hans⟩ := exists_searchLoop hst hl ha b (g.size + 1) b (Nat.succ_pos _)
    fun r _ => by omega
  have hiff : ∀ r', g.loopHeader? src.block b = .ok r' ↔ g.Answers src.block b r' := by
    intro r'
    rw [loopHeader?, hr]
    constructor
    · rintro ⟨⟩
      exact hans
    · exact fun h' => congrArg Except.ok (hans.unique hl h')
  refine ⟨⟨r, hr⟩, fun a => hiff (some a), hiff none, fun hn => (hiff none).2 fun l hel => ?_⟩
  exact hn hel.2.2.1

theorem loopHeader?_loopInLoop : loopInLoop.source.Consistent ∧
    ∃ g, (build loopInLoop.source).value = .ok g ∧ g.Structured loopInLoop.source.block ∧
      (∃ l, l.header = ⟨2⟩ ∧ g.Innermost loopInLoop.source.block l ⟨6⟩) ∧
      g.loopHeader? loopInLoop.source.block ⟨9⟩ = .ok none := by
  obtain ⟨g, hg, hd⟩ : ∃ g, (build loopInLoop.source).value = .ok g ∧
      (decide (g.Structured loopInLoop.source.block),
        g.loopHeader? loopInLoop.source.block ⟨6⟩, g.isReachable ⟨9⟩) =
        (true, .ok (some ⟨2⟩), false) := exists_of_map_build (by cbv)
  obtain ⟨hst, hd⟩ := Prod.mk.inj hd
  obtain ⟨hin, hr⟩ := Prod.mk.inj hd
  have hst := of_decide_eq_true hst
  have hall := loopHeader?_of_structured loopInLoop.consistent_source hg hst
  refine ⟨loopInLoop.consistent_source, g, hg, hst, ((hall ⟨6⟩).2.1 ⟨2⟩).1 hin, ?_⟩
  exact (hall ⟨9⟩).2.2.2 (by simp [hr])

end Graph

end FlowGraph
