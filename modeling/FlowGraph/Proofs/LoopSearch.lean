import FlowGraph.Proofs.Changing
import FlowGraph.Proofs.Edges
import FlowGraph.Proofs.Ends
import FlowGraph.Proofs.Loop
/-!
# The search for a loop ends

Whatever code a graph is of, structured or not, and whatever has become of its
blocks since, the search comes to one of three ends: it runs out of predecessors,
it finds a loop header, or it comes to a block that does not resolve any more.
Every step goes back along a recorded edge. So it goes up in rank, stays among the
reachable blocks, and leaves a path from where it is to where it began
(`ends_searchLoopOver`). It never takes all the steps that it is given
(`loopHeader?_eq_searchStep`).
-/

namespace FlowGraph.Graph

variable {src : Source} {opts : Options} {g : Graph} {view : View} {views : Nat → View}
  {a b p root : BlockId}

/-! ## What the search may come to -/

/-- In one of the views `a` heads a loop, and a path of recorded edges leads from
it to `b`, which is another block. -/
structure Precedes (g : Graph) (views : Nat → View) (a b : BlockId) : Prop where
  header : ∃ i m, (views i).merge? a = some (.loop m)
  rankLt : g.RankLt b a
  path : ∃ l, Path g.Recorded a b l

/-- In one of the views a reachable block does not resolve. -/
inductive Unresolved (g : Graph) (views : Nat → View) : Error → Prop
  | unknown {p : BlockId} (i : Nat) : g.isReachable p → views i p = none → Unresolved g views (.unknown p)

theorem Precedes.of_recorded {block : Block} (hlt : g.RankLt b a) (he : g.Recorded a b) (i : Nat)
    (hv : views i a = some block) (hl : block.merge.isLoop) : g.Precedes views a b := by
  obtain ⟨m, hm⟩ : ∃ m, block.merge = .loop m := by
    cases hb : block.merge with
    | loop m => exact ⟨m, rfl⟩
    | none | selection => rw [hb] at hl; cases hl
  exact ⟨⟨i, m, by rw [View.merge?_of_eq_some hv, hm]⟩, hlt, _, Path.single.snoc he⟩

/-- What precedes a block in the views that are left precedes what it leads to. -/
theorem Precedes.later {n : Nat} (h : g.Precedes (later views n) a p) (hlt : g.RankLt b p)
    (he : g.Recorded p b) : g.Precedes views a b := by
  obtain ⟨⟨i, m, hm⟩, hpa, l, hl⟩ := h
  exact ⟨⟨i + n, m, hm⟩, hlt.trans hpa, _, hl.snoc he⟩

theorem Unresolved.later {n : Nat} {e : Error} (h : g.Unresolved (later views n) e) :
    g.Unresolved views e := by
  cases h with
  | unknown i hr hn => exact .unknown (i + n) hr hn

/-! ## The search -/

theorem ends_approach (view : View) (b first : BlockId) (preds : List BlockId) :
    Ends (fun a => a.next = first ∨ a.next ∈ preds)
      (fun e => ∃ p ∈ preds, e = .unknown p ∧ view p = none) (approach view b first preds) := by
  induction preds with
  | nil => exact .inl rfl
  | cons p preds ih =>
    -- what is said of the predecessors after `p` is said of all
    have hpass : Ends (fun a => a.next = first ∨ a.next ∈ p :: preds)
        (fun e => ∃ q ∈ p :: preds, e = .unknown q ∧ view q = none) (approach view b first preds) := by
      apply ih.imp
      · exact fun a ha => ha.imp_right (List.mem_cons_of_mem p)
      · rintro e ⟨q, hq, he⟩
        exact ⟨q, List.mem_cons_of_mem p hq, he⟩
    unfold approach
    split
    · next hn => exact ⟨p, List.mem_cons_self, rfl, hn⟩
    · split
      · split
        · exact .inr List.mem_cons_self
        · exact hpass
      · split
        · exact .inr List.mem_cons_self
        · exact hpass
      · exact hpass

/-- Each step of the search goes back along a recorded edge. -/
theorem ends_approach_preds (ho : g.traversal.PostOrdered root) (view : View) {b first : BlockId}
    {preds : List BlockId} (hp : g.preds b = first :: preds) :
    Ends (fun a => g.Recorded a.next b) (fun e => ∃ p, e = .unknown p ∧ g.isReachable p ∧ view p = none)
      (approach view b first (first :: preds)) := by
  have hmem : ∀ p ∈ first :: preds, g.Recorded p b :=
    fun p hin => (recorded_iff_mem_preds ho).2 (hp ▸ hin)
  apply (ends_approach view b first (first :: preds)).imp
  · rintro a (ha | ha)
    · exact hmem _ (ha ▸ List.mem_cons_self)
    · exact hmem _ ha
  · rintro e ⟨p, hin, rfl, hn⟩
    exact ⟨p, rfl, (rankLt_of_recorded ho (hmem p hin)).isReachable_right, hn⟩

/-- The search ends before its steps do. What it finds precedes the block where it
starts, and it fails on nothing but a block that does not resolve. -/
theorem ends_searchLoopOver (ho : g.traversal.PostOrdered root) (start : BlockId) :
    ∀ steps views b, g.Within steps b →
      Ends (fun r => ∀ a, r = some a → g.Precedes views a b) (g.Unresolved views)
        (g.searchLoopOver start steps views b) := by
  intro steps
  induction steps with
  | zero => exact fun _ _ h => absurd h.1 (Nat.lt_irrefl 0)
  | succ steps ih =>
    intro views b hb
    unfold searchLoopOver
    split
    · exact nofun
    next first preds hp =>
    have happroach : Ends (fun a => g.Recorded a.next b) (g.Unresolved views)
        (approach (views 0) b first (first :: preds)) := by
      apply (ends_approach_preds ho (views 0) hp).imp
      · exact fun _ he => he
      · rintro e ⟨p, rfl, hr, hn⟩
        exact .unknown 0 hr hn
    apply happroach.bind
    intro a he
    have hlt := rankLt_of_recorded ho he
    have hnext : Ends (fun r => ∀ c, r = some c → g.Precedes views c b) (g.Unresolved views)
        (g.searchLoopOver start steps (later views 2) a.next) := by
      apply (ih (later views 2) a.next (hb.up ho hlt)).imp
      · exact fun r hr c hc => (hr c hc).later hlt he
      · exact fun e he => he.later
    split
    · exact hnext
    · unfold View.resolve
      cases hv : views 1 a.next with
      | none => exact .unknown 1 hlt.isReachable_right hv
      | some block =>
        simp only [bind, Except.bind]
        split
        · next hl =>
          rintro c hc
          exact Option.some.inj hc ▸ .of_recorded hlt he 1 hv hl
        · exact hnext

theorem ends_loopHeader? (ho : g.traversal.PostOrdered root) (view : View) (b : BlockId) :
    Ends (fun r => ∀ a, r = some a → g.Precedes (fun _ => view) a b) (g.Unresolved fun _ => view)
      (g.loopHeader? view b) := by
  rw [← loopHeaderOver?_const]
  exact ends_searchLoopOver ho b _ _ b (g.within_size b)

/-! ## The number of steps -/

/-- A step goes on from blocks of greater rank only. -/
theorem searchStep_congr (ho : g.traversal.PostOrdered root)
    {rest rest' : BlockId → Except Error (Option BlockId)} (h : ∀ a, g.RankLt b a → rest a = rest' a) :
    g.searchStep view rest b = g.searchStep view rest' b := by
  unfold searchStep
  split
  · rfl
  next first preds hp =>
  cases hok : approach view b first (first :: preds) with
  | error e => rfl
  | ok a =>
    have hlt := rankLt_of_recorded ho ((ends_approach_preds ho view hp).of_ok hok)
    simp only [bind, Except.bind, h a.next hlt]

/-- With enough steps, their number does not matter, nor where the search began. -/
theorem searchLoop_congr (ho : g.traversal.PostOrdered root) (start start' : BlockId) :
    ∀ n n' b, g.Within n b → g.Within n' b →
      g.searchLoop view start n b = g.searchLoop view start' n' b := by
  intro n
  induction n with
  | zero => exact fun _ _ h _ => absurd h.1 (Nat.lt_irrefl 0)
  | succ n ih =>
    intro n' b hn hn'
    cases n' with
    | zero => exact absurd hn'.1 (Nat.lt_irrefl 0)
    | succ n' =>
      rw [searchLoop_succ, searchLoop_succ]
      apply searchStep_congr ho
      exact fun a hlt => ih n' a (hn.up ho hlt) (hn'.up ho hlt)

/-- The bound on the steps never shows: the search is one step, and then the search
from where that leads. -/
theorem loopHeader?_eq_searchStep (ho : g.traversal.PostOrdered root) (view : View) (b : BlockId) :
    g.loopHeader? view b = g.searchStep view (g.loopHeader? view) b := by
  rw [loopHeader?, searchLoop_succ]
  apply searchStep_congr ho
  intro a hlt
  exact searchLoop_congr ho b a _ _ a ((g.within_size b).up ho hlt) (g.within_size a)

/-! ## Blocks without predecessors -/

theorem loopHeader?_of_preds_eq_nil (hb : g.preds b = []) (view : View) :
    g.loopHeader? view b = .ok none := by
  rw [loopHeader?, searchLoop_succ, searchStep, hb]

/-! ## Every search of every graph -/

/-- In every graph, with every view and from every block, the search for a loop runs
to its end. It has an answer unless it comes to a reachable block that does not
resolve, and so it always has one in the view that the graph was built from. What it
finds is a reachable loop header of greater rank, from which a path of recorded edges
leads to the block. There is no loop around a block without predecessors. The block
where the traversal starts is one, be it the entry or not, and so is every unreachable
block. -/
theorem loopHeader?_of_build (h : (build src opts).value = .ok g) :
    (∀ view b, g.loopHeader? view b = g.searchStep view (g.loopHeader? view) b) ∧
    (∀ view b,
      g.loopHeader? view b = .ok none ∨
      (∃ a, g.loopHeader? view b = .ok (some a) ∧ g.isReachable a ∧
        (∃ m, view.merge? a = some (.loop m)) ∧ g.RankLt b a ∧ a ≠ b ∧ ∃ l, Path g.Recorded a b l) ∨
      ∃ p, g.loopHeader? view b = .error (.unknown p) ∧ g.isReachable p ∧ view p = none) ∧
    (∀ b, ∃ r, g.loopHeader? src.block b = .ok r) ∧
    (∀ view b, g.preds b = [] → g.loopHeader? view b = .ok none) ∧
    g.preds src.root = [] ∧ (src.Consistent → g.preds g.entry = []) ∧
    ∀ b, ¬ g.isReachable b → g.preds b = [] := by
  obtain ⟨he, hrun⟩ := run_of_build h
  have ho := Traversal.postOrdered_of_run hrun
  have hroot : g.preds src.root = [] := preds_root ho
  refine ⟨loopHeader?_eq_searchStep ho, fun view b => ?_, fun b => ?_,
    fun view b hb => loopHeader?_of_preds_eq_nil hb view, hroot, fun hs => ?_,
    fun b hb => (absent_of_build h hb).preds⟩
  · have hends := ends_loopHeader? ho view b
    match hr : g.loopHeader? view b with
    | .ok none => exact .inl rfl
    | .ok (some a) =>
      obtain ⟨⟨-, m, hm⟩, hlt, hpath⟩ := hends.of_ok hr a rfl
      exact .inr (.inl ⟨a, rfl, hlt.isReachable_right, ⟨m, hm⟩, hlt, hlt.ne.symm, hpath⟩)
    | .error e =>
      cases hends.of_error hr with
      | @unknown p _ hreach hnone => exact .inr (.inr ⟨p, rfl, hreach, hnone⟩)
  · cases hr : g.loopHeader? src.block b with
    | ok r => exact ⟨r, rfl⟩
    | error e =>
      cases (ends_loopHeader? ho src.block b).of_error hr with
      | unknown _ hreach hnone =>
        -- the traversal has looked up every block that it reached
        obtain ⟨block, hblock, -⟩ := sortsExits_of_build h hreach
        rw [hblock] at hnone
        cases hnone
  · rw [he, ← hs]
    exact hroot

/-- Block 4 of `loopInLoop` has gone. -/
def loopInLoopLater : View := fun b => if b = ⟨4⟩ then none else loopInLoop.get? b

theorem loopHeader?_of_loopInLoopLater : ∃ g, (build loopInLoop.source).value = .ok g ∧
    g.loopHeader? loopInLoopLater ⟨7⟩ = .error (.unknown ⟨4⟩) ∧ g.isReachable ⟨4⟩ ∧
    g.loopHeader? loopInLoopLater ⟨6⟩ = .ok (some ⟨2⟩) ∧ (∃ l, Path g.Recorded ⟨2⟩ ⟨6⟩ l) ∧
    g.loopHeader? loopInLoopLater ⟨1⟩ = .ok none ∧ g.loopHeader? loopInLoopLater ⟨9⟩ = .ok none := by
  obtain ⟨g, hg, hd⟩ : ∃ g, (build loopInLoop.source).value = .ok g ∧
      (g.loopHeader? loopInLoopLater ⟨7⟩, g.loopHeader? loopInLoopLater ⟨6⟩, g.isReachable ⟨9⟩) =
        (.error (.unknown ⟨4⟩), .ok (some ⟨2⟩), false) := exists_of_map_build (by cbv)
  simp only [Prod.mk.injEq] at hd
  obtain ⟨h7, h6, h9⟩ := hd
  obtain ⟨-, hall, -, hnil, hroot, -, hun⟩ := loopHeader?_of_build hg
  refine ⟨g, hg, h7, ?_, h6, ?_, hnil _ _ hroot, hnil _ _ (hun _ (by simp [h9]))⟩
  · obtain hok | ⟨a, hok, -⟩ | ⟨p, he, hreach, -⟩ := hall loopInLoopLater ⟨7⟩
    · rw [h7] at hok; cases hok
    · rw [h7] at hok; cases hok
    · rw [h7] at he; cases he; exact hreach
  · obtain hok | ⟨a, hok, -, -, -, -, hpath⟩ | ⟨p, he, -⟩ := hall loopInLoopLater ⟨6⟩
    · rw [h6] at hok; cases hok
    · rw [h6] at hok; cases hok; exact hpath
    · rw [h6] at he; cases he

end FlowGraph.Graph
