import FlowGraph.Graph.Loop
import FlowGraph.Proofs.Graph.Build
import FlowGraph.Proofs.Traversal.Lookup
/-!
# Sources that change

A source may answer differently each time it is asked for a block. `views` lists
what it answers as time goes by: each step of a traversal has a view of its own.
A traversal asks for a block only when it has no mark and marks it at once, so
it asks for no block twice, and some view that does not change gives the same
graph (`exists_view_of_buildOver`), by the same answers
(`exists_answers_of_buildOver`). The search for a loop does look up a block
twice in a step, so there each step has two views.
-/

namespace FlowGraph

/-- The views after the first `n`. -/
def later (views : Nat → View) (n : Nat) : Nat → View := fun i => views (i + n)

@[simp] theorem later_const (view : View) (n : Nat) :
    later (fun _ => view) n = fun _ => view := rfl

/-- Each answer of `view` is one of those given as time goes by. -/
def View.Mixes (view : View) (views : Nat → View) : Prop := ∀ b, ∃ i, view b = views i b

/-- The same source with other blocks. -/
def Source.withView (src : Source) (view : View) : Source := { src with block := view }

theorem Source.exits?_withView {src : Source} {opts : Options} {view view' : View} {b : BlockId}
    (h : view b = view' b) :
    (src.withView view).exits? opts b = (src.withView view').exits? opts b := by
  simp only [exits?, withView, h]

namespace Traversal

namespace State

variable {src : Source} {opts : Options} {s s' : State}

/-- Views that agree on the blocks without a mark lead to the same end. -/
theorem run_congr_view {view view' : View} (h : ∀ b, s.found.mark? b = none → view b = view' b) :
    s.run (src.withView view) opts = s.run (src.withView view') opts := by
  apply run_congr (P := fun s => ∀ b, s.found.mark? b = none → view b = view' b) ?_ ?_ h
  · intro s s' h hs b hb
    exact h b (Classical.byContradiction fun hm => mark?_ne_none_of_step hs hm hb)
  · intro s b h hb
    exact Source.exits?_withView (h b (mark?_of_asks hb))

/-! ## Views that change from step to step -/

/-- `run` where each step has a view of its own. -/
def runOver (src : Source) (opts : Options) (views : Nat → View) (s : State) :
    Logged (Except Error Traversal) :=
  match _ : s.step (src.withView (views 0)) opts with
  | .halt result => result
  | .next s' => runOver src opts (later views 1) s'
termination_by (s.unmarked, pending s.path)
decreasing_by exact lt_of_step ‹_›

theorem runOver_of_halt {views : Nat → View} {r : Logged (Except Error Traversal)}
    (h : s.step (src.withView (views 0)) opts = .halt r) : s.runOver src opts views = r := by
  rw [runOver]
  split
  · next r' hr => rw [h] at hr; cases hr; rfl
  · next s' hn => rw [h] at hn; cases hn

theorem runOver_of_next {views : Nat → View}
    (h : s.step (src.withView (views 0)) opts = .next s') :
    s.runOver src opts views = s'.runOver src opts (later views 1) := by
  rw [runOver]
  split
  · next r hr => rw [h] at hr; cases hr
  · next s'' hn => rw [h] at hn; cases hn; rfl

/-- `old` where a block has a mark in `s` and `new` elsewhere. -/
def seen (s : State) (old new : View) : View :=
  fun b => if s.found.mark? b = none then new b else old b

theorem run_seen (old new : View) :
    s.run (src.withView (s.seen old new)) opts = s.run (src.withView new) opts :=
  run_congr_view fun _ hb => if_pos hb

theorem runOver_const (src : Source) (opts : Options) (view : View) (s : State) :
    s.runOver src opts (fun _ => view) = s.run (src.withView view) opts := by
  induction s using State.run.induct (src.withView view) opts with
  | case1 s result hs => rw [runOver_of_halt hs, run_of_halt hs]
  | case2 s s' hs ih => rw [runOver_of_next hs, run_of_next hs, later_const, ih]

theorem mixes_seen {views : Nat → View} {view : View} (s : State) (h : view.Mixes (later views 1)) :
    View.Mixes (s.seen (views 0) view) views := by
  intro b
  unfold seen
  split
  · obtain ⟨i, hi⟩ := h b
    exact ⟨i + 1, hi⟩
  · exact ⟨0, rfl⟩

theorem exists_view_of_runOver (src : Source) (opts : Options) (views : Nat → View) (s : State) :
    ∃ view : View, view.Mixes views ∧ s.runOver src opts views = s.run (src.withView view) opts := by
  induction views, s using State.runOver.induct src opts with
  | case1 views s result hs =>
    exact ⟨views 0, fun _ => ⟨0, rfl⟩, by rw [runOver_of_halt hs, run_of_halt hs]⟩
  | case2 views s s' hs ih =>
    obtain ⟨view, hmix, hview⟩ := ih
    -- what the step looked up has a mark now, and is not looked up again
    have hs' : s.step (src.withView (s'.seen (views 0) view)) opts = .next s' := by
      rw [← hs]
      exact step_congr fun b hb =>
        Source.exits?_withView (if_neg (mark?_of_step_of_asks (step_of_eq_next hs) hb))
    refine ⟨s'.seen (views 0) view, mixes_seen s' hmix, ?_⟩
    rw [runOver_of_next hs, hview, run_of_next hs', run_seen]

end State

/-- `run` where each step has a view of its own. -/
def runOver (src : Source) (opts : Options) (views : Nat → View) :
    Logged (Except Error Traversal) :=
  match State.enter (src.withView (views 0)) opts src.root {} with
  | .halt result => result
  | .next s => s.runOver src opts (later views 1)

theorem runOver_const (src : Source) (opts : Options) (view : View) :
    runOver src opts (fun _ => view) = run (src.withView view) opts := by
  simp only [runOver, later_const, State.runOver_const]
  rfl

theorem exists_view_of_runOver (src : Source) (opts : Options) (views : Nat → View) :
    ∃ view : View, view.Mixes views ∧ runOver src opts views = run (src.withView view) opts := by
  unfold runOver
  cases hs : State.enter (src.withView (views 0)) opts src.root {} with
  | halt result => exact ⟨views 0, fun _ => ⟨0, rfl⟩, (run_of_enter_halt hs).symm⟩
  | next s =>
    obtain ⟨view, hmix, hview⟩ := s.exists_view_of_runOver src opts (later views 1)
    have hroot : s.found.mark? src.root ≠ none := by
      obtain ⟨-, block, -, rfl⟩ := State.enter_eq_next hs
      simp [mark?_enter]
    have hs' : State.enter (src.withView (s.seen (views 0) view)) opts src.root {} = .next s := by
      rw [← hs]
      exact State.enter_congr (Source.exits?_withView (if_neg hroot))
    refine ⟨s.seen (views 0) view, State.mixes_seen s hmix, ?_⟩
    rw [run_of_enter_next hs', State.run_seen]
    exact hview

end Traversal

namespace Graph

open Traversal

/-! ## Graphs -/

/-- `build` where each step of the traversal has a view of its own. -/
def buildOver (src : Source) (opts : Options) (views : Nat → View) : Logged (Except Error Graph) :=
  ofFound src.entry (Traversal.runOver src opts views)

theorem exists_answers_of_buildOver (src : Source) (opts : Options) (views : Nat → View) :
    ∃ view : View, view.Mixes views ∧ buildOver src opts views = build (src.withView view) opts := by
  obtain ⟨view, hmix, hview⟩ := Traversal.exists_view_of_runOver src opts views
  refine ⟨view, hmix, ?_⟩
  rw [buildOver, hview, build]
  rfl

theorem exists_view_of_buildOver (src : Source) (opts : Options) (views : Nat → View) :
    ∃ view, buildOver src opts views = build (src.withView view) opts := by
  obtain ⟨view, -, hview⟩ := exists_answers_of_buildOver src opts views
  exact ⟨view, hview⟩

theorem buildOver_const (src : Source) (opts : Options) :
    buildOver src opts (fun _ => src.block) = build src opts := by
  rw [buildOver, build, Traversal.runOver_const]
  rfl

/-! ## The search for a loop -/

/-- `searchLoop` where each step has two views: the predecessors, none of which
is listed twice, are looked up in the first, and the one that the walk goes to in
the second. -/
def searchLoopOver (g : Graph) (start : BlockId) :
    Nat → (Nat → View) → BlockId → Except Error (Option BlockId)
  | 0, _, _ => .error (.invariant (.endlessWalk start))
  | steps + 1, views, current =>
    match g.preds current with
    | [] => .ok none
    | first :: preds => do
      let a ← approach (views 0) current first (first :: preds)
      if a.skipsHeader then
        searchLoopOver g start steps (later views 2) a.next
      else if (← (views 1).resolve a.next).merge.isLoop then
        return some a.next
      else
        searchLoopOver g start steps (later views 2) a.next

/-- `loopHeader?` where each step has two views. -/
def loopHeaderOver? (g : Graph) (views : Nat → View) (b : BlockId) : Except Error (Option BlockId) :=
  g.searchLoopOver b (g.size + 1) views b

theorem searchLoopOver_const (g : Graph) (view : View) (start : BlockId) (steps : Nat) :
    ∀ b, g.searchLoopOver start steps (fun _ => view) b = g.searchLoop view start steps b := by
  induction steps with
  | zero => exact fun _ => rfl
  | succ steps ih =>
    intro b
    have hrec : g.searchLoopOver start steps (fun _ => view) = g.searchLoop view start steps :=
      funext ih
    rw [searchLoop, ← hrec]
    rfl

theorem loopHeaderOver?_const (g : Graph) (view : View) (b : BlockId) :
    g.loopHeaderOver? (fun _ => view) b = g.loopHeader? view b :=
  g.searchLoopOver_const view b _ b

end Graph

end FlowGraph
