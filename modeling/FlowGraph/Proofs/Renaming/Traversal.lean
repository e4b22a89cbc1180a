import FlowGraph.Proofs.Renaming.Basic
import FlowGraph.Proofs.Traversal.Step
/-!
# Traversals of renamed sources

Two traversals, one of a source and one of the source with its identifiers
renamed, go in step (`State.step_renamed`): each looks up a block, compares it
with its marks and adds it to a list, and an injective renaming changes none of
these answers. So they end alike, with the same log (`run_renamed`).
-/

namespace FlowGraph

variable {p : BlockId → BlockId}

/-! ## What was found -/

/-- The neighbours of a renamed block are those of the block, in their order. -/
def Adjacency.Renames (p : BlockId → BlockId) (adj adj' : Adjacency) : Prop :=
  ∀ b, adj'.neighbours (p b) = (adj.neighbours b).map p

theorem addNew_map (hp : Function.Injective p) (l : List BlockId) (b : BlockId) :
    addNew (l.map p) (p b) = (addNew l b).map p := by
  have hmem : p b ∈ l.map p ↔ b ∈ l := by simp [hp.eq_iff]
  unfold addNew
  simp only [hmem]
  split
  · rfl
  · rw [List.map_append, List.map_singleton]

theorem Adjacency.Renames.add {adj adj' : Adjacency} (hp : Function.Injective p)
    (h : adj.Renames p adj') (a b : BlockId) : (adj.add a b).Renames p (adj'.add (p a) (p b)) := by
  intro x
  simp only [neighbours_add, hp.eq_iff]
  split
  · rw [h a, addNew_map hp]
  · exact h x

namespace Traversal

/-- What was found is the same up to the identifiers. -/
structure Renames (p : BlockId → BlockId) (t t' : Traversal) : Prop where
  mark? : ∀ b, t'.mark? (p b) = t.mark? b
  order : t'.order = t.order.map p
  preds : t.preds.Renames p t'.preds
  succs : t.succs.Renames p t'.succs
  backEdges : t'.backEdges = t.backEdges.map (Edge.rename p)
  mergeEdges : t'.mergeEdges = t.mergeEdges.map (Edge.rename p)

namespace Renames

variable {t t' : Traversal}

theorem empty : Renames p {} {} where
  mark? _ := by simp [Traversal.mark?]
  order := by simp
  preds _ := by simp
  succs _ := by simp
  backEdges := by simp
  mergeEdges := by simp

theorem enter (hp : Function.Injective p) (h : t.Renames p t') (b : BlockId) :
    (t.enter b).Renames p (t'.enter (p b)) := by
  refine { h with mark? := fun x => ?_ }
  simp only [mark?_enter, hp.eq_iff, h.mark?]

theorem finish (hp : Function.Injective p) (h : t.Renames p t') (b : BlockId) :
    (t.finish b).Renames p (t'.finish (p b)) := by
  refine { h with mark? := fun x => ?_, order := ?_ }
  · simp only [mark?_finish, hp.eq_iff, h.mark?, h.order, Array.size_map]
  · simp only [Traversal.finish, h.order, Array.map_push]

theorem addEdge (hp : Function.Injective p) (h : t.Renames p t') (e : Edge) :
    (t.addEdge e).Renames p (t'.addEdge (e.rename p)) :=
  { h with
    preds := h.preds.add hp e.target e.source
    succs := h.succs.add hp e.source e.target }

theorem addBackEdge (h : t.Renames p t') (e : Edge) :
    (t.addBackEdge e).Renames p (t'.addBackEdge (e.rename p)) := by
  refine { h with backEdges := ?_ }
  simp only [Traversal.addBackEdge, h.backEdges, Array.map_push]

theorem addMergeEdge (h : t.Renames p t') (e : Edge) :
    (t.addMergeEdge e).Renames p (t'.addMergeEdge (e.rename p)) := by
  refine { h with mergeEdges := ?_ }
  simp only [Traversal.addMergeEdge, h.mergeEdges, Array.map_push]

end Renames

/-! ## Steps -/

/-- A renamed block with the exits that it has left, renamed as well. -/
def Frame.rename (p : BlockId → BlockId) (f : Frame) : Frame where
  block := p f.block
  exits := f.exits.map (Exit.rename p)

namespace State

/-- The second state is the first with its blocks renamed. -/
structure Renames (p : BlockId → BlockId) (s s' : State) : Prop where
  path : s'.path = s.path.map (Frame.rename p)
  depth : s'.depth = s.depth
  found : s.found.Renames p s'.found
  events : s'.events = s.events.map (Event.rename p)

end State

/-- What the steps lead to is the same up to the identifiers. -/
inductive Outcome.Renames (p : BlockId → BlockId) : Outcome → Outcome → Prop
  | next {s s' : State} : s.Renames p s' → Renames p (next s) (next s')
  | halt {r r' : Logged (Except Error Traversal)} :
      r.Renames p (Traversal.Renames p) r' → Renames p (halt r) (halt r')

theorem Outcome.Renames.map {o o' : Outcome} {f f' : State → State} (h : o.Renames p o')
    (hf : ∀ s s', s.Renames p s' → (f s).Renames p (f' s')) : (o.map f).Renames p (o'.map f') := by
  cases h with
  | next h => exact .next (hf _ _ h)
  | halt h => exact .halt h

namespace State

variable {src src' : Source} {s s' : State}

theorem enter_renamed (hp : Function.Injective p) (hsrc : src.Renames p src') (opts : Options)
    (h : s.Renames p s') (b : BlockId) :
    (s.enter src opts b).Renames p (s'.enter src' opts (p b)) := by
  unfold State.enter
  rw [h.depth, hsrc.block b]
  split
  · exact .halt ⟨.error _, h.events⟩
  · cases src.block b with
    | none => exact .halt ⟨.error _, h.events⟩
    | some block =>
      exact .next {
        path := by simp [h.path, Frame.rename]
        depth := by simp
        found := h.found.enter hp b
        events := h.events }

theorem Renames.noteMerge (h : s.Renames p s') (b : BlockId) (exit : Exit) :
    (s.noteMerge b exit).Renames p (s'.noteMerge (p b) (exit.rename p)) := by
  cases exit with
  | branch target => exact h
  | merge target =>
    exact { h with
      found := h.found.addMergeEdge ⟨b, target⟩
      events := by simp [State.noteMerge, Exit.rename, h.events, Event.rename, Edge.rename] }

theorem follow_renamed (hp : Function.Injective p) (hsrc : src.Renames p src') (opts : Options)
    (h : s.Renames p s') (b : BlockId) (exit : Exit) :
    (s.follow src opts b exit).Renames p (s'.follow src' opts (p b) (exit.rename p)) := by
  unfold follow
  rw [exit.target_rename, h.found.mark?]
  split
  · exact (enter_renamed hp hsrc opts h exit.target).map fun _ _ h => h.noteMerge b exit
  · exact .next { h with
      found := h.found.addBackEdge ⟨b, exit.target⟩
      events := by simp [h.events, Event.rename, Edge.rename] }
  · have hedge : Renames p { s with found := s.found.addEdge ⟨b, exit.target⟩ }
        { s' with found := s'.found.addEdge ⟨p b, p exit.target⟩ } :=
      { h with found := h.found.addEdge hp ⟨b, exit.target⟩ }
    exact .next (hedge.noteMerge b exit)

theorem Renames.leave (hp : Function.Injective p) (h : s.Renames p s') (b : BlockId)
    (rest : List Frame) :
    (s.leave b rest).Renames p (s'.leave (p b) (rest.map (Frame.rename p))) := by
  have hdepth : s'.depth - 1 = s.depth - 1 := by rw [h.depth]
  refine { path := rfl, depth := hdepth, found := ?_, events := h.events }
  cases rest with
  | nil => exact h.found.finish hp b
  | cons parent rest => exact (h.found.finish hp b).addEdge hp ⟨parent.block, b⟩

/-- Every step of the one traversal is a step of the other. -/
theorem step_renamed (hp : Function.Injective p) (hsrc : src.Renames p src') (opts : Options)
    (h : s.Renames p s') :
    (s.step src opts).Renames p (s'.step src' opts) := by
  obtain ⟨path, depth, found, events⟩ := s
  obtain ⟨path', depth', found', events'⟩ := s'
  obtain rfl : path' = path.map (Frame.rename p) := h.path
  match path with
  | [] => exact .halt ⟨.ok h.found, h.events⟩
  | ⟨b, []⟩ :: rest => exact .next (h.leave hp b rest)
  | ⟨b, exit :: exits⟩ :: rest =>
    have hpopped : Renames p ⟨⟨b, exits⟩ :: rest, depth, found, events⟩
        ⟨(⟨b, exits⟩ :: rest).map (Frame.rename p), depth', found', events'⟩ :=
      { h with path := rfl }
    exact follow_renamed hp hsrc opts hpopped b exit

theorem run_renamed (hp : Function.Injective p) (hsrc : src.Renames p src') (opts : Options)
    (h : s.Renames p s') :
    (s.run src opts).Renames p (Traversal.Renames p) (s'.run src' opts) := by
  induction s using State.run.induct src opts generalizing s' with
  | case1 s result heq =>
    have hstep := step_renamed hp hsrc opts h
    rw [heq] at hstep
    generalize heq' : s'.step src' opts = o at hstep
    cases hstep with
    | halt hr =>
      rw [run_of_halt heq, run_of_halt heq']
      exact hr
  | case2 s s₁ heq ih =>
    have hstep := step_renamed hp hsrc opts h
    rw [heq] at hstep
    generalize heq' : s'.step src' opts = o at hstep
    cases hstep with
    | next h₁ =>
      rw [run_of_next heq, run_of_next heq']
      exact ih h₁

end State

theorem run_renamed (hp : Function.Injective p) {src src' : Source} (hsrc : src.Renames p src')
    (opts : Options) : (run src opts).Renames p (Traversal.Renames p) (run src' opts) := by
  have hnew : State.Renames p {} {} := ⟨rfl, rfl, .empty, by simp⟩
  have henter := State.enter_renamed hp hsrc opts hnew src.root
  unfold run
  rw [hsrc.root]
  generalize State.enter src opts src.root {} = o at henter ⊢
  generalize State.enter src' opts (p src.root) {} = o' at henter ⊢
  cases henter with
  | next h => exact State.run_renamed hp hsrc opts h
  | halt h => exact h

end Traversal

end FlowGraph
