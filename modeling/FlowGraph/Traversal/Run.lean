import FlowGraph.Traversal.Basic
/-!
# The depth-first traversal

From the root of a source, the traversal follows the exits of each block in
turn, and enters a block when it first comes to it. A block is ranked when all
its exits are done. A tree edge is recorded when its target is done, any other
edge when it is followed.

The path is explicit, so deep bodies need no deep recursion; how long it may
grow is an option. `run` ends for every source because each step marks a block
or takes something off the path (`lt_of_step`).
-/

namespace FlowGraph.Traversal

/-! ## One step -/

/-- A block on the path and its exits that are still to follow. -/
structure Frame where
  block : BlockId
  exits : List Exit

/-- A traversal under way; the path has the block entered last at its head. -/
structure State where
  path : List Frame := []
  depth : Nat := 0
  found : Traversal := {}
  events : Array Event := #[]

/-- What a step leads to: a further state, or the result of the traversal. -/
inductive Outcome where
  | next (s : State)
  | halt (result : Logged (Except Error Traversal))

/-- Goes on from the further state, if there is one. -/
def Outcome.map (f : State → State) : Outcome → Outcome
  | next s => next (f s)
  | halt result => halt result

namespace State

/-- Puts `b` on the path, unless the path is full or `b` names no block. -/
def enter (src : Source) (opts : Options) (b : BlockId) (s : State) : Outcome :=
  if opts.maxDepth ≤ s.depth then
    .halt ⟨.error (.tooDeep opts.maxDepth), s.events⟩
  else
    match src.block b with
    | none => .halt ⟨.error (.unknown b), s.events⟩
    | some block =>
      .next { s with
        path := ⟨b, block.exits opts⟩ :: s.path
        depth := s.depth + 1
        found := s.found.enter b }

/-- Records the edge from `source` apart if it was followed for a merge. -/
def noteMerge (source : BlockId) (exit : Exit) (s : State) : State :=
  match exit with
  | .branch _ => s
  | .merge target =>
    { s with
      found := s.found.addMergeEdge ⟨source, target⟩
      events := s.events.push (.mergeEdge ⟨source, target⟩) }

/-- Follows an exit of the block `source`. -/
def follow (src : Source) (opts : Options) (source : BlockId) (exit : Exit) (s : State) : Outcome :=
  match s.found.mark? exit.target with
  | none => (s.enter src opts exit.target).map (noteMerge source exit)
  | some .onPath =>
    .next { s with
      found := s.found.addBackEdge ⟨source, exit.target⟩
      events := s.events.push (.backEdge ⟨source, exit.target⟩) }
  | some (.done _) =>
    .next (noteMerge source exit { s with found := s.found.addEdge ⟨source, exit.target⟩ })

/-- Takes `b` off the path; the edge that led to it is then recorded. -/
def leave (b : BlockId) (rest : List Frame) (s : State) : State :=
  let found := s.found.finish b
  { s with
    path := rest
    depth := s.depth - 1
    found := match rest with
      | [] => found
      | parent :: _ => found.addEdge ⟨parent.block, b⟩ }

/-- The traversal is over when the path is empty. -/
def step (src : Source) (opts : Options) (s : State) : Outcome :=
  match s.path with
  | [] => .halt ⟨.ok s.found, s.events⟩
  | ⟨b, []⟩ :: rest => .next (s.leave b rest)
  | ⟨b, exit :: exits⟩ :: rest =>
    follow src opts b exit { s with path := ⟨b, exits⟩ :: rest }

/-! ## Running to the end -/

/-- The exits left on the path, counting one more for each block on it. -/
def pending : List Frame → Nat
  | [] => 0
  | f :: path => f.exits.length + 1 + pending path

@[simp] theorem pending_cons (f : Frame) (path : List Frame) :
    pending (f :: path) = f.exits.length + 1 + pending path := rfl

/-- How many identifiers have no mark. -/
def unmarked (s : State) : Nat := BlockId.count - s.found.marks.size

@[simp] theorem unmarked_noteMerge (b : BlockId) (exit : Exit) (s : State) :
    (s.noteMerge b exit).unmarked = s.unmarked := by
  cases exit <;> rfl

theorem unmarked_enter {src : Source} {opts : Options} {b : BlockId} {s s' : State}
    (h : s.enter src opts b = .next s') (hb : s.found.mark? b = none) :
    s'.unmarked < s.unmarked := by
  have hc := BlockId.size_map_le s'.found.marks
  unfold enter at h
  split at h
  · cases h
  split at h
  · cases h
  cases h
  have hb : b ∉ s.found.marks := by simpa [mark?] using hb
  simp only [unmarked, Traversal.enter, Std.TreeMap.size_insert, Std.TreeMap.contains_iff_mem, hb,
    if_false] at hc ⊢
  omega

theorem unmarked_leave (b : BlockId) (rest : List Frame) (s : State) :
    (s.leave b rest).unmarked ≤ s.unmarked := by
  have : s.found.marks.size ≤ (s.found.finish b).marks.size := by
    simp only [finish, Std.TreeMap.size_insert]
    split <;> omega
  cases rest <;> simp only [leave, unmarked, addEdge] <;> omega

/-- A step marks a block, or keeps the marks and takes something off the path. -/
theorem lt_of_step {src : Source} {opts : Options} {s s' : State} (h : s.step src opts = .next s') :
    Prod.Lex (· < ·) (· < ·) (s'.unmarked, pending s'.path) (s.unmarked, pending s.path) := by
  rw [Prod.lex_def]
  unfold step at h
  split at h
  · cases h
  · next b rest hp =>
    cases h
    have := s.unmarked_leave b rest
    have : pending (s.leave b rest).path < pending s.path := by simp [leave, hp]
    simp only; omega
  · next b exit exits rest hp =>
    unfold follow at h
    split at h
    · next hm =>
      cases he : State.enter src opts exit.target { s with path := ⟨b, exits⟩ :: rest } with
      | halt r => simp [he, Outcome.map] at h
      | next s₁ =>
        simp only [he, Outcome.map, Outcome.next.injEq] at h
        subst h
        left
        rw [unmarked_noteMerge]
        have := unmarked_enter he hm
        exact this
    · cases h
      right
      simp [unmarked, addBackEdge, hp]
    · cases h
      right
      constructor
      · rw [unmarked_noteMerge]; rfl
      · cases exit <;> simp [noteMerge, hp]

/-- Takes steps to the end. -/
def run (src : Source) (opts : Options) (s : State) : Logged (Except Error Traversal) :=
  match _ : s.step src opts with
  | .halt result => result
  | .next s' => run src opts s'
termination_by (s.unmarked, pending s.path)
decreasing_by exact lt_of_step ‹_›

end State

/-- The traversal of a source from its root. -/
def run (src : Source) (opts : Options) : Logged (Except Error Traversal) :=
  match State.enter src opts src.root {} with
  | .halt result => result
  | .next s => s.run src opts

end FlowGraph.Traversal
