import Mathlib.Data.Nat.Find
import FlowGraph.Proofs.Errors
/-!
# The limit on the path

How deep the path of a traversal may grow is a threshold. Every source has a
depth that building a graph of it takes (`TakesDepth`): limits below that depth
fail, each with an error that names it, and all other limits give the same
result. The path never holds a block twice, so that depth is at most the number
of blocks of a graph (`exists_takesDepth`).
-/

namespace FlowGraph

/-- The options with another limit. -/
def Options.limited (opts : Options) (limit : Nat) : Options := { opts with maxDepth := limit }

variable {src : Source} {opts : Options} {n m : Nat}

/-! ## Raising the limit -/

namespace Traversal

namespace State

theorem enter_limited (src : Source) (opts : Options) (hnm : n ≤ m) (b : BlockId) (s : State) :
    s.enter src (opts.limited n) b = .halt ⟨.error (.tooDeep n), s.events⟩ ∨
      s.enter src (opts.limited m) b = s.enter src (opts.limited n) b := by
  unfold State.enter
  by_cases hn : (opts.limited n).maxDepth ≤ s.depth
  · left
    rw [if_pos hn]
    rfl
  · right
    have hm : ¬ (opts.limited m).maxDepth ≤ s.depth := by
      simp only [Options.limited] at hn ⊢
      omega
    rw [if_neg hn, if_neg hm]
    rfl

/-- A step that has room under a limit is the same under a greater one. -/
theorem step_limited (src : Source) (opts : Options) (hnm : n ≤ m) (s : State) :
    s.step src (opts.limited n) = .halt ⟨.error (.tooDeep n), s.events⟩ ∨
      s.step src (opts.limited m) = s.step src (opts.limited n) := by
  obtain ⟨path, depth, found, events⟩ := s
  match path with
  | [] => exact .inr rfl
  | ⟨b, []⟩ :: rest => exact .inr rfl
  | ⟨b, exit :: exits⟩ :: rest =>
    simp only [step, follow]
    split
    · rcases enter_limited src opts hnm exit.target ⟨⟨b, exits⟩ :: rest, depth, found, events⟩ with h | h
      · left
        rw [h, Outcome.map]
      · right
        rw [h]
    · exact .inr rfl
    · exact .inr rfl

theorem run_limited (src : Source) (opts : Options) (hnm : n ≤ m) (s : State) :
    (s.run src (opts.limited n)).value = .error (.tooDeep n) ∨
      s.run src (opts.limited m) = s.run src (opts.limited n) := by
  induction s using State.run.induct src (opts.limited n) with
  | case1 s result hs =>
    rw [run_of_halt hs]
    rcases step_limited src opts hnm s with h | h
    · left
      rw [hs, Outcome.halt.injEq] at h
      rw [h]
    · exact .inr (run_of_halt (h.trans hs))
  | case2 s s' hs ih =>
    rw [run_of_next hs]
    rcases step_limited src opts hnm s with h | h
    · rw [hs] at h
      cases h
    · rw [run_of_next (h.trans hs)]
      exact ih

end State

theorem run_limited (src : Source) (opts : Options) (hnm : n ≤ m) :
    (run src (opts.limited n)).value = .error (.tooDeep n) ∨
      run src (opts.limited m) = run src (opts.limited n) := by
  rcases State.enter_limited src opts hnm src.root {} with h | h
  · left
    rw [run_of_enter_halt h]
  · cases hs : State.enter src (opts.limited n) src.root {} with
    | halt result =>
      right
      rw [run_of_enter_halt hs, run_of_enter_halt (h.trans hs)]
    | next s =>
      rw [run_of_enter_next hs, run_of_enter_next (h.trans hs)]
      exact State.run_limited src opts hnm s

end Traversal

namespace Graph

/-- A limit that is not exceeded can be raised. -/
theorem build_limited (hnm : n ≤ m) (h : (build src (opts.limited n)).value ≠ .error (.tooDeep n)) :
    build src (opts.limited m) = build src (opts.limited n) := by
  rcases Traversal.run_limited src opts hnm with hrun | hrun
  · exact absurd (value_build_of_error hrun) h
  · rw [build, build, hrun]

end Graph

/-! ## The depth that a source takes -/

/-- A path of followed edges from the entry to one more block after `l` distinct
ones, which all resolve. -/
structure Source.LeadsPast (src : Source) (opts : Options) (l : List BlockId) (b : BlockId) : Prop where
  path : Path (src.Follows opts) src.entry b (l ++ [b])
  nodup : (l ++ [b]).Nodup
  resolves : ∀ x ∈ l, (src.block x).isSome

/-- Building a graph takes a path of `d` blocks: limits below `d` fail with the
error that names them, and from `d` on the limit has no effect. -/
structure Source.TakesDepth (src : Source) (opts : Options) (d : Nat) : Prop where
  pos : 1 ≤ d
  tooDeep : ∀ n < d, (Graph.build src (opts.limited n)).value = .error (.tooDeep n)
  same : ∀ n m, d ≤ n → d ≤ m →
    Graph.build src (opts.limited n) = Graph.build src (opts.limited m)
  not_tooDeep : ∀ n k, d ≤ n → (Graph.build src (opts.limited n)).value ≠ .error (.tooDeep k)

namespace Graph

theorem exists_leadsPast {k : Nat} (hs : src.Consistent)
    (h : (build src (opts.limited n)).value = .error (.tooDeep k)) :
    k = n ∧ ∃ l b, l.length = n ∧ src.LeadsPast opts l b := by
  cases fails_of_build hs h with
  | @tooDeep b l hp hn hl hres => exact ⟨rfl, l, b, hl, hs ▸ hp, hn, hres⟩

theorem not_tooDeep_of_atMost (hs : src.Consistent) (hn : src.AtMost n) :
    (build src (opts.limited (n + 1))).value ≠ .error (.tooDeep (n + 1)) := by
  intro h
  obtain ⟨-, l, b, hl, hlead⟩ := exists_leadsPast hs h
  have hle := hn l (List.nodup_append.1 hlead.nodup).1 hlead.resolves
  omega

/-- A path of followed edges has no more distinct blocks than the graph. -/
theorem not_tooDeep_of_build {g : Graph} (hs : src.Consistent)
    (hg : (build src (opts.limited n)).value = .ok g) :
    (build src (opts.limited g.postOrder.length)).value ≠ .error (.tooDeep g.postOrder.length) := by
  intro h
  obtain ⟨-, l, b, hl, hlead⟩ := exists_leadsPast hs h
  obtain ⟨hlaw, -, -⟩ := lawful_of_build hs hg
  have hsub : l ++ [b] ⊆ g.postOrder := by
    intro x hx
    obtain ⟨l', hp, -⟩ := hlead.path.upTo hx
    exact (mem_postOrder_iff hlaw.ordered).2 ((isReachable_iff_path hs hg).2 ⟨l', hp⟩)
  have hle := hlead.nodup.length_le_of_subset hsub
  rw [List.length_append, hl, List.length_singleton] at hle
  omega

theorem atMost_count (src : Source) : src.AtMost BlockId.count :=
  fun _ hl _ => BlockId.length_le_count hl

/-- Every source takes some depth, at most one more than the number of blocks
that resolve, and no more than the number of blocks of its graph if there is
one. A limit is exceeded only if a path leads through as many distinct blocks
and on to yet another. -/
theorem exists_takesDepth (hs : src.Consistent) (opts : Options) :
    (∃ d, src.TakesDepth opts d ∧ (∀ n, src.AtMost n → d ≤ n + 1) ∧
      ∀ n g, (build src (opts.limited n)).value = .ok g → d ≤ g.postOrder.length) ∧
    ∀ n k, (build src (opts.limited n)).value = .error (.tooDeep k) →
      k = n ∧ ∃ l b, l.length = n ∧ src.LeadsPast opts l b := by
  classical
  have hex : ∃ n, (build src (opts.limited n)).value ≠ .error (.tooDeep n) :=
    ⟨_, not_tooDeep_of_atMost hs (atMost_count src)⟩
  have hsame : ∀ n, Nat.find hex ≤ n →
      build src (opts.limited n) = build src (opts.limited (Nat.find hex)) :=
    fun n hn => build_limited hn (Nat.find_spec hex)
  refine ⟨⟨Nat.find hex, ⟨?_, ?_, ?_, ?_⟩, ?_, ?_⟩, fun n k h => exists_leadsPast hs h⟩
  · -- without any room not even the entry can be put on the path
    rw [Nat.one_le_iff_ne_zero, Ne, Nat.find_eq_zero]
    exact fun h => h rfl
  · exact fun n hn => Classical.not_not.1 (Nat.find_min hex hn)
  · exact fun n m hn hm => (hsame n hn).trans (hsame m hm).symm
  · intro n k hn h
    rw [hsame n hn] at h
    obtain ⟨rfl, -⟩ := exists_leadsPast hs h
    exact Nat.find_spec hex h
  · exact fun n hn => Nat.find_min' hex (not_tooDeep_of_atMost hs hn)
  · exact fun n g hg => Nat.find_min' hex (not_tooDeep_of_build hs hg)

/-- Block 3 does not exist, and is looked up only where the path has room for it. -/
def cutOff : Body := .ofList ⟨1⟩ [
  (⟨1⟩, ⟨.direct ⟨2⟩, .none⟩),
  (⟨2⟩, ⟨.select ⟨1⟩ ⟨3⟩, .none⟩)]

theorem exists_takesDepth_cutOff : cutOff.source.Consistent ∧ cutOff.source.AtMost 2 ∧
    cutOff.source.TakesDepth .standard 3 ∧
    (build cutOff.source (Options.standard.limited 3)).value = .error (.unknown ⟨3⟩) ∧
    (build cutOff.source (Options.standard.limited 2)).value = .error (.tooDeep 2) ∧
    ∃ l b, l.length = 2 ∧ cutOff.source.LeadsPast .standard l b := by
  have hs := cutOff.consistent_source
  have hn : cutOff.source.AtMost 2 := cutOff.atMost_source
  have hroom : (build cutOff.source (Options.standard.limited 3)).value = .error (.unknown ⟨3⟩) := by cbv
  have hdeep : (build cutOff.source (Options.standard.limited 2)).value = .error (.tooDeep 2) := by cbv
  obtain ⟨⟨d, hd, hmost, -⟩, hpast⟩ := exists_takesDepth hs .standard
  have hle := hmost 2 hn
  have hlt : ¬ d ≤ 2 := fun h => hd.not_tooDeep 2 2 h hdeep
  obtain rfl : d = 3 := by omega
  exact ⟨hs, hn, hd, hroom, hdeep, (hpast 2 2 hdeep).2⟩

end Graph

end FlowGraph
