/-!
# Paths

`Path E a b l` lists the nodes of a path from `a` to `b` along a relation `E`.
`OnEveryPath E r a b` says that no path from `r` reaches `b` without `a`, which
is what dominance means before any tree is built. It is settled by the last
edge of a path (`onEveryPath_iff_of_ne`), and edges back to a node that is
passed anyway do not change it (`Path.cut`).
-/

namespace FlowGraph

variable {α : Type} {E : α → α → Prop} {r a b c : α} {l : List α}

/-- The nodes of a path from `a`, both ends included. -/
inductive Path (E : α → α → Prop) (a : α) : α → List α → Prop
  | single : Path E a a [a]
  | snoc {b c : α} {l : List α} : Path E a b l → E b c → Path E a c (l ++ [c])

/-- Every path from `r` to `b` passes `a`. -/
def OnEveryPath (E : α → α → Prop) (r a b : α) : Prop := ∀ l, Path E r b l → a ∈ l

namespace Path

theorem target_mem (h : Path E a b l) : b ∈ l := by
  cases h <;> simp

theorem source_mem (h : Path E a b l) : a ∈ l := by
  induction h with
  | single => simp
  | snoc _ _ ih => exact List.mem_append_left _ ih

theorem mono {E' : α → α → Prop} (hE : ∀ u v, E u v → E' u v) (h : Path E a b l) : Path E' a b l := by
  induction h with
  | single => exact .single
  | snoc _ he ih => exact .snoc ih (hE _ _ he)

theorem cons (h : Path E b c l) (he : E a b) : Path E a c (a :: l) := by
  induction h with
  | single => exact .snoc .single he
  | snoc _ he ih => exact .snoc ih he

/-- The part of a path up to a node on it. -/
theorem upTo (h : Path E a b l) (hc : c ∈ l) : ∃ l', Path E a c l' ∧ l' ⊆ l := by
  induction h with
  | single =>
    rw [List.mem_singleton] at hc
    subst hc
    exact ⟨_, .single, List.Subset.refl _⟩
  | @snoc u v l h he ih =>
    rcases List.mem_append.1 hc with hc | hc
    · obtain ⟨l', h', hs⟩ := ih hc
      exact ⟨l', h', List.subset_append_of_subset_left _ hs⟩
    · rw [List.mem_singleton] at hc
      subst hc
      exact ⟨_, .snoc h he, List.Subset.refl _⟩

/-- Edges to a node that every path to their source has passed can be cut out
of a path. -/
theorem cut {G : α → α → Prop} (hG : ∀ u v, G u v → E u v ∨ OnEveryPath E r v u) (h : Path G r b l) :
    ∃ l', Path E r b l' ∧ l' ⊆ l := by
  induction h with
  | single => exact ⟨_, .single, List.Subset.refl _⟩
  | @snoc u v l _ he ih =>
    obtain ⟨l', h', hs⟩ := ih
    rcases hG u v he with he | hv
    · refine ⟨l' ++ [v], .snoc h' he, ?_⟩
      exact List.append_subset.2
        ⟨List.subset_append_of_subset_left _ hs, List.subset_append_right _ _⟩
    · obtain ⟨l'', h'', hs'⟩ := h'.upTo (hv l' h')
      exact ⟨l'', h'', List.subset_append_of_subset_left _ (List.Subset.trans hs' hs)⟩

end Path

namespace OnEveryPath

theorem target : OnEveryPath E r b b := fun _ h => h.target_mem

/-- Fewer edges, fewer paths. -/
theorem anti {E' : α → α → Prop} (hE : ∀ u v, E u v → E' u v) (h : OnEveryPath E' r a b) :
    OnEveryPath E r a b :=
  fun l hl => h l (hl.mono hE)

end OnEveryPath

theorem onEveryPath_source_iff : OnEveryPath E r a r ↔ a = r := by
  constructor
  · intro h
    simpa using h [r] .single
  · rintro rfl
    exact .target

/-- What is on every path to `b` is on every path to each node before it. -/
theorem onEveryPath_iff_of_ne (hb : b ≠ r) :
    OnEveryPath E r a b ↔ a = b ∨ ∀ p, E p b → OnEveryPath E r a p := by
  constructor
  · intro h
    by_cases hab : a = b
    · exact .inl hab
    · refine .inr fun p hp l hl => ?_
      rcases List.mem_append.1 (h _ (hl.snoc hp)) with ha | ha
      · exact ha
      · exact absurd (List.mem_singleton.1 ha) hab
  · rintro (rfl | h) l hl
    · exact hl.target_mem
    · cases hl with
      | single => exact absurd rfl hb
      | snoc hl he => exact List.mem_append_left _ (h _ he _ hl)

end FlowGraph
