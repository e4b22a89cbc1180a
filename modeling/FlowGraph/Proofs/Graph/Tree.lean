import FlowGraph.Graph.Dominator
/-!
# The dominator tree

`Tree` says that the immediate dominators form a tree with the entry at its
root, in which ranks grow towards the root. The tree may be one that is still
being built and cover some blocks only. Then `dominators` lists the way to the
root, whatever its bound on steps (`dominators_of_up`), and the climb of
`commonDominator` ends where two such ways meet (`exists_commonDominator`).
-/

namespace FlowGraph.Graph

variable {g : Graph} {a b c d x : BlockId} {l : List BlockId}

/-! ## Order by rank -/

/-- Both blocks are reachable and `b` has the smaller rank. -/
def RankLt (g : Graph) (b d : BlockId) : Prop :=
  ∃ r q, g.rank? b = some r ∧ g.rank? d = some q ∧ r < q

theorem rankLt_iff {r q : Nat} (hr : g.rank? b = some r) (hq : g.rank? d = some q) :
    g.RankLt b d ↔ r < q := by
  constructor
  · rintro ⟨r', q', hr', hq', hlt⟩
    rw [hr] at hr'
    rw [hq] at hq'
    cases hr'
    cases hq'
    exact hlt
  · exact fun hlt => ⟨r, q, hr, hq, hlt⟩

instance (g : Graph) (b d : BlockId) : Decidable (g.RankLt b d) :=
  match hr : g.rank? b, hq : g.rank? d with
  | some _, some _ => decidable_of_iff _ (rankLt_iff hr hq).symm
  | none, _ => isFalse fun ⟨_, _, hr', _⟩ => by rw [hr] at hr'; cases hr'
  | some _, none => isFalse fun ⟨_, _, _, hq', _⟩ => by rw [hq] at hq'; cases hq'

theorem RankLt.trans (h : g.RankLt a b) (h' : g.RankLt b c) : g.RankLt a c := by
  obtain ⟨r, q, hr, hq, hlt⟩ := h
  obtain ⟨q', p, hq', hp, hlt'⟩ := h'
  rw [hq] at hq'
  cases hq'
  exact ⟨r, p, hr, hp, Nat.lt_trans hlt hlt'⟩

theorem RankLt.irrefl : ¬ g.RankLt a a := by
  rintro ⟨r, q, hr, hq, hlt⟩
  rw [hr] at hq
  cases hq
  exact Nat.lt_irrefl r hlt

theorem RankLt.ne (h : g.RankLt a b) : a ≠ b := by
  rintro rfl
  exact RankLt.irrefl h

theorem RankLt.asymm (h : g.RankLt a b) : ¬ g.RankLt b a :=
  fun h' => RankLt.irrefl (h.trans h')

theorem rankLt_of_pairwise (h : l.Pairwise g.RankLt) (hb : l.head? = some b) (hx : x ∈ l) :
    x = b ∨ g.RankLt b x := by
  obtain ⟨l', rfl⟩ := List.head?_eq_some_iff.1 hb
  rcases List.mem_cons.1 hx with rfl | hx
  · exact .inl rfl
  · exact .inr ((List.pairwise_cons.1 h).1 x hx)

/-- A block goes before a list of rising ranks if it ranks below the first. -/
theorem RankLt.pairwise_cons (hlt : g.RankLt b d) (h : l.Pairwise g.RankLt)
    (hd : l.head? = some d) : (b :: l).Pairwise g.RankLt := by
  refine List.pairwise_cons.2 ⟨fun x hx => ?_, h⟩
  rcases rankLt_of_pairwise h hd hx with rfl | hlt'
  · exact hlt
  · exact hlt.trans hlt'

/-- Induction from the blocks of greater rank to those of smaller rank. -/
theorem RankLt.induct {P : BlockId → Prop} (hle : ∀ b r, g.rank? b = some r → r ≤ g.size)
    (step : ∀ b, (∀ p, g.RankLt b p → P p) → P b) (b : BlockId) : P b := by
  -- `n` bounds how many ranks there are above the one of `b`
  have main : ∀ n b, (∀ r, g.rank? b = some r → g.size - r < n) → P b := by
    intro n
    induction n with
    | zero =>
      intro b hn
      refine step b fun p hp => ?_
      obtain ⟨r, _, hr, -⟩ := hp
      exact absurd (hn r hr) (Nat.not_lt_zero _)
    | succ n ih =>
      intro b hn
      refine step b fun p hp => ih p fun q' hq' => ?_
      obtain ⟨r, q, hr, hq, hlt⟩ := hp
      have := hle p q hq
      have := hn r hr
      rw [hq] at hq'
      cases hq'
      omega
  exact main (g.size + 1) b fun r _ => by omega

/-- A walk from `b` that goes up in rank ends within this many steps. -/
def Within (g : Graph) (steps : Nat) (b : BlockId) : Prop :=
  0 < steps ∧ ∀ r, g.rank? b = some r → g.size < steps + r

theorem within_size (g : Graph) (b : BlockId) : g.Within (g.size + 1) b :=
  ⟨Nat.succ_pos _, fun r _ => by omega⟩

theorem Within.next {steps : Nat} (hle : ∀ b r, g.rank? b = some r → r ≤ g.size)
    (h : g.Within (steps + 1) a) (hlt : g.RankLt a b) : g.Within steps b := by
  obtain ⟨r, q, hr, hq, hrq⟩ := hlt
  have := hle b q hq
  have := h.2 r hr
  refine ⟨by omega, fun q' hq' => ?_⟩
  rw [hq] at hq'
  cases hq'
  omega

/-! ## Trees -/

/-- The entry is its own immediate dominator. That of any other block is a
block of the tree with a greater rank. -/
structure Tree (g : Graph) : Prop where
  entry : g.idom? g.entry = some g.entry
  up : ∀ b d, g.idom? b = some d → b ≠ g.entry → (g.idom? d).isSome ∧ g.RankLt b d
  rank_le : ∀ b r, g.rank? b = some r → r ≤ g.size

/-- Induction from the entry down. -/
theorem Tree.induct {P : BlockId → Prop} (h : Tree g) (entry : P g.entry)
    (up : ∀ b d, g.idom? b = some d → b ≠ g.entry → P d → P b) :
    ∀ b, (g.idom? b).isSome → P b := by
  apply RankLt.induct (P := fun b => (g.idom? b).isSome → P b) h.rank_le
  intro b ih hb
  by_cases he : b = g.entry
  · exact he ▸ entry
  · obtain ⟨d, hd⟩ := Option.isSome_iff_exists.1 hb
    obtain ⟨hs, hlt⟩ := h.up b d hd he
    exact up b d hd he (ih d hlt hs)

/-! ## The way to the root -/

/-- The blocks on the way from a block to the entry, both included. -/
inductive Line (g : Graph) : BlockId → List BlockId → Prop
  | entry : Line g g.entry [g.entry]
  | up {b d : BlockId} {l : List BlockId} :
      g.idom? b = some d → b ≠ g.entry → Line g d l → Line g b (b :: l)

namespace Line

theorem head?_eq (h : Line g b l) : l.head? = some b := by
  cases h <;> rfl

theorem getLast?_eq (h : Line g b l) : l.getLast? = some g.entry := by
  induction h with
  | entry => rfl
  | up _ _ h ih => rw [List.getLast?_cons_of_ne_nil (by cases h <;> simp), ih]

theorem isSome_of_mem (ht : Tree g) (h : Line g b l) (hx : x ∈ l) : (g.idom? x).isSome := by
  induction h with
  | entry =>
    rw [List.mem_singleton.1 hx, ht.entry]
    rfl
  | up hd _ _ ih =>
    rcases List.mem_cons.1 hx with rfl | hx
    · rw [hd]; rfl
    · exact ih hx

theorem pairwise (ht : Tree g) (h : Line g b l) : l.Pairwise g.RankLt := by
  induction h with
  | entry => simp
  | up hd he h ih => exact (ht.up _ _ hd he).2.pairwise_cons ih h.head?_eq

theorem rankLt_of_mem (ht : Tree g) (h : Line g b l) (hx : x ∈ l) : x = b ∨ g.RankLt b x :=
  rankLt_of_pairwise (h.pairwise ht) h.head?_eq hx

theorem length_le (ht : Tree g) (h : Line g b l) : l.length ≤ g.idoms.size := by
  have hn : l.Nodup := (h.pairwise ht).imp RankLt.ne
  have hs : l ⊆ g.idoms.keys := by
    intro x hx
    have := h.isSome_of_mem ht hx
    rw [Std.TreeMap.mem_keys]
    simpa [idom?] using this
  rw [← Std.TreeMap.length_keys]
  exact hn.length_le_of_subset hs

theorem chain_eq (ht : Tree g) (h : Line g b l) :
    ∀ (n : Nat) (below : Array BlockId), l.length ≤ n + 1 →
      (g.chain n b below).toList = below.toList ++ l := by
  induction h with
  | entry =>
    intro n below _
    cases n <;> simp [chain, ht.entry]
  | @up b d l hd he h ih =>
    intro n below hn
    have hl : l ≠ [] := by cases h <;> simp
    cases n with
    | zero => simp [hl] at hn
    | succ n =>
      rw [chain, hd]
      simp only [if_neg (ht.up b d hd he).2.ne.symm]
      rw [ih n (below.push b) (by simpa using hn)]
      simp

theorem dominators_eq (ht : Tree g) (h : Line g b l) : g.dominators b = l := by
  obtain ⟨d, hd⟩ : ∃ d, g.idom? b = some d := by
    cases h with
    | entry => exact ⟨_, ht.entry⟩
    | up hd => exact ⟨_, hd⟩
  have := h.chain_eq ht g.idoms.size #[] (by have := h.length_le ht; omega)
  simpa [dominators, hd] using this

end Line

theorem Tree.exists_line (ht : Tree g) : ∀ b, (g.idom? b).isSome → ∃ l, Line g b l :=
  ht.induct ⟨_, .entry⟩ fun _ _ hd he ⟨_, hl⟩ => ⟨_, .up hd he hl⟩

/-! ## Dominators -/

theorem dominators_of_none (h : g.idom? b = none) : g.dominators b = [] := by
  simp [dominators, h]

theorem Tree.line (ht : Tree g) (hb : (g.idom? b).isSome) : Line g b (g.dominators b) := by
  obtain ⟨l, hl⟩ := ht.exists_line b hb
  rw [hl.dominators_eq ht]
  exact hl

theorem Tree.isSome_of_mem (ht : Tree g) (h : a ∈ g.dominators b) :
    (g.idom? a).isSome ∧ (g.idom? b).isSome := by
  cases hb : g.idom? b with
  | none => simp [dominators_of_none hb] at h
  | some d =>
    have hs : (g.idom? b).isSome := by simp [hb]
    exact ⟨(ht.line hs).isSome_of_mem ht h, rfl⟩

theorem dominators_of_entry (ht : Tree g) : g.dominators g.entry = [g.entry] :=
  Line.entry.dominators_eq ht

theorem dominators_of_up (ht : Tree g) (hd : g.idom? b = some d) (hb : b ≠ g.entry) :
    g.dominators b = b :: g.dominators d :=
  (Line.up hd hb (ht.line (ht.up b d hd hb).1)).dominators_eq ht

theorem mem_dominators_self (ht : Tree g) (hb : (g.idom? b).isSome) : b ∈ g.dominators b :=
  List.mem_of_head? (ht.line hb).head?_eq

theorem entry_mem_dominators (ht : Tree g) (hb : (g.idom? b).isSome) : g.entry ∈ g.dominators b :=
  List.mem_of_getLast? (ht.line hb).getLast?_eq

theorem rankLt_of_mem_dominators (ht : Tree g) (h : a ∈ g.dominators b) : a = b ∨ g.RankLt b a :=
  (ht.line (ht.isSome_of_mem h).2).rankLt_of_mem ht h

theorem RankLt.trans_dominator (ht : Tree g) (h : g.RankLt a b) (hd : d ∈ g.dominators b) :
    g.RankLt a d := by
  rcases rankLt_of_mem_dominators ht hd with rfl | hbd
  · exact h
  · exact h.trans hbd

theorem dominators_trans (ht : Tree g) (hab : a ∈ g.dominators b) (hbc : b ∈ g.dominators c) :
    a ∈ g.dominators c := by
  have main : ∀ c, (g.idom? c).isSome → b ∈ g.dominators c → a ∈ g.dominators c := by
    refine ht.induct ?_ fun c d hd he ih hbc => ?_
    · intro hbc
      rw [dominators_of_entry ht, List.mem_singleton] at hbc
      rw [← hbc]
      exact hab
    · rw [dominators_of_up ht hd he] at hbc ⊢
      rcases List.mem_cons.1 hbc with rfl | hbc
      · rw [← dominators_of_up ht hd he]
        exact hab
      · exact List.mem_cons_of_mem _ (ih hbc)
  exact main c (ht.isSome_of_mem hbc).2 hbc

theorem dominators_antisymm (ht : Tree g) (hab : a ∈ g.dominators b) (hba : b ∈ g.dominators a) :
    a = b := by
  rcases rankLt_of_mem_dominators ht hab with rfl | hlt
  · rfl
  · rcases rankLt_of_mem_dominators ht hba with rfl | hlt'
    · rfl
    · exact absurd hlt' hlt.asymm

/-! ## Where two ways meet -/

theorem dominatedRank_eq_ok {r : Nat} (hb : (g.idom? b).isSome) (hr : g.rank? b = some r) :
    g.dominatedRank b = .ok r := by
  obtain ⟨d, hd⟩ := Option.isSome_iff_exists.1 hb
  simp [dominatedRank, hd, hr]

theorem stepUp_eq_ok (hd : g.idom? b = some d) (hne : d ≠ b) : g.stepUp b a = .ok d := by
  simp [stepUp, hd, hne]

theorem rankLt_entry (ht : Tree g) (hb : (g.idom? b).isSome) (he : b ≠ g.entry) :
    g.RankLt b g.entry :=
  (rankLt_of_mem_dominators ht (entry_mem_dominators ht hb)).resolve_left (Ne.symm he)

/-- A tree of two blocks or more has a rank for each. -/
theorem exists_rank_of_ne (ht : Tree g) (ha : (g.idom? a).isSome) (hb : (g.idom? b).isSome)
    (hab : a ≠ b) : ∃ r, g.rank? a = some r := by
  by_cases he : a = g.entry
  · obtain ⟨r, q, -, hq, -⟩ := rankLt_entry ht hb (he ▸ hab.symm)
    exact ⟨q, he ▸ hq⟩
  · obtain ⟨r, q, hr, -⟩ := rankLt_entry ht ha he
    exact ⟨r, hr⟩

/-- Of two blocks, one that does not rank above the other can step up. The
common dominators stay as they were, since it is none of them. -/
theorem exists_stepUp (ht : Tree g) (ha : (g.idom? a).isSome) (hb : (g.idom? b).isSome)
    (hab : a ≠ b) (hlt : ¬ g.RankLt b a) :
    ∃ d, g.stepUp a b = .ok d ∧ (g.idom? d).isSome ∧
      (g.dominators a).length = (g.dominators d).length + 1 ∧
      ∀ x, x ∈ g.dominators d ∧ x ∈ g.dominators b ↔ x ∈ g.dominators a ∧ x ∈ g.dominators b := by
  have he : a ≠ g.entry := by
    rintro rfl
    exact hlt (rankLt_entry ht hb (Ne.symm hab))
  obtain ⟨d, hd⟩ := Option.isSome_iff_exists.1 ha
  obtain ⟨hs, hup⟩ := ht.up a d hd he
  refine ⟨d, stepUp_eq_ok hd hup.ne.symm, hs, ?_, fun x => ?_⟩
  · rw [dominators_of_up ht hd he, List.length_cons]
  · rw [dominators_of_up ht hd he, List.mem_cons]
    constructor
    · rintro ⟨hx, hxb⟩
      exact ⟨.inr hx, hxb⟩
    · rintro ⟨rfl | hx, hxb⟩
      · exact absurd ((rankLt_of_mem_dominators ht hxb).resolve_left hab) hlt
      · exact ⟨hx, hxb⟩

theorem eq_entry_of_length_le (ht : Tree g) (hb : (g.idom? b).isSome)
    (h : (g.dominators b).length ≤ 1) : b = g.entry := by
  apply Decidable.byContradiction
  intro he
  obtain ⟨d, hd⟩ := Option.isSome_iff_exists.1 hb
  have hs := mem_dominators_self ht (ht.up b d hd he).1
  have hpos := List.length_pos_of_mem hs
  rw [dominators_of_up ht hd he, List.length_cons] at h
  omega

theorem exists_climb (ht : Tree g) :
    ∀ (budget : Nat) (a b : BlockId), (g.idom? a).isSome → (g.idom? b).isSome →
      (g.dominators a).length + (g.dominators b).length ≤ budget + 2 →
      ∃ c, g.climb budget a b = .ok c ∧
        ∀ x, x ∈ g.dominators c ↔ x ∈ g.dominators a ∧ x ∈ g.dominators b := by
  intro budget
  -- each step shortens one of the two ways by one
  induction budget with
  | zero =>
    intro a b ha hb hn
    have hpa := List.length_pos_of_mem (mem_dominators_self ht ha)
    have hpb := List.length_pos_of_mem (mem_dominators_self ht hb)
    have hab : a = b := by
      rw [eq_entry_of_length_le ht ha (by omega), eq_entry_of_length_le ht hb (by omega)]
    subst hab
    exact ⟨a, by simp [climb], by simp⟩
  | succ budget ih =>
    intro a b ha hb hn
    by_cases hab : a = b
    · subst hab
      exact ⟨a, by simp [climb], by simp⟩
    obtain ⟨r, hr⟩ := exists_rank_of_ne ht ha hb hab
    obtain ⟨q, hq⟩ := exists_rank_of_ne ht hb ha (Ne.symm hab)
    have hiff := rankLt_iff hr hq
    rw [climb, if_neg hab, dominatedRank_eq_ok ha hr, dominatedRank_eq_ok hb hq]
    by_cases hlt : r < q
    · obtain ⟨d, hd, hs, hlen, hcom⟩ := exists_stepUp ht ha hb hab (hiff.2 hlt).asymm
      obtain ⟨c, hc, hm⟩ := ih d b hs hb (by omega)
      refine ⟨c, ?_, fun x => (hm x).trans (hcom x)⟩
      simp only [bind, Except.bind, if_pos hlt, hd]
      exact hc
    · obtain ⟨d, hd, hs, hlen, hcom⟩ := exists_stepUp ht hb ha (Ne.symm hab) (mt hiff.1 hlt)
      obtain ⟨c, hc, hm⟩ := ih a d ha hs (by omega)
      refine ⟨c, ?_, fun x => ?_⟩
      · simp only [bind, Except.bind, if_neg hlt, hd]
        exact hc
      · rw [hm x, and_comm, hcom x, and_comm]

/-- The blocks that dominate both of two blocks are the dominators of one. -/
theorem exists_commonDominator (ht : Tree g) (ha : (g.idom? a).isSome) (hb : (g.idom? b).isSome) :
    ∃ c, g.commonDominator a b = .ok c ∧
      ∀ x, x ∈ g.dominators c ↔ x ∈ g.dominators a ∧ x ∈ g.dominators b := by
  have := (ht.line ha).length_le ht
  have := (ht.line hb).length_le ht
  exact exists_climb ht _ a b ha hb (by omega)

/-- The same for a list of blocks. -/
theorem exists_foldlM_commonDominator (ht : Tree g) (l : List BlockId) :
    ∀ a, (g.idom? a).isSome → (∀ p ∈ l, (g.idom? p).isSome) →
      ∃ c, l.foldlM g.commonDominator a = .ok c ∧
        ∀ x, x ∈ g.dominators c ↔ x ∈ g.dominators a ∧ ∀ p ∈ l, x ∈ g.dominators p := by
  induction l with
  | nil => exact fun a _ _ => ⟨a, rfl, by simp⟩
  | cons p l ih =>
    intro a ha hl
    obtain ⟨c, hc, hm⟩ := exists_commonDominator ht ha (hl p List.mem_cons_self)
    have hs : (g.idom? c).isSome :=
      (ht.isSome_of_mem ((hm g.entry).2
        ⟨entry_mem_dominators ht ha, entry_mem_dominators ht (hl p List.mem_cons_self)⟩)).2
    obtain ⟨c', hc', hm'⟩ := ih c hs fun p' hp => hl p' (List.mem_cons_of_mem _ hp)
    refine ⟨c', ?_, fun x => ?_⟩
    · simp only [List.foldlM_cons, hc, bind, Except.bind]
      exact hc'
    · rw [hm', hm, List.forall_mem_cons, and_assoc]

end FlowGraph.Graph
