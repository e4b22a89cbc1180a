import FlowGraph.Placement
import FlowGraph.Proofs.Dominance
/-!
# Placements over whole runs

A run makes calls on a new placement (`Call`, `after`). Adding a use never
fails, since the placement always holds a reachable block. What it holds
dominates all reachable uses (`Covers`), and every block that does dominates it
as long as it is not lifted (`Tight`). That leaves nothing for the order of the
uses to decide (`point_unique`).
-/

namespace FlowGraph.Placement

variable {src : Source} {opts : Options} {g : Graph} {p q : Placement} {b d : BlockId}
  {uses : List BlockId}

/-! ## Runs -/

/-- A call on a placement. Each lift sees the blocks in its own way. -/
inductive Call where
  | add (block : BlockId)
  | addAll (blocks : List BlockId)
  | lift (view : View)

namespace Call

/-- The blocks that a call adds. -/
def added : Call → List BlockId
  | add block => [block]
  | addAll blocks => blocks
  | lift _ => []

/-- Whether the call may move the placement to the entry. -/
def isLift : Call → Bool
  | lift _ => true
  | _ => false

end Call

/-- What a call makes of a placement, and the error it reports. -/
def call (g : Graph) (p : Placement) : Call → Placement × Option Error
  | .add block => match p.add g block with
    | .ok q => (q, none)
    | .error e => (p, some e)
  | .addAll blocks => p.addAll g blocks
  | .lift view => match (p.lift g view).value with
    | .ok q => (q, none)
    | .error e => (p, some e)

/-- What is left of a placement after some calls. -/
def after (g : Graph) (p : Placement) : List Call → Placement
  | [] => p
  | c :: calls => (p.call g c).1.after g calls

/-- The blocks that some calls add. -/
def usesOf (calls : List Call) : List BlockId := calls.flatMap Call.added

/-! ## One use -/

/-- What a placement holds dominates every reachable use. -/
structure Covers (g : Graph) (p : Placement) (uses : List BlockId) : Prop where
  point_eq_none_iff : p.point = none ↔ ∀ b ∈ uses, ¬ g.isReachable b
  dominates : ∀ d, p.point = some d → ∀ b ∈ uses, g.isReachable b → g.dominates d b

/-- What dominates every reachable use dominates what a placement holds. -/
def Tight (g : Graph) (p : Placement) (uses : List BlockId) : Prop :=
  ∀ d, p.point = some d → ∀ a, (∀ b ∈ uses, g.isReachable b → g.dominates a b) → g.dominates a d

theorem covers_new : Covers g {} [] := ⟨by simp, by simp⟩

theorem tight_new : Tight g {} [] := fun _ hd => by cases hd

theorem Covers.isReachable (hl : g.Lawful) (h : Covers g p uses) (hd : p.point = some d) :
    g.isReachable d := by
  have hn : ¬ ∀ b ∈ uses, ¬ g.isReachable b := by rw [← h.point_eq_none_iff, hd]; simp
  simp only [Classical.not_forall, Classical.not_not] at hn
  obtain ⟨b, hb, hr⟩ := hn
  exact (hl.isReachable_of_dominates (h.dominates d hd b hb hr)).1

/-- What adding `b` to `p` makes of it: nothing if `b` is unreachable, and else
the nearest block that dominates both `b` and what `p` holds. -/
structure Adds (g : Graph) (p : Placement) (b : BlockId) (q : Placement) : Prop where
  of_unreachable : ¬ g.isReachable b → q = p
  of_reachable : g.isReachable b → ∃ d, q.point = some d ∧ g.isReachable d ∧
    ∀ a, g.dominates a d ↔ g.dominates a b ∧ ∀ c, p.point = some c → g.dominates a c

theorem exists_add (hl : g.Lawful) (hp : ∀ d, p.point = some d → g.isReachable d) (b : BlockId) :
    ∃ q, p.add g b = .ok q ∧ Adds g p b q := by
  cases hb : g.idom? b with
  | none =>
    have hn : ¬ g.isReachable b := by rw [← hl.isSome_iff, hb]; simp
    exact ⟨p, by simp [add, hb], fun _ => rfl, fun h => absurd h hn⟩
  | some d =>
    have hr : g.isReachable b := (hl.isSome_iff b).1 (by rw [hb]; rfl)
    cases hc : p.point with
    | none =>
      exact ⟨⟨some b⟩, by simp [add, hb, hc], fun h => absurd hr h,
        fun _ => ⟨b, rfl, hr, by simp [hc]⟩⟩
    | some c =>
      by_cases hcb : c = b
      · subst hcb
        exact ⟨p, by simp [add, hb, hc], fun _ => rfl, fun _ => ⟨c, hc, hr, by simp [hc]⟩⟩
      · obtain ⟨m, hm, hmr, hiff⟩ := hl.exists_meet hr (hp c hc)
        refine ⟨⟨some m⟩, ?_, fun h => absurd hr h, fun _ => ⟨m, rfl, hmr, fun a => ?_⟩⟩
        · simp [add, hb, hc, hcb, hm, Except.map]
        · simpa [hc] using hiff a

theorem Adds.covers (hl : g.Lawful) (ha : Adds g p b q) (h : Covers g p uses) :
    Covers g q (uses ++ [b]) := by
  by_cases hb : g.isReachable b
  · obtain ⟨d, hd, hdr, hiff⟩ := ha.of_reachable hb
    obtain ⟨hdb, hdp⟩ := (hiff d).1 (hl.dominates_self hdr)
    refine ⟨?_, fun d' hd' x hx hxr => ?_⟩
    · rw [hd]
      simp [hb]
    · rw [hd] at hd'
      cases hd'
      rcases List.mem_append.1 hx with hx | hx
      · have hn : p.point ≠ none := fun hn => (h.point_eq_none_iff.1 hn) x hx hxr
        obtain ⟨c, hc⟩ := Option.ne_none_iff_exists'.1 hn
        exact hl.dominates_trans (hdp c hc) (h.dominates c hc x hx hxr)
      · rw [List.mem_singleton.1 hx]
        exact hdb
  · rw [ha.of_unreachable hb]
    refine ⟨?_, fun d hd x hx hxr => ?_⟩
    · rw [h.point_eq_none_iff, List.forall_mem_append, List.forall_mem_singleton]
      exact (and_iff_left hb).symm
    · rcases List.mem_append.1 hx with hx | hx
      · exact h.dominates d hd x hx hxr
      · rw [List.mem_singleton.1 hx] at hxr
        exact absurd hxr hb

theorem Adds.tight (ha : Adds g p b q) (h : Tight g p uses) : Tight g q (uses ++ [b]) := by
  intro d' hd' a hall
  have hold : ∀ x ∈ uses, g.isReachable x → g.dominates a x :=
    fun x hx => hall x (List.mem_append_left _ hx)
  by_cases hb : g.isReachable b
  · obtain ⟨d, hd, -, hiff⟩ := ha.of_reachable hb
    rw [hd] at hd'
    cases hd'
    exact (hiff a).2 ⟨hall b (by simp) hb, fun c hc => h c hc a hold⟩
  · rw [ha.of_unreachable hb] at hd'
    exact h d' hd' a hold

/-- Two placements with the same reachable uses hold the same block. -/
theorem point_unique {uses' : List BlockId} (hl : g.Lawful) (hp : Covers g p uses) (hp' : Tight g p uses)
    (hq : Covers g q uses') (hq' : Tight g q uses')
    (h : ∀ b, g.isReachable b → (b ∈ uses ↔ b ∈ uses')) : p = q := by
  obtain ⟨o⟩ := p
  obtain ⟨o'⟩ := q
  have hnone : o = none ↔ o' = none := by
    rw [hp.point_eq_none_iff, hq.point_eq_none_iff]
    exact ⟨fun hn b hb hr => hn b ((h b hr).2 hb) hr, fun hn b hb hr => hn b ((h b hr).1 hb) hr⟩
  match o, o' with
  | none, none => rfl
  | none, some d => exact absurd (hnone.1 rfl) (by simp)
  | some d, none => exact absurd (hnone.2 rfl) (by simp)
  | some d, some d' =>
    have hdd' : g.dominates d d' :=
      hq' d' rfl d fun b hb hr => hp.dominates d rfl b ((h b hr).2 hb) hr
    have hd'd : g.dominates d' d :=
      hp' d rfl d' fun b hb hr => hq.dominates d' rfl b ((h b hr).1 hb) hr
    rw [hl.dominates_antisymm hdd' hd'd]

/-! ## One call -/

theorem exists_addAll (hl : g.Lawful) (blocks : List BlockId) :
    ∀ (p : Placement) (uses : List BlockId), Covers g p uses →
      ∃ q, p.addAll g blocks = (q, none) ∧ Covers g q (uses ++ blocks) ∧
        (Tight g p uses → Tight g q (uses ++ blocks)) := by
  induction blocks with
  | nil => exact fun p uses h => ⟨p, rfl, by simpa using h, by simp⟩
  | cons b blocks ih =>
    intro p uses h
    obtain ⟨q, hq, ha⟩ := exists_add hl (fun d hd => h.isReachable hl hd) b
    obtain ⟨q', hq', hc, ht⟩ := ih q (uses ++ [b]) (ha.covers hl h)
    refine ⟨q', by rw [addAll, hq]; exact hq', by simpa using hc, fun h' => ?_⟩
    simpa using ht (ha.tight h')

/-- A lift that succeeds keeps the placement or moves it to the entry. -/
theorem lift_eq_ok {view : View} (h : (p.lift g view).value = .ok q) :
    q = p ∨ p.point ≠ none ∧ q = ⟨some g.entry⟩ := by
  unfold lift at h
  split at h
  · cases h
    exact .inl rfl
  · next d hd =>
    split at h
    · cases h
    · cases h
      exact .inl rfl
    · cases h
      exact .inr ⟨by rw [hd]; simp, rfl⟩

theorem Covers.entry (hl : g.Lawful) (h : Covers g p uses) (hp : p.point ≠ none) :
    Covers g ⟨some g.entry⟩ uses := by
  refine ⟨?_, fun d hd b _ hr => ?_⟩
  · rw [← h.point_eq_none_iff]
    simp [hp]
  · cases hd
    exact hl.entry_dominates hr

/-- What one call does to a placement that covers its uses. -/
theorem call_covers (hl : g.Lawful) (h : Covers g p uses) (c : Call) :
    Covers g (p.call g c).1 (uses ++ c.added) ∧
      (c.isLift = false → (p.call g c).2 = none ∧
        (Tight g p uses → Tight g (p.call g c).1 (uses ++ c.added))) ∧
      ((p.call g c).2 ≠ none → (p.call g c).1 = p) := by
  cases c with
  | add b =>
    obtain ⟨q, hq, ha⟩ := exists_add hl (fun d hd => h.isReachable hl hd) b
    simp only [call, hq]
    exact ⟨ha.covers hl h, fun _ => ⟨trivial, ha.tight⟩, by simp⟩
  | addAll blocks =>
    obtain ⟨q, hq, hc, ht⟩ := exists_addAll hl blocks p uses h
    simp only [call, hq]
    exact ⟨hc, fun _ => ⟨trivial, ht⟩, by simp⟩
  | lift view =>
    simp only [call, Call.added, Call.isLift, List.append_nil]
    cases hv : (p.lift g view).value with
    | error e => exact ⟨h, by simp, by simp⟩
    | ok q =>
      refine ⟨?_, by simp, by simp⟩
      rcases lift_eq_ok hv with rfl | ⟨hn, rfl⟩
      · exact h
      · exact h.entry hl hn

/-! ## Whole runs -/

theorem after_covers (hl : g.Lawful) (calls : List Call) :
    ∀ (p : Placement) (uses : List BlockId), Covers g p uses →
      Covers g (p.after g calls) (uses ++ usesOf calls) := by
  induction calls with
  | nil => exact fun p uses h => by simpa [after, usesOf] using h
  | cons c calls ih =>
    intro p uses h
    have hc := ih _ _ (call_covers hl h c).1
    rwa [List.append_assoc] at hc

theorem after_tight (hl : g.Lawful) (calls : List Call) (hn : ∀ c ∈ calls, c.isLift = false) :
    ∀ (p : Placement) (uses : List BlockId), Covers g p uses → Tight g p uses →
      Tight g (p.after g calls) (uses ++ usesOf calls) := by
  induction calls with
  | nil => exact fun p uses _ h => by simpa [after, usesOf] using h
  | cons c calls ih =>
    intro p uses h ht
    rw [List.forall_mem_cons] at hn
    obtain ⟨hc, hadd, -⟩ := call_covers hl h c
    have ht' := ih hn.2 _ _ hc ((hadd hn.1).2 ht)
    rwa [List.append_assoc] at ht'

/-- The contract of a placement. Whatever calls were made on a new one, adding
uses succeeds and a call that fails changes nothing. The placement holds a
block as soon as a reachable one was added, and that block dominates all
reachable uses. Without a lift it is the nearest such block, the same for every
run that adds the same reachable blocks. -/
theorem point_after (hs : src.Consistent) (h : (Graph.build src opts).value = .ok g)
    (calls : List Call) :
    (∀ c : Call, (c.isLift = false → (call g (after g {} calls) c).2 = none) ∧
      ((call g (after g {} calls) c).2 ≠ none →
        (call g (after g {} calls) c).1 = after g {} calls)) ∧
    ((after g {} calls).point = none ↔ ∀ b ∈ usesOf calls, ¬ g.isReachable b) ∧
    (∀ d, (after g {} calls).point = some d →
      ∀ b ∈ usesOf calls, g.isReachable b → g.dominates d b) ∧
    ((∀ c ∈ calls, c.isLift = false) →
      (∀ d, (after g {} calls).point = some d →
        ∀ a, (∀ b ∈ usesOf calls, g.isReachable b → g.dominates a b) → g.dominates a d) ∧
      ∀ calls' : List Call, (∀ c ∈ calls', c.isLift = false) →
        (∀ b, g.isReachable b → (b ∈ usesOf calls ↔ b ∈ usesOf calls')) →
          after g {} calls = after g {} calls') := by
  obtain ⟨hl, -, -⟩ := Graph.lawful_of_build hs h
  have hcov : ∀ calls, Covers g (after g {} calls) (usesOf calls) :=
    fun calls => after_covers hl calls {} [] covers_new
  have htight : ∀ calls, (∀ c ∈ calls, c.isLift = false) → Tight g (after g {} calls) (usesOf calls) :=
    fun calls hn => after_tight hl calls hn {} [] covers_new tight_new
  refine ⟨fun c => ?_, (hcov calls).point_eq_none_iff, (hcov calls).dominates, fun hn => ?_⟩
  · obtain ⟨-, hadd, hfail⟩ := call_covers hl (hcov calls) c
    exact ⟨fun hc => (hadd hc).1, hfail⟩
  · refine ⟨htight calls hn, fun calls' hn' hsame => ?_⟩
    exact point_unique hl (hcov calls) (htight calls hn) (hcov calls') (htight calls' hn') hsame

theorem point_after_loopInLoop : Graph.loopInLoop.source.Consistent ∧
    ∃ g, (Graph.build Graph.loopInLoop.source).value = .ok g ∧
      after g {} [.addAll [⟨5⟩, ⟨9⟩], .add ⟨7⟩] = ⟨some ⟨4⟩⟩ ∧
      after g {} [.addAll [⟨7⟩, ⟨5⟩, ⟨7⟩]] = ⟨some ⟨4⟩⟩ := by
  obtain ⟨g, hg, hd⟩ : ∃ g, (Graph.build Graph.loopInLoop.source).value = .ok g ∧
      (after g {} [.addAll [⟨5⟩, ⟨9⟩], .add ⟨7⟩], g.isReachable ⟨9⟩) = (⟨some ⟨4⟩⟩, false) :=
    Graph.exists_of_map_build (by cbv)
  obtain ⟨hd, hr⟩ := Prod.mk.inj hd
  obtain ⟨-, -, -, hnear⟩ := point_after Graph.loopInLoop.consistent_source hg
    [.addAll [⟨5⟩, ⟨9⟩], .add ⟨7⟩]
  obtain ⟨-, hsame⟩ := hnear (by simp [Call.isLift])
  refine ⟨Graph.loopInLoop.consistent_source, g, hg, hd, ?_⟩
  rw [← hd]
  refine (hsame _ (by simp [Call.isLift]) fun b hb => ?_).symm
  have h9 : b ≠ ⟨9⟩ := by
    rintro rfl
    simp [hr] at hb
  simpa [usesOf, Call.added, h9] using .inr

end FlowGraph.Placement
