import FlowGraph.Graph.Dot
import FlowGraph.Proofs.Dominance
import FlowGraph.Proofs.Dot.Document
import FlowGraph.Proofs.Edges
/-!
# Texts of graphs

Nodes have plain names and edges plain attributes, so the text of a graph shows
its statements. Each of them tells which part of the graph it is about (`part?`),
and of two graphs with the same text every part is the same (`agree_of_toDot`).
-/

namespace FlowGraph

open Dot

/-! ## Lists -/

theorem map_eq_map_of_inj {α β : Type} {f f' : α → β} (hinj : ∀ a a', f a = f' a' → a = a')
    {l l' : List α} (h : l.map f = l'.map f') : l = l' ∧ ∀ a ∈ l, f a = f' a := by
  induction l generalizing l' with
  | nil =>
    rw [List.map_nil, eq_comm, List.map_eq_nil_iff] at h
    exact ⟨h.symm, by simp⟩
  | cons a l ih =>
    cases l' with
    | nil => cases h
    | cons a' l' =>
      obtain ⟨hfirst, hrest⟩ := List.cons.inj h
      obtain rfl := hinj a a' hfirst
      obtain ⟨rfl, hmem⟩ := ih hrest
      exact ⟨rfl, List.forall_mem_cons.2 ⟨hfirst, hmem⟩⟩

/-- A list that is made piece by piece shows the pieces, if each element tells
which piece it belongs to. -/
theorem flatMap_inj_of_tells {α β : Type} {f f' : α → List β} {Tells : β → α → Prop}
    (hf : ∀ a, ∀ x ∈ f a, Tells x a) (hf' : ∀ a, ∀ x ∈ f' a, Tells x a)
    (hone : ∀ x a a', Tells x a → Tells x a' → a = a') {l : List α} (hl : l.Nodup)
    (h : l.flatMap f = l.flatMap f') : ∀ a ∈ l, f a = f' a := by
  classical
  induction l with
  | nil => simp
  | cons a l ih =>
    obtain ⟨ha, hl⟩ := List.nodup_cons.1 hl
    have hpiece : ∀ {f : α → List β}, (∀ a, ∀ x ∈ f a, Tells x a) →
        ((a :: l).flatMap f).filter (Tells · a) = f a := by
      intro f hf
      have hfirst : (f a).filter (Tells · a) = f a := List.filter_eq_self.2 (by simpa using hf a)
      have hrest : (l.flatMap f).filter (Tells · a) = [] := by
        refine List.filter_eq_nil_iff.2 fun x hx => ?_
        obtain ⟨b, hb, hx⟩ := List.mem_flatMap.1 hx
        rw [decide_eq_true_eq]
        exact fun hax => ha (hone x a b hax (hf b x hx) ▸ hb)
      rw [List.flatMap_cons, List.filter_append, hfirst, hrest, List.append_nil]
    have hfirst : f a = f' a := by rw [← hpiece hf, h, hpiece hf']
    rw [List.flatMap_cons, List.flatMap_cons, hfirst] at h
    exact List.forall_mem_cons.2 ⟨hfirst, ih hl (List.append_cancel_left h)⟩

namespace Graph

variable {g g' : Graph} {view view' : View} {title : Option String} {dominators : Bool} {b : BlockId}

/-! ## Names and labels -/

theorem isAlphanum_of_mem_digits {n : Nat} {c : Char} (h : c ∈ (toString n).toList) :
    c.isAlphanum = true := by
  rw [Nat.toString_eq_repr, Nat.toList_repr] at h
  have hdigit := Nat.isDigit_of_mem_toDigits (by decide) (by decide) h
  simp [Char.isAlphanum, hdigit]

theorem digits_inj {n m : Nat} (h : toString n = toString m) : n = m := by
  rw [Nat.toString_eq_repr, Nat.toString_eq_repr, ← String.toList_inj, Nat.toList_repr,
    Nat.toList_repr] at h
  have hread := congrArg (fun digits => Nat.ofDigitChars 10 digits 0) h
  simpa using hread

theorem nodeName_inj {a b : BlockId} (h : nodeName a = nodeName b) : a = b :=
  BlockId.toNat_raw_injective (digits_inj ((String.append_right_inj "B").1 h))

theorem toList_nodeName (b : BlockId) :
    (nodeName b).toList = 'B' :: (toString b.raw.toNat).toList := by
  have hletter : "B".toList = ['B'] := rfl
  rw [nodeName, String.toList_append, hletter, List.singleton_append]

theorem plain_nodeName (b : BlockId) : Plain (nodeName b) := by
  rw [Plain, toList_nodeName, List.forall_mem_cons]
  exact ⟨by decide, fun c hc => isAlphanum_of_mem_digits hc⟩

/-- Every kind of terminator that a label can show. -/
def terminatorKinds : List String :=
  ["direct", "select", "multi_select", "return", "unreachable", "kill"]

/-- Every kind of merge, of which a label shows the last two. -/
def mergeKinds : List String := ["none", "loop", "selection"]

theorem kindName_mem_terminatorKinds (t : Terminator) : t.kindName ∈ terminatorKinds := by
  cases t <;> simp [Terminator.kindName, terminatorKinds]

theorem kindName_mem_mergeKinds (m : Merge) : m.kindName ∈ mergeKinds := by
  cases m <;> simp [Merge.kindName, mergeKinds]

/-- What stands after the kind of the terminator for a kind of merge. -/
def mergeText (kind : String) : String := if kind = "none" then "" else " (" ++ kind ++ ")"

theorem kindText_eq (block : Block) :
    kindText block = block.terminator.kindName ++ mergeText block.merge.kindName := by
  obtain ⟨terminator, merge⟩ := block
  cases merge <;> simp [kindText, mergeText, Merge.kindName, String.append_assoc]

/-- The kind of the terminator goes to the first space. -/
theorem kindText_inj {block block' : Block} (h : kindText block = kindText block') :
    block.terminator.kindName = block'.terminator.kindName ∧
    block.merge.kindName = block'.merge.kindName := by
  have hword : ∀ kind ∈ terminatorKinds, kind.toList.all (· ≠ ' ') = true := by decide
  have hend : ∀ kind ∈ mergeKinds,
      (mergeText kind).toList.takeWhile (· ≠ ' ') = [] := by decide
  have hmerge : ∀ kind ∈ mergeKinds, ∀ kind' ∈ mergeKinds,
      mergeText kind = mergeText kind' → kind = kind' := by decide
  have htake : ∀ block : Block,
      (kindText block).toList.takeWhile (· ≠ ' ') = block.terminator.kindName.toList := by
    intro block
    rw [kindText_eq, String.toList_append,
      List.takeWhile_append_of_pos (List.all_eq_true.1 (hword _ (kindName_mem_terminatorKinds _))),
      hend _ (kindName_mem_mergeKinds _), List.append_nil]
  have hname : block.terminator.kindName = block'.terminator.kindName := by
    rw [← String.toList_inj, ← htake, h, htake]
  rw [kindText_eq, kindText_eq, hname, String.append_right_inj] at h
  exact ⟨hname, hmerge _ (kindName_mem_mergeKinds _) _ (kindName_mem_mergeKinds _) h⟩

theorem not_mem_kindText (block : Block) : '\r' ∉ (kindText block).toList := by
  have hname : ∀ kind ∈ terminatorKinds, '\r' ∉ kind.toList := by decide
  have hmerge : ∀ kind ∈ mergeKinds, '\r' ∉ (mergeText kind).toList := by decide
  rw [kindText_eq, String.toList_append, List.mem_append, not_or]
  exact ⟨hname _ (kindName_mem_terminatorKinds _), hmerge _ (kindName_mem_mergeKinds _)⟩

theorem not_mem_label : '\r' ∉ (g.label view b).toList := by
  have hdigits : ∀ n : Nat, '\r' ∉ (toString n).toList :=
    fun n h => absurd (isAlphanum_of_mem_digits h) (by decide)
  have hmark : '\r' ∉ "%".toList ∧ '\r' ∉ " #".toList ∧ '\r' ∉ "\n".toList := by decide
  have hname : '\r' ∉ (toString b).toList := by
    show '\r' ∉ ("%" ++ toString b.raw.toNat).toList
    rw [String.toList_append, List.mem_append, not_or]
    exact ⟨hmark.1, hdigits _⟩
  unfold label
  split <;> simp only [String.toList_append, List.mem_append, not_or]
  · exact ⟨⟨⟨hname, hmark.2.1⟩, hdigits _⟩, List.not_mem_nil⟩
  · exact ⟨⟨⟨hname, hmark.2.1⟩, hdigits _⟩, hmark.2.2, not_mem_kindText _⟩

theorem label_of_some {block : Block} (h : view b = some block) :
    g.label view b = toString b ++ " #" ++ toString ((g.rank? b).getD 0) ++ ("\n" ++ kindText block) := by
  rw [label, h]

/-! ## Statements -/

theorem edgeStatement_inj {e e' : Edge} {attrs attrs' : List Attribute}
    (h : edgeStatement e attrs = edgeStatement e' attrs') : e = e' ∧ attrs = attrs' := by
  obtain ⟨source, target⟩ := e
  obtain ⟨source', target'⟩ := e'
  obtain ⟨hs, ht, ha⟩ := Statement.edge.inj h
  obtain rfl := nodeName_inj hs
  obtain rfl := nodeName_inj ht
  exact ⟨rfl, ha⟩

theorem idomStatement?_eq_some {s : Statement} (h : g.idomStatement? b = some s) :
    ∃ d, g.idom? b = some d ∧ d ≠ b ∧
      s = edgeStatement ⟨d, b⟩ [⟨"color", "blue"⟩, ⟨"constraint", "false"⟩] := by
  unfold idomStatement? at h
  split at h
  · cases h
  · next d hd =>
    split at h
    · cases h
    · next hne => exact ⟨d, hd, hne, (Option.some.inj h).symm⟩

theorem mem_toDocument {s : Statement} (h : s ∈ (g.toDocument view title dominators).statements) :
    (∃ b, s = g.nodeStatement view b) ∨ s = .blank ∨
      ∃ e attrs, (∀ a ∈ attrs, a.Plain) ∧ s = edgeStatement e attrs := by
  have hdashed : ∀ a ∈ [(⟨"style", "dashed"⟩ : Attribute)], a.Plain := by decide
  have hdotted : ∀ a ∈ [(⟨"style", "dotted"⟩ : Attribute)], a.Plain := by decide
  have hblue : ∀ a ∈ [(⟨"color", "blue"⟩ : Attribute), ⟨"constraint", "false"⟩], a.Plain := by decide
  simp only [toDocument, List.mem_append, List.mem_map, List.mem_flatMap, List.mem_singleton] at h
  rcases h with (((⟨b, -, rfl⟩ | rfl) | ⟨b, -, h⟩) | ⟨e, -, rfl⟩) | h
  · exact .inl ⟨b, rfl⟩
  · exact .inr (.inl rfl)
  · obtain ⟨target, -, rfl⟩ := List.mem_map.1 h
    refine .inr (.inr ⟨_, _, ?_, rfl⟩)
    split
    · exact hdashed
    · exact List.forall_mem_nil _
  · exact .inr (.inr ⟨e, _, hdotted, rfl⟩)
  · split at h
    · rcases List.mem_cons.1 h with rfl | h
      · exact .inr (.inl rfl)
      · obtain ⟨b, -, hb⟩ := List.mem_filterMap.1 h
        obtain ⟨d, -, -, rfl⟩ := idomStatement?_eq_some hb
        exact .inr (.inr ⟨_, _, hblue, rfl⟩)
    · cases h

theorem plain_toDocument : (g.toDocument view title dominators).Plain := by
  have hname : Plain "CFG" := by decide
  have hentry : ∀ a ∈ [(⟨"style", "filled"⟩ : Attribute), ⟨"fillcolor", "lightgreen"⟩], a.Plain := by
    decide
  refine ⟨hname, fun s hs => ?_⟩
  rcases mem_toDocument hs with ⟨b, rfl⟩ | rfl | ⟨e, attrs, hattrs, rfl⟩
  · refine ⟨plain_nodeName b, not_mem_label, ?_⟩
    split
    · exact hentry
    · exact List.forall_mem_nil _
  · trivial
  · exact ⟨plain_nodeName _, plain_nodeName _, hattrs⟩

/-! ## Parts -/

/-- What a statement can be about. -/
inductive Part where
  | node
  | recorded
  | back
  | dominator
deriving DecidableEq

/-- The part of the graph that a statement is about. Edges tell it by their
attributes. -/
def part? : Statement → Option Part
  | .node .. => some .node
  | .edge _ _ attrs => some <| match attrs with
    | [⟨"style", "dotted"⟩] => .back
    | ⟨"color", _⟩ :: _ => .dominator
    | _ => .recorded
  | .blank => none

/-- The statements of a graph about one part. -/
def statementsOf (g : Graph) (view : View) (dominators : Bool) : Part → List Statement
  | .node => g.reversePostOrder.map (g.nodeStatement view)
  | .recorded => g.reversePostOrder.flatMap g.edgeStatements
  | .back => g.backEdges.map backEdgeStatement
  | .dominator => if dominators then g.reversePostOrder.filterMap g.idomStatement? else []

theorem part?_of_mem_statementsOf {p : Part} {s : Statement}
    (h : s ∈ g.statementsOf view dominators p) : part? s = some p := by
  match p with
  | .node =>
    obtain ⟨b, -, rfl⟩ := List.mem_map.1 h
    rfl
  | .recorded =>
    obtain ⟨b, -, h⟩ := List.mem_flatMap.1 h
    obtain ⟨target, -, rfl⟩ := List.mem_map.1 h
    split <;> rfl
  | .back =>
    obtain ⟨e, -, rfl⟩ := List.mem_map.1 h
    rfl
  | .dominator =>
    rw [statementsOf] at h
    split at h
    · obtain ⟨b, -, hb⟩ := List.mem_filterMap.1 h
      obtain ⟨d, -, -, rfl⟩ := idomStatement?_eq_some hb
      rfl
    · cases h

/-- The statements about all parts, without the blank lines. -/
def allStatements (g : Graph) (view : View) (dominators : Bool) : List Statement :=
  g.statementsOf view dominators .node ++ g.statementsOf view dominators .recorded ++
    g.statementsOf view dominators .back ++ g.statementsOf view dominators .dominator

theorem filter_toDocument {P : Statement → Bool} (hP : P .blank = false) :
    (g.toDocument view title dominators).statements.filter P =
      (g.allStatements view dominators).filter P := by
  have hblank : ∀ l, (Statement.blank :: l).filter P = l.filter P :=
    fun l => List.filter_cons_of_neg (by simp [hP])
  cases dominators <;>
    simp [toDocument, allStatements, statementsOf, List.filter_append, hblank]

theorem filter_isSome_toDocument :
    (g.toDocument view title dominators).statements.filter (part? · |>.isSome) =
      g.allStatements view dominators := by
  rw [filter_toDocument rfl, List.filter_eq_self]
  intro s hs
  simp only [allStatements, List.mem_append] at hs
  rcases hs with ((hs | hs) | hs) | hs <;> rw [part?_of_mem_statementsOf hs] <;> rfl

/-- The parts can be told apart. -/
theorem filter_part?_toDocument (g : Graph) (view : View) (title : Option String) (dominators : Bool)
    (p : Part) : (g.toDocument view title dominators).statements.filter (part? · = some p) =
      g.statementsOf view dominators p := by
  have hpart : ∀ q, (g.statementsOf view dominators q).filter (part? · = some p) =
      if q = p then g.statementsOf view dominators q else [] := by
    intro q
    split
    · next h => exact List.filter_eq_self.2 fun s hs => by simp [part?_of_mem_statementsOf hs, h]
    · next h => exact List.filter_eq_nil_iff.2 fun s hs => by simp [part?_of_mem_statementsOf hs, h]
  rw [filter_toDocument rfl]
  simp only [allStatements, List.filter_append, hpart]
  cases p <;> simp

/-! ## Lines -/

/-- The lines of a text that begin like those of nodes and edges. -/
def statementLines (text : String) : List (List Char) :=
  (text.toList.splitOn '\n').filter ("    B".toList.isPrefixOf ·)

theorem isPrefixOf_content {s : Statement} (h : s ∈ (g.toDocument view title dominators).statements) :
    "    B".toList.isPrefixOf s.content = (part? s).isSome := by
  rcases mem_toDocument h with ⟨b, rfl⟩ | rfl | ⟨e, attrs, -, rfl⟩
  · rw [nodeStatement, Statement.content, toList_nodeName]
    rfl
  · rfl
  · rw [edgeStatement, Statement.content, toList_nodeName]
    rfl

/-- No line of the heading begins like one of a node or an edge. -/
theorem statementLines_toDot : statementLines (g.toDot view title dominators) =
    (g.allStatements view dominators).map Statement.content := by
  have hhead : ∀ rest, ¬ "    B".toList.isPrefixOf ("digraph ".toList ++ rest) := by simp
  have htitle : (Document.titleLines title).filter ("    B".toList.isPrefixOf ·) = [] := by
    cases title <;> rfl
  have hstyle : (Document.styleLines.map String.toList).filter ("    B".toList.isPrefixOf ·) = [] := by
    decide
  have hend : ["\x7d".toList, []].filter ("    B".toList.isPrefixOf ·) = [] := by decide
  have hcontent : ((g.toDocument view title dominators).statements.map Statement.content).filter
      ("    B".toList.isPrefixOf ·) = (g.allStatements view dominators).map Statement.content := by
    rw [List.filter_map, ← filter_isSome_toDocument]
    exact congrArg _ (List.filter_congr fun s hs => isPrefixOf_content hs)
  rw [statementLines, toDot, Document.splitOn_render plain_toDocument, Document.lines]
  simp only [List.cons_append, List.append_assoc, List.nil_append]
  rw [List.filter_cons_of_neg (hhead _), List.filter_append, List.filter_append, List.filter_append,
    hstyle, hcontent, hend, List.append_nil, List.nil_append]
  exact (congrArg (· ++ _) htitle).trans (List.nil_append _)

/-! ## What the statements show -/

theorem nodeStatement_inj {b' : BlockId} (h : g.nodeStatement view b = g'.nodeStatement view' b') :
    b = b' ∧ g.label view b = g'.label view' b' := by
  obtain ⟨hname, hlabel, -⟩ := Statement.node.inj h
  obtain rfl := nodeName_inj hname
  exact ⟨rfl, hlabel⟩

theorem kinds_of_label {block block' : Block} (hb : view b = some block) (hb' : view' b = some block')
    (hrank : g.rank? b = g'.rank? b) (h : g.label view b = g'.label view' b) :
    block.terminator.kindName = block'.terminator.kindName ∧
    block.merge.kindName = block'.merge.kindName := by
  rw [label_of_some hb, label_of_some hb', hrank, String.append_right_inj, String.append_right_inj] at h
  exact kindText_inj h

theorem edgeStatements_inj (h : g.edgeStatements b = g'.edgeStatements b) :
    g.succs b = g'.succs b ∧ ∀ c ∈ g.succs b, (⟨b, c⟩ ∈ g.mergeEdges ↔ ⟨b, c⟩ ∈ g'.mergeEdges) := by
  obtain ⟨hsuccs, hattrs⟩ := map_eq_map_of_inj
    (fun c c' hc => congrArg Edge.target (edgeStatement_inj hc).1) h
  refine ⟨hsuccs, fun c hc => ?_⟩
  have hif := (edgeStatement_inj (hattrs c hc)).2
  by_cases hm : ⟨b, c⟩ ∈ g.mergeEdges <;> by_cases hm' : ⟨b, c⟩ ∈ g'.mergeEdges
  · exact iff_of_true hm hm'
  · rw [if_pos hm, if_neg hm'] at hif
    cases hif
  · rw [if_neg hm, if_pos hm'] at hif
    cases hif
  · exact iff_of_false hm hm'

/-- An edge statement names the block that it goes from. -/
theorem flatMap_edgeStatements_inj {l : List BlockId} (hl : l.Nodup)
    (h : l.flatMap g.edgeStatements = l.flatMap g'.edgeStatements) :
    ∀ b ∈ l, g.edgeStatements b = g'.edgeStatements b := by
  have htells : ∀ (g : Graph) b, ∀ s ∈ g.edgeStatements b,
      ∃ e attrs, e.source = b ∧ s = edgeStatement e attrs := by
    intro g b s hs
    obtain ⟨target, -, rfl⟩ := List.mem_map.1 hs
    exact ⟨⟨b, target⟩, _, rfl, rfl⟩
  refine flatMap_inj_of_tells (htells g) (htells g') ?_ hl h
  rintro s b b' ⟨e, attrs, rfl, rfl⟩ ⟨e', attrs', rfl, he⟩
  rw [(edgeStatement_inj he).1]

/-- An edge statement of the dominator tree names the block that it goes to. -/
theorem filterMap_idomStatement?_inj {l : List BlockId} (hl : l.Nodup)
    (h : l.filterMap g.idomStatement? = l.filterMap g'.idomStatement?) :
    ∀ b ∈ l, g.idomStatement? b = g'.idomStatement? b := by
  have htells : ∀ (g : Graph) b, ∀ s ∈ (g.idomStatement? b).toList,
      ∃ e attrs, e.target = b ∧ s = edgeStatement e attrs := by
    intro g b s hs
    obtain ⟨d, -, -, rfl⟩ := idomStatement?_eq_some (Option.mem_toList.1 hs)
    exact ⟨⟨d, b⟩, _, rfl, rfl⟩
  rw [List.filterMap_eq_flatMap_toList, List.filterMap_eq_flatMap_toList] at h
  have hpieces := flatMap_inj_of_tells (htells g) (htells g') ?_ hl h
  · exact fun b hb => by simpa using congrArg List.head? (hpieces b hb)
  · rintro s b b' ⟨e, attrs, rfl, rfl⟩ ⟨e', attrs', rfl, he⟩
    rw [(edgeStatement_inj he).1]

/-! ## What the text shows -/

/-- The graphs are the same in all that a text is about. -/
structure Agree (g g' : Graph) (view view' : View) (dominators : Bool) : Prop where
  entry : g.entry = g'.entry
  postOrder : g.postOrder = g'.postOrder
  rank? : ∀ b, g.rank? b = g'.rank? b
  kinds : ∀ b, g.isReachable b → ∃ block block', view b = some block ∧ view' b = some block' ∧
    block.terminator.kindName = block'.terminator.kindName ∧
    block.merge.kindName = block'.merge.kindName
  succs : ∀ b, g.succs b = g'.succs b
  mergeEdges : ∀ e, e ∈ g.mergeEdges ↔ e ∈ g'.mergeEdges
  backEdges : g.backEdges = g'.backEdges
  idom? : dominators → ∀ b, g.idom? b = g'.idom? b

theorem rank?_of_postOrder (ho : g.traversal.PostOrdered g.entry)
    (ho' : g'.traversal.PostOrdered g'.entry) (h : g.postOrder = g'.postOrder) :
    g.entry = g'.entry ∧ ∀ b, g.rank? b = g'.rank? b := by
  have horder : g.traversal.order = g'.traversal.order := Array.toList_inj.1 h
  constructor
  · have hlast := ho.root_last
    rw [horder, ho'.root_last] at hlast
    exact (Option.some.inj hlast).symm
  · intro b
    refine Option.ext fun r => ?_
    rw [rank?, rank?, ho.rank_iff, ho'.rank_iff, horder]

theorem mem_reversePostOrder_iff (hl : g.Lawful) : b ∈ g.reversePostOrder ↔ g.isReachable b := by
  rw [reversePostOrder, List.mem_reverse, mem_postOrder_iff hl.ordered]

theorem nodup_reversePostOrder (hl : g.Lawful) : g.reversePostOrder.Nodup :=
  List.nodup_reverse.2 ((pairwise_postOrder hl.ordered).imp RankLt.ne)

/-- The merge edges are among the recorded edges, and so dashed ones show them all. -/
theorem mem_mergeEdges_iff_of_dashed {src src' : Source} {opts opts' : Options}
    (ha : g.traversal.Accounts src opts) (ha' : g'.traversal.Accounts src' opts')
    (hsuccs : ∀ b, g.succs b = g'.succs b)
    (hdashed : ∀ b, ∀ c ∈ g.succs b, (⟨b, c⟩ ∈ g.mergeEdges ↔ ⟨b, c⟩ ∈ g'.mergeEdges)) (e : Edge) :
    e ∈ g.mergeEdges ↔ e ∈ g'.mergeEdges := by
  by_cases he : e.target ∈ g.succs e.source
  · exact hdashed e.source e.target he
  · refine iff_of_false (fun hm => he ?_) (fun hm => he ?_)
    · exact ha.mem_succs_of_mergeEdge e (Array.mem_toList_iff.1 hm)
    · rw [hsuccs]
      exact ha'.mem_succs_of_mergeEdge e (Array.mem_toList_iff.1 hm)

/-- A reachable block has an immediate dominator, which is the block itself if it
has no statement. -/
theorem idom?_of_idomStatement? (hl : g.Lawful) (hl' : g'.Lawful)
    (hreach : g.isReachable b = g'.isReachable b)
    (h : g.isReachable b → g.idomStatement? b = g'.idomStatement? b) : g.idom? b = g'.idom? b := by
  by_cases hb : g.isReachable b
  · obtain ⟨d, hd⟩ := Option.isSome_iff_exists.1 ((hl.isSome_iff b).2 hb)
    obtain ⟨d', hd'⟩ := Option.isSome_iff_exists.1 ((hl'.isSome_iff b).2 (hreach ▸ hb))
    have hstatement := h hb
    simp only [idomStatement?, hd, hd'] at hstatement
    rw [hd, hd']
    split at hstatement <;> split at hstatement
    · next hdb hdb' => rw [hdb, hdb']
    · cases hstatement
    · cases hstatement
    · exact congrArg (some ·.source) (edgeStatement_inj (Option.some.inj hstatement)).1
  · have hnone := (hl.isSome_iff b).not.2 hb
    have hnone' := (hl'.isSome_iff b).not.2 (hreach ▸ hb)
    rw [Option.not_isSome_iff_eq_none] at hnone hnone'
    rw [hnone, hnone']

/-- Graphs whose statements are the same about every part agree. -/
theorem agree_of_statementsOf {src src' : Source} {opts opts' : Options} (hs : src.Consistent)
    (hs' : src'.Consistent) (h : (build src opts).value = .ok g)
    (h' : (build src' opts').value = .ok g')
    (hp : ∀ p, g.statementsOf src.block dominators p = g'.statementsOf src'.block dominators p) :
    Agree g g' src.block src'.block dominators := by
  obtain ⟨hl, -, ha⟩ := lawful_of_build hs h
  obtain ⟨hl', -, ha'⟩ := lawful_of_build hs' h'
  -- the nodes show the blocks in their order, and so the ranks
  obtain ⟨hreverse, hnodes⟩ := map_eq_map_of_inj (fun b b' hb => (nodeStatement_inj hb).1) (hp .node)
  have hpost : g.postOrder = g'.postOrder := List.reverse_inj.1 hreverse
  obtain ⟨hentry, hrank⟩ := rank?_of_postOrder hl.ordered hl'.ordered hpost
  have hreach : ∀ b, g.isReachable b = g'.isReachable b := fun b => congrArg Option.isSome (hrank b)
  have hmem : ∀ b, g.isReachable b → b ∈ g.reversePostOrder :=
    fun b hb => (mem_reversePostOrder_iff hl).2 hb
  have hedges : ∀ b, g.isReachable b → g.succs b = g'.succs b ∧
      ∀ c ∈ g.succs b, (⟨b, c⟩ ∈ g.mergeEdges ↔ ⟨b, c⟩ ∈ g'.mergeEdges) := by
    have hrecorded := hp .recorded
    rw [statementsOf, statementsOf, ← hreverse] at hrecorded
    intro b hb
    exact edgeStatements_inj
      (flatMap_edgeStatements_inj (nodup_reversePostOrder hl) hrecorded b (hmem b hb))
  have hsuccs : ∀ b, g.succs b = g'.succs b := by
    intro b
    by_cases hb : g.isReachable b
    · exact (hedges b hb).1
    · rw [(absent_of_build h hb).succs, (absent_of_build h' (hreach b ▸ hb)).succs]
  refine ⟨hentry, hpost, hrank, fun b hb => ?_, hsuccs, ?_, ?_, fun hd b => ?_⟩
  · obtain ⟨block, hblock, -⟩ := sortsExits_of_build h hb
    obtain ⟨block', hblock', -⟩ := sortsExits_of_build h' (hreach b ▸ hb)
    have hlabel := (nodeStatement_inj (hnodes b (hmem b hb))).2
    exact ⟨block, block', hblock, hblock', kinds_of_label hblock hblock' (hrank b) hlabel⟩
  · exact mem_mergeEdges_iff_of_dashed ha ha' hsuccs
      fun b c hc => (hedges b (hl.isReachable_of_recorded hc).1).2 c hc
  · exact (map_eq_map_of_inj (fun e e' he => (edgeStatement_inj he).1) (hp .back)).1
  · have htree := hp .dominator
    rw [statementsOf, statementsOf, if_pos hd, if_pos hd, ← hreverse] at htree
    exact idom?_of_idomStatement? hl hl' (hreach b) fun hb =>
      filterMap_idomStatement?_inj (nodup_reversePostOrder hl) htree b (hmem b hb)

/-- A text depends on the kinds of reachable blocks only, and on how its title is
written. -/
theorem toDot_congr {title' : Option String}
    (hkind : ∀ b ∈ g.reversePostOrder, (view b).map kindText = (view' b).map kindText)
    (htitle : title.map escape = title'.map escape) :
    g.toDot view title dominators = g.toDot view' title' dominators := by
  have hnode : ∀ b ∈ g.reversePostOrder, g.nodeStatement view b = g.nodeStatement view' b := by
    intro b hb
    have hk := hkind b hb
    unfold nodeStatement label
    cases hv : view b <;> cases hv' : view' b <;> simp_all
  have hline : (g.toDocument view title dominators).titleLine =
      (g.toDocument view' title' dominators).titleLine := by
    unfold Document.titleLine toDocument quoted
    cases title <;> cases title' <;> simp_all
  have hstatements : (g.toDocument view title dominators).statements =
      (g.toDocument view' title' dominators).statements := by
    unfold toDocument
    rw [List.map_congr_left hnode]
  unfold toDot Document.render Document.heading
  rw [hline, hstatements]
  rfl

/-- A text has one line for each reachable block and each edge and no other lines
that begin like these, whatever its title. Graphs with the same text have the
same title but for carriage returns, and agree. -/
theorem agree_of_toDot {src : Source} {opts : Options} (hs : src.Consistent)
    (h : (build src opts).value = .ok g) (title : Option String) (dominators : Bool) :
    (statementLines (g.toDot src.block title dominators)).map (· ++ ['\n']) =
      (g.reversePostOrder.map (g.nodeStatement src.block) ++
        g.reversePostOrder.flatMap g.edgeStatements ++ g.backEdges.map backEdgeStatement ++
        if dominators then g.reversePostOrder.filterMap g.idomStatement? else []).map
          (·.line.toList) ∧
    ∀ (src' : Source) (opts' : Options) (g' : Graph) (title' : Option String),
      src'.Consistent → (build src' opts').value = .ok g' →
      g.toDot src.block title dominators = g'.toDot src'.block title' dominators →
      title.map (·.toList.filter (· ≠ '\r')) = title'.map (·.toList.filter (· ≠ '\r')) ∧
      Agree g g' src.block src'.block dominators := by
  constructor
  · rw [statementLines_toDot, List.map_map]
    exact List.map_congr_left fun s _ => (Statement.toList_line s).symm
  · intro src' opts' g' title' hs' h' heq
    obtain ⟨-, htitle, hstatements⟩ := Document.render_inj plain_toDocument plain_toDocument heq
    refine ⟨htitle, agree_of_statementsOf hs hs' h h' fun p => ?_⟩
    rw [← filter_part?_toDocument g src.block title, hstatements, filter_part?_toDocument]

/-- A loop that may be passed by. The parameters are not shown in its text. -/
def passedBy (value : UInt64) (next : BlockId) : Body := .ofList ⟨1⟩ [
  (⟨1⟩, ⟨.multiSelect [⟨value, ⟨2⟩⟩] (some ⟨3⟩), .selection next⟩),
  (⟨2⟩, ⟨.direct ⟨1⟩, .loop ⟨3⟩⟩),
  (⟨3⟩, ⟨.ret, .none⟩)]

theorem agree_of_toDot_passedBy :
    (passedBy 0 ⟨3⟩).source.Consistent ∧ (passedBy 7 ⟨2⟩).source.Consistent ∧
    ∃ g, (build (passedBy 0 ⟨3⟩).source).value = .ok g ∧
      (build (passedBy 7 ⟨2⟩).source).value = .ok g ∧
      g.toDot (passedBy 0 ⟨3⟩).get? (some "\"B1\"\r\n") true =
        g.toDot (passedBy 7 ⟨2⟩).get? (some "\"B1\"\n") true ∧
      (some "\"B1\"\r\n").map (·.toList.filter (· ≠ '\r')) =
        (some "\"B1\"\n").map (·.toList.filter (· ≠ '\r')) ∧
      Agree g g (passedBy 0 ⟨3⟩).get? (passedBy 7 ⟨2⟩).get? true := by
  obtain ⟨g, hg, hblocks⟩ : ∃ g, (build (passedBy 0 ⟨3⟩).source).value = .ok g ∧
      g.reversePostOrder = [⟨1⟩, ⟨2⟩, ⟨3⟩] := exists_of_map_build (by cbv)
  have hg' : (build (passedBy 7 ⟨2⟩).source).value = .ok g := by
    rw [← hg]
    cbv
  have hkinds : ([⟨1⟩, ⟨2⟩, ⟨3⟩] : List BlockId).map (fun b => ((passedBy 0 ⟨3⟩).get? b).map kindText) =
      ([⟨1⟩, ⟨2⟩, ⟨3⟩] : List BlockId).map (fun b => ((passedBy 7 ⟨2⟩).get? b).map kindText) := by
    cbv
  have htext : g.toDot (passedBy 0 ⟨3⟩).get? (some "\"B1\"\r\n") true =
      g.toDot (passedBy 7 ⟨2⟩).get? (some "\"B1\"\n") true := by
    refine toDot_congr ?_ (by cbv)
    rw [hblocks]
    exact List.map_inj_left.1 hkinds
  have hs := (passedBy 0 ⟨3⟩).consistent_source
  have hs' := (passedBy 7 ⟨2⟩).consistent_source
  obtain ⟨-, hagree⟩ := agree_of_toDot hs hg (some "\"B1\"\r\n") true
  exact ⟨hs, hs', g, hg, hg', htext, hagree _ _ _ _ hs' hg' htext⟩

end Graph

end FlowGraph
