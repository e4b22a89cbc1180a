import FlowGraph.Dot.Document
import FlowGraph.Proofs.Dot.Quoted
/-!
# Documents can be told apart by their texts

The text of a document has one line for each statement, and so has no label or
title a line of its own (`splitOn_render`). If all names are plain, a line shows
where each part of its statement ends, and the text of a document shows its
statements and its title (`render_inj`).
-/

namespace FlowGraph.Dot

/-! ## Plain words -/

/-- Only letters and digits. -/
def Plain (s : String) : Prop := ∀ c ∈ s.toList, c.isAlphanum = true

instance (s : String) : Decidable (Plain s) :=
  decidable_of_iff (s.toList.all Char.isAlphanum = true) List.all_eq_true

theorem Plain.not_mem {s : String} {c : Char} (h : Plain s) (hc : c.isAlphanum = false) :
    c ∉ s.toList := by
  intro hm
  rw [h c hm] at hc
  cases hc

/-- A plain word ends where the first other character stands. -/
theorem plain_append_inj {s s' : String} {c c' : Char} {rest rest' : List Char} (hs : Plain s)
    (hs' : Plain s') (hc : c.isAlphanum = false) (hc' : c'.isAlphanum = false)
    (h : s.toList ++ c :: rest = s'.toList ++ c' :: rest') : s = s' ∧ c = c' ∧ rest = rest' := by
  have htake : ∀ {s : String} {c : Char} {rest : List Char}, Plain s → c.isAlphanum = false →
      (s.toList ++ c :: rest).takeWhile Char.isAlphanum = s.toList := by
    intro s c rest hs hc
    rw [List.takeWhile_append_of_pos hs, List.takeWhile_cons_of_neg (by simp [hc]), List.append_nil]
  have hword := congrArg (List.takeWhile Char.isAlphanum) h
  rw [htake hs hc, htake hs' hc', String.toList_inj] at hword
  subst hword
  obtain ⟨hchar, hrest⟩ := List.cons.inj (List.append_cancel_left h)
  exact ⟨rfl, hchar, hrest⟩

/-! ## Attributes -/

/-- Key and value are plain. -/
def Attribute.Plain (a : Attribute) : Prop := Dot.Plain a.key ∧ Dot.Plain a.value

instance (a : Attribute) : Decidable a.Plain :=
  inferInstanceAs (Decidable (Plain a.key ∧ Plain a.value))

/-- An attribute as the characters of its line. -/
def Attribute.content (a : Attribute) : List Char := a.key.toList ++ '=' :: a.value.toList

/-- How a line goes on after an attribute. -/
def attributesEnd : List Attribute → List Char
  | [] => [']', ';']
  | a :: attrs => ',' :: ' ' :: (a.content ++ attributesEnd attrs)

theorem toList_intercalate_text (attrs : List Attribute) : ∀ a : Attribute,
    (", ".intercalate ((a :: attrs).map Attribute.text)).toList ++ [']', ';'] =
      a.content ++ attributesEnd attrs := by
  induction attrs with
  | nil => simp [Attribute.text, Attribute.content, attributesEnd, String.intercalate_singleton]
  | cons b attrs ih =>
    intro a
    have hb := ih b
    rw [List.map_cons] at hb
    rw [List.map_cons, List.map_cons, String.intercalate_cons_cons, String.toList_append,
      String.toList_append, List.append_assoc, hb]
    simp [Attribute.text, Attribute.content, attributesEnd]

theorem toList_attributeList (a : Attribute) (attrs : List Attribute) :
    (attributeList (a :: attrs)).toList ++ [';'] = '[' :: (a.content ++ attributesEnd attrs) := by
  rw [← toList_intercalate_text]
  simp [attributeList]

theorem exists_attributesEnd (attrs : List Attribute) :
    ∃ c rest, attributesEnd attrs = c :: rest ∧ c.isAlphanum = false := by
  cases attrs with
  | nil => exact ⟨_, _, rfl, by decide⟩
  | cons a attrs => exact ⟨_, _, rfl, by decide⟩

theorem attribute_append_inj {a a' : Attribute} {attrs attrs' : List Attribute} (ha : a.Plain)
    (ha' : a'.Plain) (h : a.content ++ attributesEnd attrs = a'.content ++ attributesEnd attrs') :
    a = a' ∧ attributesEnd attrs = attributesEnd attrs' := by
  obtain ⟨c, rest, hc, hn⟩ := exists_attributesEnd attrs
  obtain ⟨c', rest', hc', hn'⟩ := exists_attributesEnd attrs'
  simp only [Attribute.content, List.append_assoc, List.cons_append, hc, hc'] at h
  obtain ⟨hkey, -, h⟩ := plain_append_inj ha.1 ha'.1 (by decide) (by decide) h
  obtain ⟨hvalue, hchar, hrest⟩ := plain_append_inj ha.2 ha'.2 hn hn' h
  obtain ⟨key, value⟩ := a
  obtain ⟨key', value'⟩ := a'
  subst hkey hvalue hchar hrest
  exact ⟨rfl, hc.trans hc'.symm⟩

theorem attributesEnd_inj {attrs : List Attribute} (h : ∀ a ∈ attrs, a.Plain) :
    ∀ {attrs'}, (∀ a ∈ attrs', a.Plain) → attributesEnd attrs = attributesEnd attrs' → attrs = attrs' := by
  induction attrs with
  | nil =>
    intro attrs' _ heq
    cases attrs' with
    | nil => rfl
    | cons a' attrs' => simp [attributesEnd] at heq
  | cons a attrs ih =>
    intro attrs' h' heq
    cases attrs' with
    | nil => simp [attributesEnd] at heq
    | cons a' attrs' =>
      obtain ⟨ha, hattrs⟩ := List.forall_mem_cons.1 h
      obtain ⟨ha', hattrs'⟩ := List.forall_mem_cons.1 h'
      simp only [attributesEnd, List.cons.injEq, true_and] at heq
      obtain ⟨rfl, hrest⟩ := attribute_append_inj ha ha' heq
      rw [ih hattrs hattrs' hrest]

/-! ## Statements -/

theorem filter_eq_self_of_not_mem {c : Char} {s : List Char} (h : c ∉ s) : s.filter (· ≠ c) = s := by
  refine List.filter_eq_self.2 fun d hd => ?_
  simpa using fun he : d = c => h (he ▸ hd)

namespace Statement

/-- All names are plain, and labels have no carriage returns, which are not written. -/
def Plain : Statement → Prop
  | node name label attrs => Dot.Plain name ∧ '\r' ∉ label.toList ∧ ∀ a ∈ attrs, a.Plain
  | edge source target attrs => Dot.Plain source ∧ Dot.Plain target ∧ ∀ a ∈ attrs, a.Plain
  | blank => True

/-- How the line of an edge ends. -/
def edgeEnd : List Attribute → List Char
  | [] => [';']
  | a :: attrs => ' ' :: '[' :: (a.content ++ attributesEnd attrs)

/-- The line of a statement without its line feed. -/
def content : Statement → List Char
  | node name label attrs => [' ', ' ', ' ', ' '] ++ (name.toList ++ ' ' :: '[' ::
    ("label".toList ++ '=' :: '"' :: (escaped label.toList ++ '"' :: attributesEnd attrs)))
  | edge source target attrs => [' ', ' ', ' ', ' '] ++ (source.toList ++ ' ' :: '-' :: '>' :: ' ' ::
    (target.toList ++ edgeEnd attrs))
  | blank => []

theorem toList_line (s : Statement) : s.line.toList = s.content ++ "\n".toList := by
  have hindent : "    ".toList = [' ', ' ', ' ', ' '] := rfl
  have hsep : " ".toList = [' '] := rfl
  have harrow : " -> ".toList = [' ', '-', '>', ' '] := rfl
  have hend : ";\n".toList = [';'] ++ "\n".toList := rfl
  match s with
  | node name label attrs =>
    simp only [line, content, String.toList_append, hindent, hsep, hend]
    rw [← List.append_assoc, List.append_assoc _ _ [';'], toList_attributeList]
    simp only [Attribute.content, toList_quoted, List.append_assoc, List.cons_append, List.nil_append]
  | edge source target [] =>
    simp only [line, content, edgeEnd, String.toList_append, hindent, harrow, hend, List.append_assoc,
      List.cons_append, List.nil_append]
  | edge source target (a :: attrs) =>
    simp only [line, content, edgeEnd, String.toList_append, hindent, hsep, harrow, hend]
    rw [← List.append_assoc, List.append_assoc _ _ [';'], toList_attributeList]
    simp only [List.append_assoc, List.cons_append, List.nil_append]
  | blank => rfl

theorem edgeEnd_inj {attrs attrs' : List Attribute} (h : ∀ a ∈ attrs, a.Plain)
    (h' : ∀ a ∈ attrs', a.Plain) (heq : edgeEnd attrs = edgeEnd attrs') : attrs = attrs' := by
  match attrs, attrs' with
  | [], [] => rfl
  | [], _ :: _ => simp [edgeEnd] at heq
  | _ :: _, [] => simp [edgeEnd] at heq
  | a :: attrs, a' :: attrs' =>
    obtain ⟨ha, hattrs⟩ := List.forall_mem_cons.1 h
    obtain ⟨ha', hattrs'⟩ := List.forall_mem_cons.1 h'
    simp only [edgeEnd, List.cons.injEq, true_and] at heq
    obtain ⟨rfl, hrest⟩ := attribute_append_inj ha ha' heq
    rw [attributesEnd_inj hattrs hattrs' hrest]

theorem exists_edgeEnd (attrs : List Attribute) :
    ∃ c rest, edgeEnd attrs = c :: rest ∧ c.isAlphanum = false := by
  cases attrs with
  | nil => exact ⟨_, _, rfl, by decide⟩
  | cons a attrs => exact ⟨_, _, rfl, by decide⟩

theorem content_inj {s s' : Statement} (h : s.Plain) (h' : s'.Plain) (heq : s.content = s'.content) :
    s = s' := by
  match s, s' with
  | blank, blank => rfl
  | blank, node .. | blank, edge .. | node .., blank | edge .., blank => cases heq
  | node name label attrs, edge source target attrs' | edge source target attrs', node name label attrs =>
    -- after the first name stands a bracket or an arrow
    obtain ⟨-, -, hrest⟩ := plain_append_inj h.1 h'.1 (by decide) (by decide) (List.append_cancel_left heq)
    exact absurd (List.cons.inj hrest).1 (by decide)
  | node name label attrs, node name' label' attrs' =>
    obtain ⟨hname, hlabel, hattrs⟩ := h
    obtain ⟨hname', hlabel', hattrs'⟩ := h'
    obtain ⟨rfl, -, hrest⟩ :=
      plain_append_inj hname hname' (by decide) (by decide) (List.append_cancel_left heq)
    have hrest := List.append_cancel_left (List.cons.inj hrest).2
    simp only [List.cons.injEq, true_and] at hrest
    obtain ⟨hl, he⟩ := escaped_append_inj hrest
    rw [filter_eq_self_of_not_mem hlabel, filter_eq_self_of_not_mem hlabel', String.toList_inj] at hl
    rw [hl, attributesEnd_inj hattrs hattrs' he]
  | edge source target attrs, edge source' target' attrs' =>
    obtain ⟨hsource, htarget, hattrs⟩ := h
    obtain ⟨hsource', htarget', hattrs'⟩ := h'
    obtain ⟨rfl, -, hrest⟩ :=
      plain_append_inj hsource hsource' (by decide) (by decide) (List.append_cancel_left heq)
    simp only [List.cons.injEq, true_and] at hrest
    obtain ⟨c, r, hc, hn⟩ := exists_edgeEnd attrs
    obtain ⟨c', r', hc', hn'⟩ := exists_edgeEnd attrs'
    rw [hc, hc'] at hrest
    obtain ⟨rfl, rfl, rfl⟩ := plain_append_inj htarget htarget' hn hn' hrest
    rw [edgeEnd_inj hattrs hattrs' (hc.trans hc'.symm)]

theorem map_content_inj {l : List Statement} (h : ∀ s ∈ l, s.Plain) :
    ∀ {l'}, (∀ s ∈ l', s.Plain) → l.map content = l'.map content → l = l' := by
  induction l with
  | nil =>
    intro l' _ heq
    exact (List.map_eq_nil_iff.1 heq.symm).symm
  | cons s l ih =>
    intro l' h' heq
    cases l' with
    | nil => cases heq
    | cons s' l' =>
      obtain ⟨hs, hl⟩ := List.forall_mem_cons.1 h
      obtain ⟨hs', hl'⟩ := List.forall_mem_cons.1 h'
      obtain ⟨hfirst, hrest⟩ := List.cons.inj heq
      rw [content_inj hs hs' hfirst, ih hl hl' hrest]

theorem not_mem_attributesEnd {attrs : List Attribute} (h : ∀ a ∈ attrs, a.Plain) :
    '\n' ∉ attributesEnd attrs := by
  induction attrs with
  | nil => simp [attributesEnd]
  | cons a attrs ih =>
    obtain ⟨⟨hkey, hvalue⟩, hattrs⟩ := List.forall_mem_cons.1 h
    have hkey := hkey.not_mem (c := '\n') (by decide)
    have hvalue := hvalue.not_mem (c := '\n') (by decide)
    simp [attributesEnd, Attribute.content, hkey, hvalue, ih hattrs]

/-- A statement takes one line. -/
theorem not_mem_content {s : Statement} (h : s.Plain) : '\n' ∉ s.content := by
  match s with
  | blank => simp [content]
  | node name label attrs =>
    obtain ⟨hname, -, hattrs⟩ := h
    have hname := hname.not_mem (c := '\n') (by decide)
    simp [content, hname, (not_mem_escaped _).1, not_mem_attributesEnd hattrs]
  | edge source target [] =>
    obtain ⟨hsource, htarget, -⟩ := h
    have hsource := hsource.not_mem (c := '\n') (by decide)
    have htarget := htarget.not_mem (c := '\n') (by decide)
    simp [content, hsource, htarget, edgeEnd]
  | edge source target (a :: attrs) =>
    obtain ⟨hsource, htarget, hattrs⟩ := h
    have hsource := hsource.not_mem (c := '\n') (by decide)
    have htarget := htarget.not_mem (c := '\n') (by decide)
    have hend := not_mem_attributesEnd hattrs
    simp only [attributesEnd, List.mem_cons, not_or] at hend
    simp [content, hsource, htarget, edgeEnd, hend]

end Statement

/-! ## Documents -/

namespace Document

variable {d d' : Document}

/-- All names are plain; the title may be any text. -/
structure Plain (d : Document) : Prop where
  name : Dot.Plain d.name
  statements : ∀ s ∈ d.statements, s.Plain

/-- The line of the title, if there is one, without its line feed. -/
def titleLines : Option String → List (List Char)
  | none => []
  | some title => ["    label=".toList ++ '"' :: (escaped title.toList ++ '"' :: [';'])]

/-- The lines of a document without their line feeds. -/
def lines (d : Document) : List (List Char) :=
  ("digraph ".toList ++ (d.name.toList ++ " \x7b".toList)) :: (titleLines d.title ++ (styleLines.map String.toList ++
    (d.statements.map Statement.content ++ ["\x7d".toList])))

theorem render_eq (d : Document) : d.render =
    "digraph " ++ (d.name ++ (" \x7b" ++ ("\n" ++ (d.titleLine ++
      (String.join (styleLines.map (· ++ "\n")) ++
        (String.join (d.statements.map Statement.line) ++ ("\x7d" ++ "\n"))))))) := by
  have hopen : " \x7b\n" = " \x7b" ++ "\n" := rfl
  have hclose : "\x7d\n" = "\x7d" ++ "\n" := rfl
  unfold render heading
  rw [hopen, hclose]
  simp only [String.append_assoc]

theorem toList_titleLine (d : Document) :
    d.titleLine.toList = (titleLines d.title).flatMap (· ++ "\n".toList) := by
  have hend : ";\n".toList = [';'] ++ "\n".toList := rfl
  unfold titleLine titleLines
  cases d.title with
  | none => rfl
  | some title =>
    simp only [String.toList_append, toList_quoted, hend, List.flatMap_cons, List.flatMap_nil,
      List.append_assoc, List.cons_append, List.nil_append, List.append_nil]

theorem toList_render (d : Document) : d.render.toList = d.lines.flatMap (· ++ "\n".toList) := by
  simp only [render_eq, String.toList_append, toList_titleLine, String.toList_join,
    List.flatMap_map, Statement.toList_line, lines, List.flatMap_cons, List.flatMap_append,
    List.flatMap_nil, List.append_assoc, List.append_nil]

theorem flatMap_concat_eq_intercalate (ls : List (List Char)) :
    ls.flatMap (· ++ ['\n']) = ['\n'].intercalate (ls ++ [[]]) := by
  induction ls with
  | nil => rfl
  | cons l ls ih =>
    rw [List.flatMap_cons, ih, List.cons_append]
    cases ls <;> simp [List.intercalate]

theorem not_mem_lines (h : d.Plain) : ∀ l ∈ d.lines ++ [[]], '\n' ∉ l := by
  intro l hl
  simp only [lines, List.mem_append, List.mem_cons, List.mem_map, List.not_mem_nil, or_false] at hl
  rcases hl with (rfl | hl | hl | ⟨s, hs, rfl⟩ | rfl) | rfl
  · simp [h.name.not_mem (c := '\n') (by decide)]
  · unfold titleLines at hl
    split at hl
    · cases hl
    · rw [List.mem_singleton] at hl
      subst hl
      have hlabel : '\n' ∉ "    label=".toList := by decide
      simp only [List.mem_append, List.mem_cons, List.not_mem_nil, hlabel, (not_mem_escaped _).1]
      decide
  · have hstyle : ∀ s ∈ styleLines, '\n' ∉ s.toList := by decide
    obtain ⟨s, hs, rfl⟩ := hl
    exact hstyle s hs
  · exact Statement.not_mem_content (h.statements s hs)
  · simp
  · exact List.not_mem_nil

/-- Line feeds end the lines of a document and stand nowhere else. -/
theorem splitOn_render (h : d.Plain) : d.render.toList.splitOn '\n' = d.lines ++ [[]] := by
  have hfeed : "\n".toList = ['\n'] := rfl
  rw [toList_render, hfeed, flatMap_concat_eq_intercalate]
  exact List.splitOn_intercalate '\n' (not_mem_lines h) (by simp)

theorem titleLines_inj {title title' : Option String} {l l' : List (List Char)}
    (h : titleLines title ++ (styleLines.map String.toList ++ l) =
      titleLines title' ++ (styleLines.map String.toList ++ l')) :
    title.map (·.toList.filter (· ≠ '\r')) = title'.map (·.toList.filter (· ≠ '\r')) ∧ l = l' := by
  match title, title' with
  | none, none => exact ⟨rfl, List.append_cancel_left h⟩
  | none, some _ | some _, none =>
    -- the heading goes on with another label
    obtain ⟨hline, -⟩ := List.cons.inj h
    simp at hline
  | some title, some title' =>
    obtain ⟨hline, hrest⟩ := List.cons.inj h
    have hline := (List.cons.inj (List.append_cancel_left hline)).2
    obtain ⟨htitle, -⟩ := escaped_append_inj hline
    exact ⟨congrArg some htitle, List.append_cancel_left hrest⟩

/-- The text of a document shows its name, its statements, and its title but for
carriage returns. -/
theorem render_inj (h : d.Plain) (h' : d'.Plain) (heq : d.render = d'.render) :
    d.name = d'.name ∧
    d.title.map (·.toList.filter (· ≠ '\r')) = d'.title.map (·.toList.filter (· ≠ '\r')) ∧
    d.statements = d'.statements := by
  have hlines : d.lines = d'.lines := by
    have hsplit := splitOn_render h
    rw [heq, splitOn_render h'] at hsplit
    exact (List.append_cancel_right hsplit).symm
  obtain ⟨hhead, hrest⟩ := List.cons.inj hlines
  obtain ⟨hname, -, -⟩ :=
    plain_append_inj h.name h'.name (by decide) (by decide) (List.append_cancel_left hhead)
  obtain ⟨htitle, hrest⟩ := titleLines_inj hrest
  refine ⟨hname, htitle, ?_⟩
  exact Statement.map_content_inj h.statements h'.statements (List.append_cancel_right hrest)

end Document

end FlowGraph.Dot
