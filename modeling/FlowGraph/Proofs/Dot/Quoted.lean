import Mathlib.Algebra.Ring.Parity
import Mathlib.Data.List.DropRight
import FlowGraph.Dot.Quoted
/-!
# Quoted text reads back

A character is written in one of three ways (`Written`), and from each of them it
is read back, but for carriage returns (`unescape_escaped`). What is written ends
in an even run of backslashes, so the run before a character is odd exactly if a
backslash is written for that character. So a quote in the text never ends a DOT
string, and the one that is written after it always does (`quoted_of_escape`).
-/

namespace FlowGraph.Dot

variable {c d : Char} {s t w pre post rest : List Char}

/-! ## How a character is written -/

/-- A character is left out, written as a backslash and one more, or written as
it is. -/
inductive Written : Char → List Char → Prop
  | dropped : Written '\r' []
  | pair {c d : Char} : (c, d) ∈ [('\\', '\\'), ('"', '"'), ('\n', 'n'), ('<', '<'), ('>', '>')] →
      Written c ['\\', d]
  | self {c : Char} : c ∉ ['\\', '"', '\n', '\r', '<', '>'] → Written c [c]

theorem written_escapeChar (c : Char) : Written c (escapeChar c) := by
  unfold escapeChar
  split
  · exact .pair (by decide)
  · exact .pair (by decide)
  · exact .pair (by decide)
  · exact .dropped
  · exact .pair (by decide)
  · exact .pair (by decide)
  · refine .self ?_
    simp_all

/-- How a text is written. -/
def escaped (s : List Char) : List Char := s.flatMap escapeChar

theorem toList_escape (s : String) : (escape s).toList = escaped s.toList := by
  rw [escape_eq, String.toList_ofList, escaped]

theorem toList_quoted (s : String) : (quoted s).toList = '"' :: (escaped s.toList ++ ['"']) := by
  have hquote : "\"".toList = ['"'] := rfl
  simp only [quoted, String.toList_append, toList_escape, hquote, List.cons_append,
    List.nil_append]

@[simp] theorem escaped_nil : escaped [] = [] := rfl

@[simp] theorem escaped_cons (c : Char) (s : List Char) : escaped (c :: s) = escapeChar c ++ escaped s :=
  rfl

theorem not_mem_written (h : Written c w) : '\n' ∉ w ∧ '\r' ∉ w := by
  cases h with
  | dropped => simp
  | pair hd =>
    simp only [List.mem_cons, Prod.mk.injEq, List.not_mem_nil, or_false] at hd
    rcases hd with ⟨-, rfl⟩ | ⟨-, rfl⟩ | ⟨-, rfl⟩ | ⟨-, rfl⟩ | ⟨-, rfl⟩ <;> decide
  | self hs =>
    simp only [List.mem_cons, not_or] at hs
    simp [eq_comm, hs]

theorem not_mem_escaped (s : List Char) : '\n' ∉ escaped s ∧ '\r' ∉ escaped s := by
  constructor <;> intro h <;> obtain ⟨c, -, hc⟩ := List.mem_flatMap.1 h
  · exact (not_mem_written (written_escapeChar c)).1 hc
  · exact (not_mem_written (written_escapeChar c)).2 hc

/-! ## Reading it back -/

/-- Reads a backslash and the character after it as the one they are written
for, and all other characters as themselves. -/
def unescape : List Char → List Char
  | '\\' :: '\\' :: s => '\\' :: unescape s
  | '\\' :: '"' :: s => '"' :: unescape s
  | '\\' :: 'n' :: s => '\n' :: unescape s
  | '\\' :: '<' :: s => '<' :: unescape s
  | '\\' :: '>' :: s => '>' :: unescape s
  | c :: s => c :: unescape s
  | [] => []

theorem unescape_cons (hc : c ≠ '\\') (s : List Char) : unescape (c :: s) = c :: unescape s := by
  conv => lhs; unfold unescape
  split <;> simp_all

theorem unescape_written (h : Written c w) (s : List Char) :
    unescape (w ++ s) = [c].filter (· ≠ '\r') ++ unescape s := by
  cases h with
  | dropped => rfl
  | pair hd =>
    simp only [List.mem_cons, Prod.mk.injEq, List.not_mem_nil, or_false] at hd
    rcases hd with ⟨rfl, rfl⟩ | ⟨rfl, rfl⟩ | ⟨rfl, rfl⟩ | ⟨rfl, rfl⟩ | ⟨rfl, rfl⟩ <;> rfl
  | self hs =>
    simp only [List.mem_cons, not_or] at hs
    rw [List.singleton_append, unescape_cons hs.1]
    simp [hs]

theorem unescape_escaped (s : List Char) : unescape (escaped s) = s.filter (· ≠ '\r') := by
  induction s with
  | nil => rfl
  | cons c s ih =>
    rw [escaped_cons, unescape_written (written_escapeChar c), ih, ← List.filter_append,
      List.singleton_append]

/-! ## Runs of backslashes -/

/-- How many backslashes a text ends in. -/
def backslashes (s : List Char) : Nat := (s.rtakeWhile (· = '\\')).length

theorem backslashes_concat (s : List Char) (c : Char) :
    backslashes (s ++ [c]) = if c = '\\' then backslashes s + 1 else 0 := by
  rw [backslashes, List.rtakeWhile_concat]
  by_cases hc : c = '\\' <;> simp [hc, backslashes]

/-- An even run before a text does not change whether the run at its end is even. -/
theorem even_backslashes_append (hs : Even (backslashes s)) (t : List Char) :
    Even (backslashes (s ++ t)) ↔ Even (backslashes t) := by
  induction t using List.reverseRecOn with
  | nil => simpa [backslashes] using hs
  | append_singleton t c ih =>
    rw [← List.append_assoc, backslashes_concat, backslashes_concat]
    split
    · rw [Nat.even_add_one, Nat.even_add_one, ih]
    · rfl

theorem even_backslashes_written (h : Written c w) : Even (backslashes w) := by
  cases h with
  | dropped => decide
  | pair hd =>
    simp only [List.mem_cons, Prod.mk.injEq, List.not_mem_nil, or_false] at hd
    rcases hd with ⟨-, rfl⟩ | ⟨-, rfl⟩ | ⟨-, rfl⟩ | ⟨-, rfl⟩ | ⟨-, rfl⟩ <;> decide
  | self hs =>
    simp only [List.mem_cons, not_or] at hs
    simp [backslashes, List.rtakeWhile, hs]

theorem even_backslashes_escaped (s : List Char) : Even (backslashes (escaped s)) := by
  induction s with
  | nil => decide
  | cons c s ih =>
    rw [escaped_cons, even_backslashes_append (even_backslashes_written (written_escapeChar c))]
    exact ih

/-- A quote or angle bracket is written as the second of a pair. -/
theorem odd_backslashes_of_written (h : Written c w) (hw : w = pre ++ d :: post)
    (hd : d ∈ ['"', '<', '>']) : Odd (backslashes pre) := by
  cases h with
  | dropped => simp at hw
  | pair hp =>
    rcases List.append_eq_cons_iff.1 hw.symm with ⟨-, h⟩ | ⟨pre', rfl, h⟩
    · cases h
      exact absurd hd (by decide)
    · rcases List.append_eq_cons_iff.1 h.symm with ⟨rfl, -⟩ | ⟨pre'', -, h⟩
      · decide
      · simp at h
  | self hs =>
    rcases List.append_eq_cons_iff.1 hw.symm with ⟨-, h⟩ | ⟨pre', -, h⟩
    · cases h
      simp_all
    · simp at h

theorem odd_backslashes_of_escaped (h : escaped s = pre ++ d :: post) (hd : d ∈ ['"', '<', '>']) :
    Odd (backslashes pre) := by
  induction s generalizing pre with
  | nil => simp at h
  | cons c s ih =>
    have hw := written_escapeChar c
    rw [escaped_cons] at h
    rcases List.append_eq_append_iff.1 h with ⟨pre', rfl, hs⟩ | ⟨w', hw', hs⟩
    · -- the character comes after what is written for `c`
      have hodd := ih hs
      rw [← Nat.not_even_iff_odd] at hodd ⊢
      rwa [even_backslashes_append (even_backslashes_written hw)]
    · match w', hs with
      | [], hs =>
        have hodd : Odd (backslashes ([] : List Char)) := ih hs.symm
        exact absurd hodd (by decide)
      | _ :: w', hs =>
        cases hs
        exact odd_backslashes_of_written hw hw' hd

/-- No quote in a text ends it, so the first that does is the one after it. -/
theorem prefix_of_quote (h : escaped s ++ '"' :: rest = pre ++ '"' :: post)
    (hpre : Even (backslashes pre)) : escaped s <+: pre := by
  rcases List.append_eq_append_iff.1 h with ⟨pre', rfl, -⟩ | ⟨s', hs, h⟩
  · exact List.prefix_append _ _
  · match s', h with
    | [], _ => simp [hs]
    | _ :: s', h =>
      cases h
      exact absurd hpre (Nat.not_even_iff_odd.2 (odd_backslashes_of_escaped hs (by decide)))

/-- What is written between quotes can be told from what follows. -/
theorem escaped_append_inj {rest' : List Char} (h : escaped s ++ '"' :: rest = escaped t ++ '"' :: rest') :
    s.filter (· ≠ '\r') = t.filter (· ≠ '\r') ∧ rest = rest' := by
  have hle := (prefix_of_quote h (even_backslashes_escaped t)).length_le
  have hge := (prefix_of_quote h.symm (even_backslashes_escaped s)).length_le
  obtain ⟨htext, hrest⟩ := List.append_inj h (Nat.le_antisymm hle hge)
  refine ⟨?_, List.tail_eq_of_cons_eq hrest⟩
  rw [← unescape_escaped, htext, unescape_escaped]

/-- An escaped text is read back but for carriage returns, and has no line feeds
or carriage returns. Every quote and angle bracket in it comes after an odd run
of backslashes, and it ends in an even one, so that of the quotes in a text that
goes on with a quote that one is the first to end it. Texts are escaped piece by
piece. -/
theorem quoted_of_escape (s : String) :
    unescape (escape s).toList = s.toList.filter (· ≠ '\r') ∧
    '\n' ∉ (escape s).toList ∧ '\r' ∉ (escape s).toList ∧
    (∀ pre c post, (escape s).toList = pre ++ c :: post → c ∈ ['"', '<', '>'] →
      Odd (backslashes pre)) ∧
    Even (backslashes (escape s).toList) ∧
    (∀ rest pre post, (escape s).toList ++ '"' :: rest = pre ++ '"' :: post →
      Even (backslashes pre) → (escape s).toList <+: pre) ∧
    ∀ t, escape (s ++ t) = escape s ++ escape t := by
  simp only [toList_escape]
  refine ⟨unescape_escaped _, (not_mem_escaped _).1, (not_mem_escaped _).2, ?_,
    even_backslashes_escaped _, ?_, escape_append s⟩
  · exact fun pre c post h hc => odd_backslashes_of_escaped h hc
  · exact fun rest pre post h hpre => prefix_of_quote h hpre

/-- Three backslashes before the quote, of which the first two stand for one. -/
theorem quoted_of_escape_mixed :
    (escape "a\\\"<\r\n").toList = ['a', '\\', '\\', '\\', '"', '\\', '<', '\\', 'n'] ∧
    unescape (escape "a\\\"<\r\n").toList = ['a', '\\', '"', '<', '\n'] ∧
    Odd (backslashes ['a', '\\', '\\', '\\']) ∧
    (escape "a\\\"<\r\n").toList <+: ['a', '\\', '\\', '\\', '"', '\\', '<', '\\', 'n'] := by
  have hs : (escape "a\\\"<\r\n").toList = ['a', '\\', '\\', '\\', '"', '\\', '<', '\\', 'n'] := by cbv
  obtain ⟨hread, -, -, hodd, -, hquote, -⟩ := quoted_of_escape "a\\\"<\r\n"
  refine ⟨hs, ?_, ?_, ?_⟩
  · rw [hread]
    cbv
  · exact hodd _ '"' ['\\', '<', '\\', 'n'] (by rw [hs]; rfl) (by decide)
  · exact hquote [] _ [] (by rw [hs]) (by decide)

end FlowGraph.Dot
