/-!
# Quoted text

What may stand between the quotes of a DOT string. Backslashes, quotes, line
feeds and angle brackets are written as a backslash and one more character;
carriage returns are left out. All other characters stand for themselves.

The characters are replaced one after the other in the whole text, each in what
the replacements before it have left. In the order they are made, the result is
the same as if each character were written on its own (`escape_eq`).
-/

namespace FlowGraph.Dot

/-- A character and what is written for it. -/
structure Replacement where
  char : Char
  text : List Char

/-- Replaces the character wherever it stands. -/
def Replacement.apply (r : Replacement) (s : List Char) : List Char :=
  s.flatMap fun c => if c = r.char then r.text else [c]

/-- Makes replacements one after the other. -/
def replaceAll (rs : List Replacement) (s : List Char) : List Char :=
  rs.foldl (fun s r => r.apply s) s

/-- What is replaced, in this order. Backslashes come first, as most of the
others write some. -/
def replacements : List Replacement := [
  ⟨'\\', ['\\', '\\']⟩,
  ⟨'"', ['\\', '"']⟩,
  ⟨'\n', ['\\', 'n']⟩,
  ⟨'\r', []⟩,
  ⟨'<', ['\\', '<']⟩,
  ⟨'>', ['\\', '>']⟩]

/-- What is written for a text between quotes. -/
def escape (s : String) : String := String.ofList (replaceAll replacements s.toList)

/-- The text as a DOT string. -/
def quoted (s : String) : String := "\"" ++ escape s ++ "\""

/-! ## Character by character -/

/-- How a character is written. -/
def escapeChar : Char → List Char
  | '\\' => ['\\', '\\']
  | '"' => ['\\', '"']
  | '\n' => ['\\', 'n']
  | '\r' => []
  | '<' => ['\\', '<']
  | '>' => ['\\', '>']
  | c => [c]

/-- A replacement looks at each character alone, and so does a row of them. -/
theorem replaceAll_eq_flatMap (rs : List Replacement) :
    ∀ s, replaceAll rs s = s.flatMap fun c => replaceAll rs [c] := by
  induction rs with
  | nil => simp [replaceAll]
  | cons r rs ih =>
    intro s
    have hstep : ∀ t, replaceAll (r :: rs) t = replaceAll rs (r.apply t) := fun _ => rfl
    have hchar : ∀ c, r.apply [c] = if c = r.char then r.text else [c] := by
      simp [Replacement.apply]
    simp only [hstep, hchar]
    rw [ih (r.apply s), Replacement.apply, List.flatMap_assoc]
    congr 1
    funext c
    exact (ih _).symm

theorem replaceAll_replacements (c : Char) : replaceAll replacements [c] = escapeChar c := by
  unfold escapeChar
  split
  -- a replaced character meets no later replacement of what is written for it
  · rfl
  · rfl
  · rfl
  · rfl
  · rfl
  · rfl
  · simp_all [replaceAll, replacements, Replacement.apply]

theorem escape_eq (s : String) : escape s = String.ofList (s.toList.flatMap escapeChar) := by
  rw [escape, replaceAll_eq_flatMap]
  simp only [replaceAll_replacements]

theorem escape_append (s t : String) : escape (s ++ t) = escape s ++ escape t := by
  simp [escape_eq, String.toList_append]

end FlowGraph.Dot
