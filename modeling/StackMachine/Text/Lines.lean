/-!
# Lines

A text as the list of its lines. Every newline ends a line, so a text with `n` newlines has
`n + 1` lines, the last of which may be empty. A carriage return is no line end: in front of a
newline it is a blank at the end of the line.
-/

namespace StackMachine.Text

/-- The lines of a text that follows the characters `line`, given last one first. -/
def linesAfter : List Char → List Char → List (List Char)
  | line, [] => [line.reverse]
  | line, c :: rest =>
    if c = '\n' then line.reverse :: linesAfter [] rest else linesAfter (c :: line) rest

/-- The lines of a text, without their newlines. -/
def lines (cs : List Char) : List (List Char) := linesAfter [] cs

/-- The text that has the given lines. -/
def unlines (ls : List (List Char)) : List Char := ['\n'].intercalate ls

theorem linesAfter_eq_append (line cs : List Char) :
    ∃ first rest, lines cs = first :: rest ∧
      linesAfter line cs = (line.reverse ++ first) :: rest := by
  suffices h : ∀ (cs line prior : List Char), ∃ first rest,
      linesAfter prior cs = (prior.reverse ++ first) :: rest ∧
        linesAfter line cs = (line.reverse ++ first) :: rest by
    simpa [lines] using h cs line []
  intro cs
  induction cs with
  | nil => intro line prior; exact ⟨[], [], by simp [linesAfter]⟩
  | cons c cs ih =>
    intro line prior
    by_cases hc : c = '\n'
    · exact ⟨[], linesAfter [] cs, by simp [linesAfter, hc]⟩
    · obtain ⟨first, rest, hp, hl⟩ := ih (c :: line) (c :: prior)
      exact ⟨c :: first, rest, by simp [linesAfter, hc, hp], by simp [linesAfter, hc, hl]⟩

@[simp] theorem lines_nil : lines [] = [[]] := rfl

@[simp] theorem lines_newline (cs : List Char) : lines ('\n' :: cs) = [] :: lines cs := by
  simp [lines, linesAfter]

theorem lines_cons {c : Char} (hc : c ≠ '\n') (cs : List Char) :
    ∃ first rest, lines cs = first :: rest ∧ lines (c :: cs) = (c :: first) :: rest := by
  obtain ⟨first, rest, h, h'⟩ := linesAfter_eq_append [c] cs
  exact ⟨first, rest, h, by simpa [lines, linesAfter, hc] using h'⟩

end StackMachine.Text
