/-!
# Lines of a text

A line ends at a newline, or at a carriage return directly followed by a newline; neither belongs to
the line. A newline at the very end begins no further line, and a carriage return elsewhere is a
character like any other.
-/

namespace Primer.Text

/-- The lines of a list of characters. -/
def splitLines : List Char → List (List Char)
  | [] => []
  | char :: rest =>
    if char = '\n' then
      [] :: splitLines rest
    else if char = '\r' ∧ rest.head? = some '\n' then
      splitLines rest
    else
      match splitLines rest with
      | [] => [[char]]
      | line :: lines => (char :: line) :: lines

/-- The lines of a text. -/
def lines (text : String) : List String := (splitLines text.toList).map String.ofList

/-- No line has a newline in it. -/
theorem newline_not_mem_splitLines {chars line : List Char} (member : line ∈ splitLines chars) :
    '\n' ∉ line := by
  induction chars generalizing line with
  | nil => simp [splitLines] at member
  | cons char rest ih =>
    simp only [splitLines] at member
    split at member
    · rcases List.mem_cons.1 member with rfl | later
      · simp
      · exact ih later
    · rename_i visible
      split at member
      · exact ih member
      · split at member <;> rename_i tail
        · simp only [List.mem_singleton] at member
          subst member
          simpa using Ne.symm visible
        · rcases List.mem_cons.1 member with rfl | later
          · simp only [List.mem_cons, not_or]
            exact ⟨Ne.symm visible, ih (by simp [tail])⟩
          · exact ih (by simp [tail, later])

end Primer.Text
