import Mathlib.Data.List.Basic
import Primer.Text.Lines

/-!
# Lines joined again

A text is empty, or a last line that no newline ends, or a line with its newline and the text after
it (`lineInduction`). Splitting goes by this order: it gives the last line back as it is
(`splitLines_last`), and a line that is ended without the carriage return at its end, if there is
one (`splitLines_ended`). How many lines there are, and that they can be joined to the text again,
follows from these two.
-/

namespace Primer.Text

/-- Whatever holds of no text at all, of a last line and of a line before a text is true of every
text. -/
@[elab_as_elim]
theorem lineInduction {motive : List Char → Prop} (chars : List Char) (nil : motive [])
    (last : ∀ line, line ≠ [] → '\n' ∉ line → motive line)
    (ended : ∀ line rest, '\n' ∉ line → motive rest → motive (line ++ '\n' :: rest)) :
    motive chars := by
  induction hlength : chars.length using Nat.strongRecOn generalizing chars with
  | ind length ih =>
    subst hlength
    by_cases divided : '\n' ∈ chars
    · obtain ⟨line, rest, rfl, hline⟩ := List.eq_append_cons_of_mem divided
      refine ended line rest hline (ih rest.length ?_ rest rfl)
      rw [List.length_append, List.length_cons]
      omega
    · by_cases empty : chars = []
      · exact empty ▸ nil
      · exact last chars empty divided

/-- A line without the carriage return at its end. -/
def withoutReturn (line : List Char) : List Char :=
  if line.getLast? = some '\r' then line.dropLast else line

theorem withoutReturn_cons {char : Char} {line : List Char} (more : line ≠ []) :
    withoutReturn (char :: line) = char :: withoutReturn line := by
  obtain ⟨next, line, rfl⟩ := List.exists_cons_of_ne_nil more
  unfold withoutReturn
  rw [List.getLast?_cons_cons]
  split <;> rfl

/-- A character that belongs to a line stands at its front. -/
theorem splitLines_cons {char : Char} {rest line : List Char} {lines : List (List Char)}
    (visible : char ≠ '\n') (kept : ¬ (char = '\r' ∧ rest.head? = some '\n'))
    (split : splitLines rest = line :: lines) :
    splitLines (char :: rest) = (char :: line) :: lines := by
  rw [splitLines, if_neg visible, if_neg kept, split]

/-- A last line without a newline stays as it is, with a carriage return if it ends in one. -/
theorem splitLines_last {line : List Char} (some : line ≠ []) (undivided : '\n' ∉ line) :
    splitLines line = [line] := by
  induction line with
  | nil => exact absurd rfl some
  | cons char line ih =>
    have hvisible : char ≠ '\n' := fun same => undivided (same ▸ List.mem_cons_self)
    have hline : '\n' ∉ line := fun hmem => undivided (List.mem_cons_of_mem _ hmem)
    have hkept : ¬ (char = '\r' ∧ line.head? = .some '\n') :=
      fun h => hline (List.mem_of_mem_head? h.2)
    by_cases last : line = []
    · subst last
      rw [splitLines, if_neg hvisible, if_neg hkept]
      rfl
    · exact splitLines_cons hvisible hkept (ih last hline)

/-- A line that is ended by a newline comes off without it, and without a carriage return before
it. -/
theorem splitLines_ended {line : List Char} (undivided : '\n' ∉ line) (rest : List Char) :
    splitLines (line ++ '\n' :: rest) = withoutReturn line :: splitLines rest := by
  induction line with
  | nil => rfl
  | cons char line ih =>
    have hvisible : char ≠ '\n' := fun same => undivided (same ▸ List.mem_cons_self)
    have hline : '\n' ∉ line := fun hmem => undivided (List.mem_cons_of_mem _ hmem)
    by_cases last : line = []
    · -- The character stands directly before the newline: only a carriage return is dropped.
      subst last
      by_cases hreturn : char = '\r'
      · subst hreturn
        rfl
      · have hkept : ¬ (char = '\r' ∧ ('\n' :: rest).head? = some '\n') := fun h => hreturn h.1
        have hwithout : withoutReturn [char] = [char] := if_neg (by simpa using hreturn)
        rw [hwithout]
        exact splitLines_cons hvisible hkept rfl
    · have hkept : ¬ (char = '\r' ∧ (line ++ '\n' :: rest).head? = some '\n') := by
        rintro ⟨-, hhead⟩
        obtain ⟨next, line, rfl⟩ := List.exists_cons_of_ne_nil last
        exact hline (Option.some.inj hhead ▸ List.mem_cons_self)
      rw [withoutReturn_cons last]
      exact splitLines_cons hvisible hkept (ih hline)

theorem splitLines_eq_nil_iff {chars : List Char} : splitLines chars = [] ↔ chars = [] := by
  induction chars using lineInduction with
  | nil => exact ⟨fun _ => rfl, fun _ => rfl⟩
  | last line hsome hline => simp [splitLines_last hsome hline, hsome]
  | ended line rest hline _ => simp [splitLines_ended hline]

theorem getLast?_ended (line : List Char) {rest : List Char} (more : rest ≠ []) :
    (line ++ '\n' :: rest).getLast? = rest.getLast? := by
  rw [List.append_cons, List.getLast?_append_of_ne_nil _ more]

/-- There are as many lines as newlines, and one more if the text goes on behind the last one. -/
theorem length_splitLines (chars : List Char) :
    (splitLines chars).length =
      chars.count '\n' + if chars ≠ [] ∧ chars.getLast? ≠ some '\n' then 1 else 0 := by
  induction chars using lineInduction with
  | nil => rfl
  | last line hsome hline =>
    have hlast : line.getLast? ≠ some '\n' := fun h => hline (List.mem_of_getLast? h)
    rw [splitLines_last hsome hline, List.count_eq_zero_of_not_mem hline, if_pos ⟨hsome, hlast⟩]
    rfl
  | ended line rest hline ih =>
    rw [splitLines_ended hline, List.length_cons, ih, List.count_append, List.count_cons_self,
      List.count_eq_zero_of_not_mem hline]
    by_cases none : rest = []
    · subst none
      simp
    · rw [getLast?_ended line none]
      simp only [none, ne_eq, not_false_eq_true, true_and, List.append_eq_nil_iff, reduceCtorEq,
        and_false]
      omega

/-- Joined by newlines, the lines give the text back, if no newline follows a carriage return; a
newline at the very end is to be added. -/
theorem intercalate_splitLines {chars : List Char} (plain : ¬ ['\r', '\n'] <:+: chars) :
    ['\n'].intercalate (splitLines chars) ++ (if chars.getLast? = some '\n' then ['\n'] else []) =
      chars := by
  induction chars using lineInduction with
  | nil => rfl
  | last line hsome hline =>
    have hlast : line.getLast? ≠ some '\n' := fun h => hline (List.mem_of_getLast? h)
    rw [splitLines_last hsome hline, if_neg hlast, List.intercalate_singleton, List.append_nil]
  | ended line rest hline ih =>
    have hrest : ¬ ['\r', '\n'] <:+: rest := by
      intro h
      refine plain (h.trans ?_)
      rw [List.append_cons]
      exact (List.suffix_append _ _).isInfix
    have hreturn : line.getLast? ≠ some '\r' := by
      intro h
      obtain ⟨front, rfl⟩ := List.getLast?_eq_some_iff.1 h
      exact plain ⟨front, rest, by simp⟩
    rw [splitLines_ended hline, withoutReturn, if_neg hreturn]
    by_cases none : rest = []
    · subst none
      simp [splitLines]
    · have hmore : splitLines rest ≠ [] := mt splitLines_eq_nil_iff.1 none
      rw [getLast?_ended line none, List.intercalate_cons_of_ne_nil hmore, List.append_assoc,
        List.append_assoc, ih hrest]
      rfl

/-- Lines that have no newline and no carriage return at their end come back when each was ended
by a newline. -/
theorem splitLines_flatMap {lines : List (List Char)}
    (proper : ∀ line ∈ lines, '\n' ∉ line ∧ line.getLast? ≠ some '\r') :
    splitLines (lines.flatMap (· ++ ['\n'])) = lines := by
  induction lines with
  | nil => rfl
  | cons line lines ih =>
    obtain ⟨hline, hreturn⟩ := proper line List.mem_cons_self
    rw [List.flatMap_cons, List.append_assoc, List.singleton_append, splitLines_ended hline,
      ih fun other hother => proper other (List.mem_cons_of_mem _ hother), withoutReturn,
      if_neg hreturn]

/-! ## Lines of strings -/

theorem map_toList_lines (text : String) :
    (lines text).map String.toList = splitLines text.toList := by
  rw [lines, List.map_map]
  exact (List.map_congr_left fun _ _ => String.toList_ofList).trans (List.map_id _)

theorem newline_not_mem_lines {text line : String} (member : line ∈ lines text) :
    '\n' ∉ line.toList := by
  have hline : line.toList ∈ splitLines text.toList := by
    rw [← map_toList_lines]
    exact List.mem_map_of_mem member
  exact newline_not_mem_splitLines hline

/-- There are as many lines as newlines, and one more if something comes after the last newline. -/
theorem length_lines (text : String) :
    (lines text).length =
      text.toList.count '\n' +
        if text.toList ≠ [] ∧ text.toList.getLast? ≠ some '\n' then 1 else 0 := by
  rw [← length_splitLines, lines, List.length_map]

/-- Joining the lines gives the text back if no carriage return was dropped from it. -/
theorem join_lines {text : String} (plain : ¬ ['\r', '\n'] <:+: text.toList) :
    "\n".intercalate (lines text) ++ (if text.toList.getLast? = some '\n' then "\n" else "") =
      text := by
  rw [← String.toList_inj, String.toList_append, String.toList_intercalate, map_toList_lines,
    apply_ite String.toList]
  exact intercalate_splitLines plain

/-- Lines that were each ended by a newline come back. -/
theorem lines_join {texts : List String}
    (proper : ∀ text ∈ texts, '\n' ∉ text.toList ∧ text.toList.getLast? ≠ some '\r') :
    lines (String.join (texts.map (· ++ "\n"))) = texts := by
  have hchars : (String.join (texts.map (· ++ "\n"))).toList =
      (texts.map String.toList).flatMap (· ++ ['\n']) := by
    simp [String.toList_join, List.flatMap_map]
  have hproper : ∀ line ∈ texts.map String.toList, '\n' ∉ line ∧ line.getLast? ≠ some '\r' := by
    intro line hline
    obtain ⟨text, htext, rfl⟩ := List.mem_map.1 hline
    exact proper text htext
  rw [lines, hchars, splitLines_flatMap hproper, List.map_map]
  exact (List.map_congr_left fun _ _ => String.ofList_toList).trans (List.map_id _)

end Primer.Text
