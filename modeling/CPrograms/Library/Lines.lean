import CPrograms.Library.StdString

/-!
# Lines of a text

A text falls into the lines that a newline ends and a rest without newline. `getline`
takes the first line off a text together with its newline; induction over the lines
follows its calls.
-/

namespace CPrograms.Library.Lines

universe u

variable {α : Type u} [DecidableEq α] (newline : α)

/-- The lines a newline ends, and what stands behind the last newline. -/
def split : List α → List (List α) × List α
  | [] => ([], [])
  | a :: text =>
      if a = newline then ([] :: (split text).1, (split text).2)
      else
        match split text with
        | ([], last) => ([], a :: last)
        | (line :: lines, last) => ((a :: line) :: lines, last)

/-- All lines of a text: a last line may lack its newline, but is not empty then. -/
def lines (text : List α) : List (List α) :=
  (split newline text).1 ++ if (split newline text).2 = [] then [] else [(split newline text).2]

/-- The first line with its newline, if it has one, and the text behind it. -/
def getline (text : List α) : Option (List α × List α) :=
  if text.isEmpty then none
  else
    let line := text.takeWhile (· ≠ newline)
    some (line ++ (text.drop line.length).take 1, text.drop (line.length + 1))

variable {newline}

/-- A text without newline has no line that is ended. -/
theorem split_last {last : List α} (unended : newline ∉ last) :
    split newline last = ([], last) := by
  induction last with
  | nil => rfl
  | cons a last ih =>
      rw [List.mem_cons, not_or] at unended
      obtain ⟨other, unended⟩ := unended
      rw [split, if_neg fun same => other same.symm, ih unended]

/-- A line and its newline are split off the front of a text. -/
theorem split_line {line : List α} (unended : newline ∉ line) (text : List α) :
    split newline (line ++ newline :: text) =
      (line :: (split newline text).1, (split newline text).2) := by
  induction line with
  | nil => rw [List.nil_append, split, if_pos rfl]
  | cons a line ih =>
      rw [List.mem_cons, not_or] at unended
      obtain ⟨other, unended⟩ := unended
      rw [List.cons_append, split, if_neg fun same => other same.symm, ih unended]

/-- There is no line in nothing. -/
theorem lines_nil : lines newline ([] : List α) = [] := rfl

/-- A text without newline is one line. -/
theorem lines_last {last : List α} (unended : newline ∉ last) (nonempty : last ≠ []) :
    lines newline last = [last] := by
  rw [lines, split_last unended, if_neg nonempty, List.nil_append]

/-- A line and its newline are the first line of a text. -/
theorem lines_line {line : List α} (unended : newline ∉ line) (text : List α) :
    lines newline (line ++ newline :: text) = line :: lines newline text := by
  rw [lines, split_line unended]
  rfl

/-- Induction over the lines of a text. -/
theorem lines_induction (newline : α) {motive : List α → Prop}
    (last : ∀ text, newline ∉ text → motive text)
    (line : ∀ line text, newline ∉ line → motive text → motive (line ++ newline :: text))
    (text : List α) : motive text := by
  induction size : text.length using Nat.strongRecOn generalizing text with
  | ind _ ih =>
      by_cases ended : newline ∈ text
      · obtain ⟨front, rest, rfl, unended⟩ := List.eq_append_cons_of_mem ended
        refine line front rest unended (ih rest.length ?_ rest rfl)
        rw [← size, List.length_append, List.length_cons]
        omega
      · exact last text ended

/-- A line is taken off with its newline. -/
theorem getline_line {line : List α} (unended : newline ∉ line) (text : List α) :
    getline newline (line ++ newline :: text) = some (line ++ [newline], text) := by
  have nonempty : (line ++ newline :: text).isEmpty = false := by simp
  rw [getline, nonempty, StdString.takeWhile_append unended]
  simp

/-- A text without newline is taken as a whole. -/
theorem getline_last {last : List α} (unended : newline ∉ last) (nonempty : last ≠ []) :
    getline newline last = some (last, []) := by
  have nonempty : last.isEmpty = false := by simpa using nonempty
  rw [getline, nonempty, StdString.takeWhile_of_notMem unended]
  simp

/-- What is left is shorter. -/
theorem getline_shorter {text line rest : List α}
    (got : getline newline text = some (line, rest)) : rest.length < text.length := by
  unfold getline at got
  split at got
  · cases got
  · next nonempty =>
      cases got
      have positive : 0 < text.length := by
        rw [List.length_pos_iff]
        simpa using nonempty
      rw [List.length_drop]
      omega

end CPrograms.Library.Lines
