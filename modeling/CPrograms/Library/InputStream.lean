import CPrograms.Library.StdString

/-!
# Input streams with their flags

What is left of the text behind a stream, and the two bits of its state that reading a
file can set. `getline` on a stream that is not good extracts nothing and sets `failbit`;
reaching the end sets `eofbit`, and `failbit` too if nothing was extracted.
-/

namespace CPrograms.Library

universe u

/-- A stream over the rest of a text. -/
structure InputStream (α : Type u) where
  rest : List α
  eof : Bool
  fail : Bool

namespace InputStream

variable {α : Type u} [DecidableEq α]

/-- A file that was opened, or one that could not be: that sets `failbit` alone. -/
def ofFile : Option (List α) → InputStream α
  | some text => ⟨text, false, false⟩
  | none => ⟨[], false, true⟩

/-- `getline(in, str)`: the line, if the stream tests true afterwards, and the stream. -/
def getline (newline : α) (stream : InputStream α) : Option (List α) × InputStream α :=
  if stream.eof ∨ stream.fail then (none, { stream with fail := true })
  else if stream.rest = [] then (none, ⟨[], true, true⟩)
  else if newline ∈ stream.rest then
    (some (stream.rest.takeWhile (· ≠ newline)),
      { stream with rest := (stream.rest.dropWhile (· ≠ newline)).tail })
  else (some stream.rest, ⟨[], true, false⟩)

variable {newline : α}

/-- At the end of the stream reading fails. -/
theorem getline_eof (rest : List α) (fail : Bool) :
    getline newline ⟨rest, true, fail⟩ = (none, ⟨rest, true, true⟩) := rfl

/-- A stream that failed is not read. -/
theorem getline_fail (rest : List α) (eof : Bool) :
    getline newline ⟨rest, eof, true⟩ = (none, ⟨rest, eof, true⟩) := by
  rw [getline, if_pos (.inr rfl)]

/-- Reading an empty stream finds its end and fails. -/
theorem getline_empty : getline newline ⟨[], false, false⟩ = (none, ⟨[], true, true⟩) := rfl

/-- A line is read without its newline, which is gone as well. -/
theorem getline_line {line : List α} (unended : newline ∉ line) (text : List α) :
    getline newline ⟨line ++ newline :: text, false, false⟩ =
      (some line, ⟨text, false, false⟩) := by
  rw [getline, if_neg (by simp), if_neg (by simp), if_pos (by simp)]
  simp only [StdString.takeWhile_append unended, StdString.dropWhile_append unended, List.tail_cons]

/-- A last line without newline is read up to the end of the stream. -/
theorem getline_last {last : List α} (unended : newline ∉ last) (nonempty : last ≠ []) :
    getline newline ⟨last, false, false⟩ = (some last, ⟨[], true, false⟩) := by
  rw [getline, if_neg (by simp), if_neg nonempty, if_neg unended]

end InputStream

end CPrograms.Library
