import CPrograms.Puzzle15.Grid

/-!
# The board array

Both puzzle programs keep their tiles in an `int[16]`, `0` being the blank, beside the
column and the row of the blank. An access outside the array has no value. A tiling is
shown as such an array by numbering the places of the solved board.
-/

namespace CPrograms.Puzzle15

open CPrograms.Library

/-- `int brd[16]`. -/
abbrev Board := Fin 16 → Int

/-- The cell an array index denotes, if it lies in the array. -/
def index? (i : Int) : Option (Fin 16) :=
  if range : 0 ≤ i ∧ i < 16 then some ⟨i.toNat, by omega⟩ else none

/-- The board the initial loop fills: `1..15` and then `0`. -/
def solvedBoard : Board := fun i => if i = 15 then 0 else (i : Nat) + 1

/-- `brd[t] = brd[s]; brd[s] = 0;` -/
def shiftTile (brd : Board) (t s : Int) : Option Board := do
  let blank ← index? t
  let tile ← index? s
  let brd := Function.update brd blank (brd tile)
  some (Function.update brd tile 0)

/-- No tile is on the solved board twice. -/
theorem solvedBoard_injective : Function.Injective solvedBoard := by
  unfold Function.Injective
  decide

/-- The hole of the solved board is its last cell. -/
theorem solvedBoard_eq_zero {i : Fin 16} (zero : solvedBoard i = 0) : i = 15 :=
  solvedBoard_injective zero

/-- The column of a cell, as the programs count it. -/
def column (cell : Fin 16) : Int := (cell : Nat) % 4

/-- The row of a cell. -/
def row (cell : Fin 16) : Int := (cell : Nat) / 4

/-- The index of a cell, from its column and row. -/
theorem index?_cell (cell : Fin 16) : index? (column cell + row cell * 4) = some cell := by
  revert cell
  decide

/-- The column and row of a cell, from its index. -/
theorem cell_of_index? {x y : Int} {cell : Fin 16} (xRange : 0 ≤ x ∧ x ≤ 3)
    (at? : index? (x + y * 4) = some cell) : x = column cell ∧ y = row cell := by
  unfold index? at at?
  split at at?
  · rename_i range
    cases at?
    simp only [column, row]
    omega
  · cases at?

/-- The array a tiling shows. -/
def shown (p : Tiling) : Board := fun i => solvedBoard (p.board i)

/-- The hole is shown as zero. -/
theorem shown_hole {p : Tiling} (fair : Fair p) : shown p p.hole = 0 := by
  rw [shown, fair.board_hole]
  rfl

/-- No tile is shown twice. -/
theorem shown_injective {p : Tiling} (fair : Fair p) : Function.Injective (shown p) := by
  obtain ⟨σ, board, -, -⟩ := fair
  intro a b same
  have same := solvedBoard_injective same
  rw [board] at same
  exact σ.injective same

/-- Shifting a tile into the blank shows the slide of the hole. -/
theorem shiftTile_shown {p : Tiling} (fair : Fair p) (cell : Fin 16) :
    shiftTile (shown p) (column p.hole + row p.hole * 4) (column cell + row cell * 4) =
      some (shown (p.slide cell)) := by
  simp only [shiftTile, index?_cell, Option.bind_eq_bind, Option.bind_some]
  congr 1
  funext i
  by_cases atCell : i = cell
  · subst atCell
    have blank := shown_hole fair
    simpa only [Function.update_self, shown, Holed.slide, Function.comp_apply,
      Equiv.swap_apply_right] using blank.symm
  · rw [Function.update_of_ne atCell]
    by_cases atHole : i = p.hole
    · subst atHole
      simp only [Function.update_self, shown, Holed.slide, Function.comp_apply,
        Equiv.swap_apply_left]
    · rw [Function.update_of_ne atHole]
      simp only [shown, Holed.slide, Function.comp_apply,
        Equiv.swap_apply_of_ne_of_ne atHole atCell]

/-- A fair tiling with the first fifteen tiles in place shows the solved board. -/
theorem shown_eq_solvedBoard_of_front {p : Tiling} (fair : Fair p)
    (front : ∀ i : Fin 16, i ≠ 15 → shown p i = (i : Nat) + 1) : shown p = solvedBoard := by
  have inPlace : ∀ i : Fin 16, i ≠ 15 → p.board i = i := by
    intro i early
    apply solvedBoard_injective
    have tile : solvedBoard i = (i : Nat) + 1 := if_neg early
    rw [tile]
    exact front i early
  have hole : p.hole = 15 := by
    by_contra early
    have blank := fair.board_hole
    rw [inPlace _ early] at blank
    exact early blank
  funext i
  by_cases last : i = 15
  · rw [last, ← hole, shown_hole fair, hole]
    rfl
  · rw [shown, inPlace i last]

end CPrograms.Puzzle15
