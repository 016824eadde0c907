import CPrograms.Library.SlidingHole
import CPrograms.Library.ThreeRotation

/-!
# The fifteen puzzle as a sliding hole

The four-by-four grid with a hole, free of any program: a board says which cell's
tile lies where, the hole is the sixteenth tile. A board is reached from the
untouched one exactly when it is a permutation whose sign is the colour of its hole
(`reach_home_iff`).

For the direction that needs moves, the cells are read along a snake through the
rows. Moving the hole along the snake keeps the order of the tiles. The steps
between neighbouring rows next to a turn of the snake turn three tiles, those at its
far end seven, and together they turn any three neighbours on the snake.
-/

namespace CPrograms.Puzzle15

open Library Relation

instance sixteenNeZero : NeZero 16 := ⟨by decide⟩

/-- Cells in one row or one column, side by side. -/
def Adjacent (a b : Fin 16) : Prop :=
  (a.val / 4 = b.val / 4 ∧ (a.val % 4 + 1 = b.val % 4 ∨ b.val % 4 + 1 = a.val % 4)) ∨
    (a.val % 4 = b.val % 4 ∧ (a.val / 4 + 1 = b.val / 4 ∨ b.val / 4 + 1 = a.val / 4))

instance : DecidableRel Adjacent :=
  fun _ _ => inferInstanceAs (Decidable (_ ∨ _))

/-- Being adjacent goes both ways. -/
theorem adjacent_symm : ∀ a b, Adjacent a b → Adjacent b a := by
  decide

/-- The colours of a chess board. -/
def colour (cell : Fin 16) : ℤˣ :=
  if (cell.val % 4 + cell.val / 4) % 2 = 0 then 1 else -1

/-- Adjacent cells have different colours. -/
theorem colour_adjacent : ∀ a b, Adjacent a b → colour b = -colour a := by
  decide

/-- A board of the sixteen tiles, each named by the cell where it belongs. -/
abbrev Tiling := Holed (Fin 16) (Fin 16)

/-- The untouched board. -/
def home : Tiling :=
  ⟨id, 15⟩

/-- A tiling obtained by a permutation that brings the sixteenth tile to the hole and
has the sign the colour of the hole asks for. -/
def Fair (p : Tiling) : Prop :=
  ∃ σ : Equiv.Perm (Fin 16), p.board = σ ∧ σ p.hole = 15 ∧
    Equiv.Perm.sign σ = colour p.hole

/-- The cells row by row, every second row backwards. -/
def snake : List (Fin 16) :=
  [0, 1, 2, 3, 7, 6, 5, 4, 8, 9, 10, 11, 15, 14, 13, 12]

/-- The snake passes no cell twice. -/
theorem snake_nodup : snake.Nodup := by
  decide

/-- The snake passes every cell. -/
theorem mem_snake : ∀ cell, cell ∈ snake := by
  decide

/-- Places of the snake that lie side by side in the grid. -/
theorem snake_chord {i k : Nat} {a b : Fin 16} (first : snake[i]? = some a)
    (second : snake[i + k + 1]? = some b) (near : Adjacent a b) :
    Holed.Chord Adjacent snake i k :=
  Holed.chord_of_getElem? first second near (adjacent_symm a b near)

/-- The snake goes from a cell to an adjacent one. -/
theorem snake_path : Holed.IsPath Adjacent snake := by
  intro i bound
  have places : ∀ i : Fin 15, ∃ a b, snake[i.val]? = some a ∧ snake[i.val + 0 + 1]? = some b ∧
      Adjacent a b := by
    decide
  obtain ⟨a, b, first, second, near⟩ := places ⟨i, Nat.lt_of_succ_lt_succ bound⟩
  exact snake_chord first second near

/-! ## Turning three neighbours on the snake -/

section Turning

variable {α : Type} {row : Nat}

/-- The step at the far end of two rows turns the seven tiles between. -/
private theorem turnSeven (low : row ≤ 2) (front back : List α)
    (frontLength : front.length = 4 * row) (stretch : List α) (length : stretch.length = 7) :
    Holed.Linked Adjacent snake (front ++ (stretch ++ back))
      (front ++ (stretch.rotate 6 ++ back)) := by
  have chord : Holed.Chord Adjacent snake (4 * row) 6 := by
    have places : ∀ row : Fin 3, ∃ a b, snake[4 * row.val]? = some a ∧
        snake[4 * row.val + 6 + 1]? = some b ∧ Adjacent a b := by decide
    obtain ⟨a, b, first, second, near⟩ := places ⟨row, by omega⟩
    exact snake_chord first second near
  obtain ⟨middle, x, rfl⟩ : ∃ middle x, stretch = middle ++ [x] := by
    rcases List.eq_nil_or_concat stretch with rfl | ⟨middle, x, rfl⟩
    · simp at length
    · exact ⟨middle, x, List.concat_eq_append⟩
  have middleLength : middle.length = 6 := by simpa using length
  rw [← middleLength, List.rotate_append_length_eq, List.append_assoc]
  exact Holed.Linked.turn snake_nodup snake_path (by rwa [frontLength, middleLength])

/-- Repeated turns of the seven. -/
private theorem turnSevens (low : row ≤ 2) (front back : List α)
    (frontLength : front.length = 4 * row) (stretch : List α) (length : stretch.length = 7)
    (count : Nat) :
    Holed.Linked Adjacent snake (front ++ (stretch ++ back))
      (front ++ (stretch.rotate (6 * count) ++ back)) := by
  induction count with
  | zero =>
      rw [Nat.mul_zero, List.rotate_zero]
      exact .refl _
  | succ count ih =>
      have once := turnSeven low front back frontLength (stretch.rotate (6 * count))
        (by rw [List.length_rotate, length])
      rw [List.rotate_rotate] at once
      exact ih.trans once

/-- The step next to a turn of the snake turns three tiles. -/
private theorem turnThree (low : row ≤ 2) (front back : List α)
    (frontLength : front.length = 4 * row) (p q a b c d e : α) :
    Holed.Linked Adjacent snake (front ++ ([p, q, a, b, c, d, e] ++ back))
      (front ++ ([p, q, c, a, b, d, e] ++ back)) := by
  have chord : Holed.Chord Adjacent snake (4 * row + 2) 2 := by
    have places : ∀ row : Fin 3, ∃ a b, snake[4 * row.val + 2]? = some a ∧
        snake[4 * row.val + 2 + 2 + 1]? = some b ∧ Adjacent a b := by decide
    obtain ⟨a, b, first, second, near⟩ := places ⟨row, by omega⟩
    exact snake_chord first second near
  have turn : Holed.Linked Adjacent snake ((front ++ [p, q]) ++ ([a, b] ++ c :: d :: e :: back))
      ((front ++ [p, q]) ++ (c :: [a, b] ++ (d :: e :: back))) :=
    Holed.Linked.turn snake_nodup snake_path (by rwa [List.length_append, frontLength])
  simpa using turn

/-- Within the seven tiles of two rows any three neighbours can be turned: the seven
are turned until the three lie next to the turn of the snake, and then on. -/
private theorem turnWithin (low : row ≤ 2) (front back left right : List α)
    (frontLength : front.length = 4 * row) (lengths : left.length + right.length = 4) (a b c : α) :
    Holed.Linked Adjacent snake (front ++ ((left ++ a :: b :: c :: right) ++ back))
      (front ++ ((left ++ c :: a :: b :: right) ++ back)) := by
  have turns : ∀ stretch turned : List α, stretch.length = 7 → ∀ count,
      stretch.rotate (6 * count) = turned →
      Holed.Linked Adjacent snake (front ++ (stretch ++ back)) (front ++ (turned ++ back)) := by
    rintro stretch turned length count rfl
    exact turnSevens low front back frontLength stretch length count
  have three := turnThree low front back frontLength
  match left, right, lengths with
  | [], [d, e, f, g], _ =>
      exact (turns [a, b, c, d, e, f, g] _ rfl 2 (by simp)).trans
        ((three f g a b c d e).trans (turns _ [c, a, b, d, e, f, g] rfl 5 (by simp)))
  | [p], [d, e, f], _ =>
      exact (turns [p, a, b, c, d, e, f] _ rfl 1 (by simp)).trans
        ((three f p a b c d e).trans (turns _ [p, c, a, b, d, e, f] rfl 6 (by simp)))
  | [p, q], [d, e], _ => exact three p q a b c d e
  | [o, p, q], [d], _ =>
      exact (turns [o, p, q, a, b, c, d] _ rfl 6 (by simp)).trans
        ((three p q a b c d o).trans (turns _ [o, p, q, c, a, b, d] rfl 1 (by simp)))
  | [n, o, p, q], [], _ =>
      exact (turns [n, o, p, q, a, b, c] _ rfl 5 (by simp)).trans
        ((three p q a b c n o).trans (turns _ [n, o, p, q, c, a, b] rfl 2 (by simp)))
  | [_], _ :: _ :: _ :: _ :: _, wrong | [_, _], _ :: _ :: _ :: _, wrong
  | [_, _, _], _ :: _ :: _, wrong | [_, _, _, _], _ :: _, wrong
  | _ :: _ :: _ :: _ :: _ :: _, _, wrong =>
      simp only [List.length_cons, List.length_nil] at wrong
      omega

/-- Any three neighbours on the snake can be turned. -/
theorem linked_of_threeRotation {first second : List α} (length : first.length = 15)
    (step : ThreeRotation first second) : Holed.Linked Adjacent snake first second := by
  cases step with
  | rotate front a b c back =>
      simp only [List.length_append, List.length_cons] at length
      -- Two rows of the snake that contain the three tiles.
      obtain ⟨row, low, below, above⟩ : ∃ row ≤ 2, 4 * row ≤ front.length ∧
          front.length ≤ 4 * row + 4 := ⟨min (front.length / 4) 2, by omega, by omega, by omega⟩
      have turn := turnWithin low (front.take (4 * row)) (back.drop (4 * row + 4 - front.length))
        (front.drop (4 * row)) (back.take (4 * row + 4 - front.length))
        (by rw [List.length_take]; omega)
        (by rw [List.length_drop, List.length_take]; omega) a b c
      simp only [List.append_assoc, List.cons_append, List.take_append_drop] at turn
      simpa only [← List.append_assoc (front.take _), List.take_append_drop] using turn

/-- Rotations of three tiles can be made by slides. -/
theorem linked_of_threeRotations {first second : List α} (length : first.length = 15)
    (steps : ReflTransGen ThreeRotation first second) :
    Holed.Linked Adjacent snake first second := by
  induction steps with
  | refl => exact .refl _
  | tail earlier step ih =>
      have same := (ThreeRotation.reach_perm earlier).length_eq
      exact ih.trans (linked_of_threeRotation (by omega) step)

end Turning

/-! ## The reachable tilings -/

/-- Steps keep a tiling fair. -/
theorem Fair.reach {p q : Tiling} (fair : Fair p) (reach : Holed.Reach Adjacent p q) : Fair q := by
  obtain ⟨σ, board, hole, sign⟩ := fair
  obtain ⟨τ, moved, movedHole, movedSign⟩ := reach.arranged colour colour_adjacent
  refine ⟨σ * τ, ?_, ?_, ?_⟩
  · rw [moved, board]
    rfl
  · rw [Equiv.Perm.mul_apply, movedHole, hole]
  · rw [Equiv.Perm.sign_mul, sign, movedSign, ← mul_assoc, Int.units_mul_self, one_mul]

/-- The home position is fair. -/
theorem fair_home : Fair home :=
  ⟨1, rfl, rfl, by decide⟩

/-- The order of the tiles of the untouched board on the snake, but for the last two. -/
private def homeOrder : List (Fin 16) :=
  [0, 1, 2, 3, 7, 6, 5, 4, 8, 9, 10, 11, 14]

/-- The hole of a fair position is the last piece. -/
theorem Fair.board_hole {p : Tiling} (fair : Fair p) : p.board p.hole = 15 := by
  obtain ⟨σ, board, hole, -⟩ := fair
  rw [board, hole]

/-- A fair tiling is read along the snake as a rearrangement of the tiles. -/
private theorem Fair.reads {p : Tiling} (fair : Fair p) :
    ∃ before after, Holed.Reads snake p before after ∧
      (before ++ after).Perm (homeOrder ++ [13, 12]) := by
  obtain ⟨front, back, shape⟩ := List.append_of_mem (mem_snake p.hole)
  refine ⟨front.map p.board, back.map p.board, ⟨front, back, shape, rfl, rfl⟩, ?_⟩
  have whole : snake.map p.board = front.map p.board ++ 15 :: back.map p.board := by
    rw [shape, List.map_append, List.map_cons, fair.board_hole]
  obtain ⟨σ, board, -, -⟩ := fair
  have rearranged : (snake.map p.board).Perm snake := by
    rw [board]
    apply (List.perm_ext_iff_of_nodup (snake_nodup.map σ.injective) snake_nodup).mpr
    intro tile
    refine iff_of_true ?_ (mem_snake tile)
    exact List.mem_map.mpr ⟨σ.symm tile, mem_snake _, σ.apply_symm_apply tile⟩
  have start : snake.Perm (15 :: (homeOrder ++ [13, 12])) := by decide
  rw [whole] at rearranged
  exact (List.perm_middle.symm.trans (rearranged.trans start)).cons_inv

/-- Twelve tiles before the hole put it on the last cell, and the rest of the board is
what is read. -/
private theorem board_of_reads {p : Tiling} {before after : List (Fin 16)}
    (board : Fin 16 → Fin 16) (fair : Fair p) (reads : Holed.Reads snake p before after)
    (length : before.length = 12) (same : before ++ 15 :: after = snake.map board) :
    p = ⟨board, 15⟩ := by
  obtain ⟨front, back, shape, rfl, rfl⟩ := reads
  have whole : snake.map p.board = snake.map board := by
    rw [← same, shape, List.map_append, List.map_cons, fair.board_hole]
  have hole : p.hole = 15 := by
    have place : snake[12]? = some p.hole := by
      rw [shape, List.getElem?_append_right (by simpa using length.le), show 12 - front.length = 0
        by rw [List.length_map] at length; omega]
      rfl
    exact (Option.some.inj place).symm
  apply Holed.ext
  · funext cell
    exact List.map_inj_left.mp whole cell (mem_snake cell)
  · exact hole

/-- Every fair tiling reaches the untouched board. -/
theorem Fair.reach_home {p : Tiling} (fair : Fair p) : Holed.Reach Adjacent p home := by
  obtain ⟨before, after, reads, rearranged⟩ := fair.reads
  have length : (before ++ after).length = 15 := rearranged.length_eq
  -- Bring the tiles into one of the two possible orders, then the hole to its cell.
  have settle : ∀ order : List (Fin 16), ReflTransGen ThreeRotation (before ++ after) order →
      ∃ q, Holed.Reach Adjacent p q ∧ Fair q ∧
        Holed.Reads snake q (order.take 12) (order.drop 12) := by
    intro order steps
    obtain ⟨q, before', after', reach, qReads, same⟩ :=
      linked_of_threeRotations length steps p before after reads rfl
    obtain ⟨final, onward, finalReads⟩ := qReads.moveTo snake_nodup snake_path
      ((List.take_append_drop 12 order).trans same.symm)
    exact ⟨final, reach.trans onward, fair.reach (reach.trans onward), finalReads⟩
  rcases ThreeRotation.reach_of_perm rearranged with straight | crossed
  · obtain ⟨q, reach, qFair, qReads⟩ := settle _ straight
    have same := board_of_reads id qFair qReads rfl (by decide)
    rw [same] at reach
    exact reach
  · obtain ⟨q, -, qFair, qReads⟩ := settle _ crossed
    have same := board_of_reads (Equiv.swap 12 13) qFair qReads rfl (by decide)
    -- One exchange on the untouched board has the wrong sign.
    subst same
    obtain ⟨σ, board, -, sign⟩ := qFair
    have exchange : σ = Equiv.swap 12 13 := Equiv.coe_fn_injective board.symm
    rw [exchange, Equiv.Perm.sign_swap (by decide)] at sign
    exact absurd sign (by decide)

/-- **The reachable boards of the fifteen puzzle.** -/
theorem reach_home_iff (p : Tiling) : Holed.Reach Adjacent home p ↔ Fair p :=
  ⟨fair_home.reach, fun fair => fair.reach_home.symm adjacent_symm⟩

end CPrograms.Puzzle15
