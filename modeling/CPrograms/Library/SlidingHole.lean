import Mathlib.GroupTheory.Perm.Sign
import Mathlib.Logic.Relation

/-!
# A hole sliding over a graph

Boards indexed by the vertices of a graph with one vertex marked as the hole. A
step exchanges the hole with the content of a neighbouring vertex. Over a graph
with two colours the colour of the hole fixes the sign of every rearrangement that
steps can produce (`Holed.Reach.arranged`).

The second half reads a board along a list of vertices. Along consecutive
neighbours the hole moves without disturbing the order of the other contents, so
what can be done is a relation on that order alone (`Holed.Linked`); a step between
vertices further apart on the list turns the stretch between them by one place.
-/

namespace CPrograms.Library

open Relation

universe u v

/-- Contents on the vertices of a graph, one vertex being the hole. -/
@[ext] structure Holed (V : Type u) (α : Type v) where
  board : V → α
  hole : V

namespace Holed

variable {V : Type u} {α : Type v} [DecidableEq V]

/-- Exchange the hole with the content of a vertex. -/
def slide (p : Holed V α) (cell : V) : Holed V α :=
  ⟨p.board ∘ Equiv.swap p.hole cell, cell⟩

/-- A slide to a neighbour of the hole. -/
def Step (adjacent : V → V → Prop) (p q : Holed V α) : Prop :=
  ∃ cell, adjacent p.hole cell ∧ q = p.slide cell

/-- Any number of steps. -/
def Reach (adjacent : V → V → Prop) : Holed V α → Holed V α → Prop :=
  ReflTransGen (Step adjacent)

variable {adjacent : V → V → Prop}

/-- The hole moves to the cell whose tile slides. -/
@[simp] theorem slide_hole (p : Holed V α) (cell : V) : (p.slide cell).hole = cell := rfl

/-- Sliding back undoes a slide. -/
theorem slide_slide (p : Holed V α) (cell : V) : (p.slide cell).slide p.hole = p := by
  apply Holed.ext
  · funext v
    simp only [slide, Function.comp_apply]
    rw [Equiv.swap_comm cell p.hole, Equiv.swap_apply_self]
  · rfl

/-- A slide can be taken back. -/
theorem Step.symm (symmetric : ∀ a b, adjacent a b → adjacent b a) {p q : Holed V α}
    (step : Step adjacent p q) : Step adjacent q p := by
  obtain ⟨cell, near, rfl⟩ := step
  exact ⟨p.hole, symmetric _ _ near, (p.slide_slide cell).symm⟩

/-- Slides can be taken back. -/
theorem Reach.symm (symmetric : ∀ a b, adjacent a b → adjacent b a) {p q : Holed V α}
    (reach : Reach adjacent p q) : Reach adjacent q p := by
  induction reach with
  | refl => exact .refl
  | tail _ step ih => exact .head (step.symm symmetric) ih

/-- **The colour of the hole fixes the sign.** Where neighbours have opposite colours,
every board reached is a rearrangement of the first one whose sign is the product of
the colours of the two holes. -/
theorem Reach.arranged [Fintype V] (colour : V → ℤˣ)
    (bipartite : ∀ a b, adjacent a b → colour b = -colour a) {p q : Holed V α}
    (reach : Reach adjacent p q) :
    ∃ σ : Equiv.Perm V, q.board = p.board ∘ σ ∧ σ q.hole = p.hole ∧
      Equiv.Perm.sign σ = colour p.hole * colour q.hole := by
  induction reach with
  | refl =>
      refine ⟨1, rfl, rfl, ?_⟩
      rw [Equiv.Perm.sign_one, Int.units_mul_self]
  | @tail q next _ step ih =>
      obtain ⟨σ, board, hole, sign⟩ := ih
      obtain ⟨cell, near, rfl⟩ := step
      have flipped := bipartite _ _ near
      have different : q.hole ≠ cell := by
        intro same
        rw [← same] at flipped
        rcases Int.units_eq_one_or (colour q.hole) with light | dark
        · rw [light] at flipped
          exact absurd flipped (by decide)
        · rw [dark] at flipped
          exact absurd flipped (by decide)
      refine ⟨σ * Equiv.swap q.hole cell, ?_, ?_, ?_⟩
      · funext v
        simp only [slide, board, Function.comp_apply, Equiv.Perm.mul_apply]
      · simp only [slide_hole, Equiv.Perm.mul_apply, Equiv.swap_apply_right, hole]
      · rw [Equiv.Perm.sign_mul, Equiv.Perm.sign_swap different, sign, slide_hole, flipped,
          mul_neg, mul_neg, mul_one]

/-! ## Reading along a list of vertices -/

variable (adjacent) (cells : List V)

/-- The contents before and after the hole along the list. -/
def Reads (p : Holed V α) (before after : List α) : Prop :=
  ∃ front back, cells = front ++ p.hole :: back ∧
    front.map p.board = before ∧ back.map p.board = after

/-- The vertices at place `i` and `k` places beyond the next one are neighbours. -/
def Chord (i k : Nat) : Prop :=
  ∃ front a middle b back, cells = front ++ a :: (middle ++ b :: back) ∧
    front.length = i ∧ middle.length = k ∧ adjacent a b ∧ adjacent b a

variable {adjacent} {cells}

private theorem map_comp_swap_of_notMem {list : List V} {a b : V} (f : V → α) (outA : a ∉ list)
    (outB : b ∉ list) : list.map (f ∘ Equiv.swap a b) = list.map f := by
  apply List.map_congr_left
  intro v member
  rw [Function.comp_apply, Equiv.swap_apply_of_ne_of_ne]
  · rintro rfl
    exact outA member
  · rintro rfl
    exact outB member

/-- The contents of three stretches of a list around two of its vertices, after the
contents of these two were exchanged. -/
private theorem map_exchanged (f : V → α) {front middle back : List V} {a b : V}
    (nodup : (front ++ a :: (middle ++ b :: back)).Nodup) :
    front.map (f ∘ Equiv.swap a b) = front.map f ∧
      middle.map (f ∘ Equiv.swap a b) = middle.map f ∧
      back.map (f ∘ Equiv.swap a b) = back.map f := by
  simp only [List.nodup_append, List.nodup_cons, List.mem_append, List.mem_cons, not_or] at nodup
  obtain ⟨-, ⟨⟨outMiddle, -, outBack⟩, -, ⟨outBack', -⟩, apart⟩, apartFront⟩ := nodup
  refine ⟨map_comp_swap_of_notMem f ?_ ?_, map_comp_swap_of_notMem f outMiddle ?_,
    map_comp_swap_of_notMem f outBack outBack'⟩
  · exact fun member => apartFront a member a (.inl rfl) rfl
  · exact fun member => apartFront b member b (.inr (.inr (.inl rfl))) rfl
  · exact fun member => apart b member b (.inl rfl) rfl

omit [DecidableEq V] in
private theorem chord_split {i k : Nat} {front middle back : List V} {a b : V}
    (chord : Chord adjacent cells i k) (shape : cells = front ++ a :: (middle ++ b :: back))
    (frontLength : front.length = i) (middleLength : middle.length = k) :
    adjacent a b ∧ adjacent b a := by
  obtain ⟨front', a', middle', b', back', shape', frontLength', middleLength', near, near'⟩ := chord
  rw [shape] at shape'
  obtain ⟨-, rest⟩ := List.append_inj shape' (frontLength.trans frontLength'.symm)
  obtain ⟨rfl, inner⟩ := List.cons.inj rest
  obtain ⟨-, tail⟩ := List.append_inj inner (middleLength.trans middleLength'.symm)
  obtain ⟨rfl, -⟩ := List.cons.inj tail
  exact ⟨near, near'⟩

omit [DecidableEq V] in
/-- Two adjacent cells of the path are a chord. -/
theorem chord_of_getElem? {i k : Nat} {a b : V} (first : cells[i]? = some a)
    (second : cells[i + k + 1]? = some b) (near : adjacent a b) (back : adjacent b a) :
    Chord adjacent cells i k := by
  obtain ⟨boundFirst, rfl⟩ := List.getElem?_eq_some_iff.mp first
  obtain ⟨boundSecond, rfl⟩ := List.getElem?_eq_some_iff.mp second
  refine ⟨cells.take i, cells[i], (cells.drop (i + 1)).take k, cells[i + k + 1],
    cells.drop (i + k + 2), ?_, ?_, ?_, near, back⟩
  · have tail : cells.drop (i + k + 1) = (cells.drop (i + 1)).drop k := by
      rw [List.drop_drop]
      congr 1
      omega
    rw [← List.drop_eq_getElem_cons, tail, List.take_append_drop, ← List.drop_eq_getElem_cons,
      List.take_append_drop]
  · rw [List.length_take]
    omega
  · rw [List.length_take, List.length_drop]
    omega

/-- Over a chord the hole jumps forward, and the content it meets jumps back. -/
theorem Reads.jump (nodup : cells.Nodup) {p : Holed V α} {before middle after : List α} {x : α}
    (reads : Reads cells p before (middle ++ x :: after))
    (chord : Chord adjacent cells before.length middle.length) :
    ∃ q, Step adjacent p q ∧ Reads cells q (before ++ x :: middle) after := by
  obtain ⟨front, back, shape, rfl, content⟩ := reads
  obtain ⟨middleCells, rest, rfl, rfl, restContent⟩ := List.map_eq_append_iff.mp content
  obtain ⟨cell, backCells, rfl, rfl, rfl⟩ := List.map_eq_cons_iff.mp restContent
  obtain ⟨near, -⟩ := chord_split chord shape (by simp) (by simp)
  rw [shape] at nodup
  obtain ⟨keptFront, keptMiddle, keptBack⟩ := map_exchanged p.board nodup
  refine ⟨p.slide cell, ⟨cell, near, rfl⟩, front ++ p.hole :: middleCells, backCells, ?_, ?_, ?_⟩
  · rw [shape, slide_hole, List.append_assoc, List.cons_append]
  · rw [List.map_append, List.map_cons]
    simp only [slide, keptFront, keptMiddle, Function.comp_apply, Equiv.swap_apply_left]
  · simpa only [slide] using keptBack

/-- The jump back over the same chord. -/
theorem Reads.jumpBack (nodup : cells.Nodup) {p : Holed V α} {before middle after : List α} {x : α}
    (reads : Reads cells p (before ++ x :: middle) after)
    (chord : Chord adjacent cells before.length middle.length) :
    ∃ q, Step adjacent p q ∧ Reads cells q before (middle ++ x :: after) := by
  obtain ⟨front, back, shape, content, rfl⟩ := reads
  obtain ⟨frontCells, rest, rfl, rfl, restContent⟩ := List.map_eq_append_iff.mp content
  obtain ⟨cell, middleCells, rfl, rfl, rfl⟩ := List.map_eq_cons_iff.mp restContent
  rw [List.append_assoc, List.cons_append] at shape
  obtain ⟨-, near⟩ := chord_split chord shape (by simp) (by simp)
  rw [shape] at nodup
  obtain ⟨keptFront, keptMiddle, keptBack⟩ := map_exchanged p.board nodup
  refine ⟨p.slide cell, ⟨cell, near, rfl⟩, frontCells, middleCells ++ p.hole :: back, ?_, ?_, ?_⟩
  · rw [shape, slide_hole]
  · simpa only [slide, Equiv.swap_comm] using keptFront
  · rw [List.map_append, List.map_cons]
    rw [Equiv.swap_comm] at keptMiddle keptBack
    simp only [slide, keptMiddle, keptBack, Function.comp_apply, Equiv.swap_apply_left]

omit [DecidableEq V] in
/-- The tiles before and after the hole and the hole are all cells. -/
theorem Reads.length {p : Holed V α} {before after : List α} (reads : Reads cells p before after) :
    before.length + after.length + 1 = cells.length := by
  obtain ⟨front, back, shape, rfl, rfl⟩ := reads
  rw [shape]
  simp only [List.length_map, List.length_append, List.length_cons]
  omega

/-- Consecutive vertices of the list are neighbours. -/
def IsPath (adjacent : V → V → Prop) (cells : List V) : Prop :=
  ∀ i, i + 1 < cells.length → Chord adjacent cells i 0

private theorem Reads.toStart (nodup : cells.Nodup) (path : IsPath adjacent cells)
    {p : Holed V α} {before after : List α} (reads : Reads cells p before after) :
    ∃ q, Reach adjacent p q ∧ Reads cells q [] (before ++ after) := by
  induction before using List.reverseRecOn generalizing p after with
  | nil => exact ⟨p, .refl, reads⟩
  | append_singleton before x ih =>
      have length := reads.length
      rw [List.length_append, List.length_singleton] at length
      obtain ⟨next, step, nextReads⟩ := reads.jumpBack nodup (path before.length (by omega))
      obtain ⟨q, reach, start⟩ := ih nextReads
      exact ⟨q, .head step reach, by simpa using start⟩

private theorem Reads.advance (nodup : cells.Nodup) (path : IsPath adjacent cells)
    {p : Holed V α} {before stretch after : List α}
    (reads : Reads cells p before (stretch ++ after)) :
    ∃ q, Reach adjacent p q ∧ Reads cells q (before ++ stretch) after := by
  induction stretch generalizing p before with
  | nil => exact ⟨p, .refl, by simpa using reads⟩
  | cons x stretch ih =>
      have length := reads.length
      rw [List.cons_append, List.length_cons] at length
      change Reads cells p before ([] ++ x :: (stretch ++ after)) at reads
      obtain ⟨next, step, nextReads⟩ := reads.jump nodup (path before.length (by omega))
      obtain ⟨q, reach, finish⟩ := ih nextReads
      exact ⟨q, .head step reach, by simpa using finish⟩

/-- Along a path the hole goes anywhere and the other contents keep their order. -/
theorem Reads.moveTo (nodup : cells.Nodup) (path : IsPath adjacent cells)
    {p : Holed V α} {before after before' after' : List α} (reads : Reads cells p before after)
    (same : before' ++ after' = before ++ after) :
    ∃ q, Reach adjacent p q ∧ Reads cells q before' after' := by
  obtain ⟨start, toStart, startReads⟩ := reads.toStart nodup path
  rw [← same] at startReads
  obtain ⟨q, onward, final⟩ := startReads.advance nodup path
  exact ⟨q, toStart.trans onward, by simpa using final⟩

variable (adjacent) (cells)

/-- Every board with the first order of contents reaches one with the second. -/
def Linked (first second : List α) : Prop :=
  ∀ (p : Holed V α) before after, Reads cells p before after → before ++ after = first →
    ∃ q before' after', Reach adjacent p q ∧ Reads cells q before' after' ∧
      before' ++ after' = second

variable {adjacent} {cells}

/-- An order is linked to itself. -/
theorem Linked.refl (order : List α) : Linked adjacent cells order order :=
  fun p before after reads same => ⟨p, before, after, .refl, reads, same⟩

/-- Links are put together. -/
theorem Linked.trans {first second third : List α} (left : Linked adjacent cells first second)
    (right : Linked adjacent cells second third) : Linked adjacent cells first third := by
  intro p before after reads same
  obtain ⟨mid, before', after', reach, midReads, midSame⟩ := left p before after reads same
  obtain ⟨q, before'', after'', onward, final, finalSame⟩ := right mid before' after' midReads
    midSame
  exact ⟨q, before'', after'', reach.trans onward, final, finalSame⟩

/-- A chord turns the stretch it spans by one place. -/
theorem Linked.turn (nodup : cells.Nodup) (path : IsPath adjacent cells)
    {before middle after : List α} {x : α}
    (chord : Chord adjacent cells before.length middle.length) :
    Linked adjacent cells (before ++ (middle ++ x :: after))
      (before ++ (x :: middle ++ after)) := by
  intro p start rest reads same
  obtain ⟨near, reach, nearReads⟩ := reads.moveTo nodup path same.symm
  obtain ⟨q, step, final⟩ := nearReads.jump nodup chord
  exact ⟨q, before ++ x :: middle, after, .tail reach step, final, by simp⟩

end Holed

end CPrograms.Library
