import Mathlib.Logic.Function.Basic
import Mathlib.Tactic.Common

/-!
# Buffers written cell by cell

The memory from some pointer on, with arbitrary earlier contents, together with
the index of every store made so far. Nothing confines the stores to an
allocated block: whether they stay inside one is a question about the recorded
indices.
-/

namespace CPrograms.Library

universe u

/-- Memory from a pointer on, and the indices stored to, latest first. -/
structure Buffer (α : Type u) where
  read : Nat → α
  written : List Nat

namespace Buffer

variable {α : Type u}

/-- Untouched memory. -/
def fresh (contents : Nat → α) : Buffer α :=
  ⟨contents, []⟩

/-- Store one cell. -/
def store (buffer : Buffer α) (index : Nat) (cell : α) : Buffer α :=
  ⟨Function.update buffer.read index cell, index :: buffer.written⟩

/-- Store consecutive cells in ascending order. -/
def storeAll (buffer : Buffer α) : Nat → List α → Buffer α
  | _, [] => buffer
  | index, cell :: cells => (buffer.store index cell).storeAll (index + 1) cells

/-- One more than the largest index stored to. -/
def extent (buffer : Buffer α) : Nat :=
  buffer.written.foldr (fun index bound => max (index + 1) bound) 0

/-- The cells from an index on are the given ones. -/
def Holds (buffer : Buffer α) (index : Nat) (cells : List α) : Prop :=
  ∀ offset, (bound : offset < cells.length) → buffer.read (index + offset) = cells[offset]

/-- Memory below an index is the same in two buffers. -/
def AgreeBelow (first second : Buffer α) (index : Nat) : Prop :=
  ∀ k < index, first.read k = second.read k

/-- A cell that was just written is read. -/
@[simp] theorem read_store_self (buffer : Buffer α) (index : Nat) (cell : α) :
    (buffer.store index cell).read index = cell :=
  Function.update_self ..

/-- A write leaves the other cells alone. -/
theorem read_store_of_ne (buffer : Buffer α) {index other : Nat} (cell : α)
    (different : other ≠ index) : (buffer.store index cell).read other = buffer.read other :=
  Function.update_of_ne different ..

/-- Stores from an index on leave everything below it alone. -/
theorem storeAll_agreeBelow (buffer : Buffer α) (index : Nat) (cells : List α) :
    (buffer.storeAll index cells).AgreeBelow buffer index := by
  induction cells generalizing buffer index with
  | nil => exact fun _ _ => rfl
  | cons cell cells ih =>
      intro k below
      simp only [storeAll]
      rw [ih (buffer.store index cell) (index + 1) k (by omega)]
      exact buffer.read_store_of_ne cell (by omega)

/-- What was stored is there. -/
theorem storeAll_holds (buffer : Buffer α) (index : Nat) (cells : List α) :
    (buffer.storeAll index cells).Holds index cells := by
  induction cells generalizing buffer index with
  | nil => exact fun _ bound => absurd bound (Nat.not_lt_zero _)
  | cons cell cells ih =>
      intro offset bound
      simp only [storeAll]
      cases offset with
      | zero =>
          have kept := (buffer.store index cell).storeAll_agreeBelow (index + 1) cells index
            (Nat.lt_succ_self index)
          exact kept.trans (buffer.read_store_self index cell)
      | succ offset =>
          have later := ih (buffer.store index cell) (index + 1) offset (by simpa using bound)
          rw [show index + (offset + 1) = index + 1 + offset by omega, later]
          rfl

/-- Agreement is passed on. -/
theorem AgreeBelow.trans {first second third : Buffer α} {index : Nat}
    (left : first.AgreeBelow second index) (right : second.AgreeBelow third index) :
    first.AgreeBelow third index :=
  fun k below => (left k below).trans (right k below)

/-- Buffers that agree below an index agree below a smaller one. -/
theorem AgreeBelow.mono {first second : Buffer α} {low high : Nat}
    (agree : first.AgreeBelow second high) (bound : low ≤ high) : first.AgreeBelow second low :=
  fun k below => agree k (by omega)

/-- A write changes nothing below it. -/
theorem store_agreeBelow (buffer : Buffer α) (index : Nat) (cell : α) :
    (buffer.store index cell).AgreeBelow buffer index :=
  fun _ below => buffer.read_store_of_ne cell (by omega)

/-- Cells below an agreement are held by both buffers. -/
theorem Holds.of_agreeBelow {first second : Buffer α} {index bound : Nat} {cells : List α}
    (held : second.Holds index cells) (agree : first.AgreeBelow second bound)
    (inside : index + cells.length ≤ bound) : first.Holds index cells := by
  intro offset small
  rw [agree (index + offset) (by omega)]
  exact held offset small

/-- Two pieces that are held one behind the other are held as one. -/
theorem Holds.append {buffer : Buffer α} {index : Nat} {front back : List α}
    (left : buffer.Holds index front) (right : buffer.Holds (index + front.length) back) :
    buffer.Holds index (front ++ back) := by
  intro offset bound
  rw [List.getElem_append]
  split
  · next inside => exact left offset inside
  · next outside =>
      have later := right (offset - front.length) (by simp at bound; omega)
      rwa [show index + front.length + (offset - front.length) = index + offset by omega] at later

/-- The front part of what is held is held. -/
theorem Holds.left {buffer : Buffer α} {index : Nat} {front back : List α}
    (held : buffer.Holds index (front ++ back)) : buffer.Holds index front := by
  intro offset bound
  have cell := held offset (by simp; omega)
  rwa [List.getElem_append_left bound] at cell

/-- Holding one cell is reading it. -/
theorem holds_singleton {buffer : Buffer α} {index : Nat} {cell : α} :
    buffer.Holds index [cell] ↔ buffer.read index = cell := by
  constructor
  · intro held
    exact held 0 (by simp)
  · intro same offset bound
    have first : offset = 0 := by simpa using bound
    subst first
    exact same

/-- A cell and what is held behind it are held together. -/
theorem Holds.cons {buffer : Buffer α} {index : Nat} {cell : α} {cells : List α}
    (head : buffer.read index = cell) (tail : buffer.Holds (index + 1) cells) :
    buffer.Holds index (cell :: cells) := by
  change buffer.Holds index ([cell] ++ cells)
  exact (holds_singleton.mpr head).append tail

/-- Stores from an index on that leave the given cells there. -/
structure Lays (index : Nat) (cells : List α) (before after : Buffer α) : Prop where
  below : after.AgreeBelow before index
  holds : after.Holds index cells

/-- A write lays down its cell. -/
theorem lays_store (buffer : Buffer α) (index : Nat) (cell : α) :
    Lays index [cell] buffer (buffer.store index cell) :=
  ⟨buffer.store_agreeBelow index cell, holds_singleton.mpr (buffer.read_store_self index cell)⟩

/-- Writing some cells one behind the other lays them down. -/
theorem lays_storeAll (buffer : Buffer α) (index : Nat) (cells : List α) :
    Lays index cells buffer (buffer.storeAll index cells) :=
  ⟨buffer.storeAll_agreeBelow index cells, buffer.storeAll_holds index cells⟩

/-- Laying down two pieces lays down the first of them. -/
theorem Lays.left {index : Nat} {front back : List α} {before after : Buffer α}
    (lays : Lays index (front ++ back) before after) : Lays index front before after :=
  ⟨lays.below, lays.holds.left⟩

/-- Later stores behind the cells leave them there. -/
theorem Lays.keep {index next : Nat} {cells later : List α} {first second third : Buffer α}
    (lays : Lays index cells first second) (onward : Lays next later second third)
    (behind : index + cells.length ≤ next) : Lays index cells first third where
  below := (onward.below.mono (by omega)).trans lays.below
  holds := lays.holds.of_agreeBelow onward.below behind

/-- Stores that go on where others ended. -/
theorem Lays.append {index : Nat} {front back : List α} {first second third : Buffer α}
    (lays : Lays index front first second)
    (onward : Lays (index + front.length) back second third) :
    Lays index (front ++ back) first third where
  below := (lays.keep onward (Nat.le_refl _)).below
  holds := (lays.keep onward (Nat.le_refl _)).holds.append onward.holds

/-- The held cells are what a reader copies out. -/
theorem Holds.map_range {buffer : Buffer α} {cells : List α} (held : buffer.Holds 0 cells) :
    (List.range cells.length).map buffer.read = cells := by
  apply List.ext_getElem
  · simp
  · intro offset _ bound
    simpa using held offset bound

/-- The written indices are below the extent. -/
theorem lt_extent_of_mem {buffer : Buffer α} {index : Nat} (stored : index ∈ buffer.written) :
    index < buffer.extent := by
  unfold extent
  generalize buffer.written = written at stored
  induction written with
  | nil => exact absurd stored List.not_mem_nil
  | cons head tail ih =>
      simp only [List.foldr_cons]
      rcases List.mem_cons.mp stored with rfl | later
      · omega
      · have bound := ih later
        omega

/-- A run of stores writes the indices it covers and no others. -/
theorem mem_written_storeAll {buffer : Buffer α} {index k : Nat} {cells : List α} :
    k ∈ (buffer.storeAll index cells).written ↔
      (index ≤ k ∧ k < index + cells.length) ∨ k ∈ buffer.written := by
  induction cells generalizing buffer index with
  | nil =>
      have none : ¬ (index ≤ k ∧ k < index + 0) := by omega
      simp only [storeAll, List.length_nil, none, false_or]
  | cons cell cells ih =>
      simp only [storeAll, ih, store, List.mem_cons, List.length_cons]
      rw [← or_assoc]
      apply or_congr_left
      omega

/-- Stores that leave the given cells at an index and touch nothing else. -/
structure Fills (index : Nat) (cells : List α) (before after : Buffer α) : Prop where
  holds : after.Holds index cells
  others : ∀ k, k < index ∨ index + cells.length ≤ k → after.read k = before.read k
  stores : ∀ k ∈ after.written, k ∈ before.written ∨ index ≤ k ∧ k < index + cells.length

/-- A write fills its cell and nothing else. -/
theorem fills_store (buffer : Buffer α) (index : Nat) (cell : α) :
    Fills index [cell] buffer (buffer.store index cell) := by
  refine ⟨holds_singleton.mpr (buffer.read_store_self index cell), ?_, ?_⟩
  · intro k outside
    apply buffer.read_store_of_ne cell
    rw [List.length_singleton] at outside
    omega
  · intro k member
    rcases List.mem_cons.mp member with rfl | earlier
    · exact .inr ⟨Nat.le_refl _, Nat.lt_succ_self _⟩
    · exact .inl earlier

/-- The cells behind are filled first. -/
theorem Fills.prepend {index middle : Nat} {front back : List α} {first second third : Buffer α}
    (behind : Fills middle back first second) (fills : Fills index front second third)
    (meet : index + front.length = middle) : Fills index (front ++ back) first third := by
  subst meet
  refine ⟨fills.holds.append fun offset bound => ?_, fun k outside => ?_, fun k member => ?_⟩
  · rw [fills.others _ (.inr (Nat.le_add_right _ _))]
    exact behind.holds offset bound
  · rw [List.length_append] at outside
    rw [fills.others k (by omega), behind.others k (by omega)]
  · rw [List.length_append]
    rcases fills.stores k member with earlier | inside
    · rcases behind.stores k earlier with earlier | inside
      · exact .inl earlier
      · exact .inr (by omega)
    · exact .inr (by omega)

end Buffer

end CPrograms.Library
