import Mathlib.Data.List.Basic

/-!
# Arrays

Reads and writes of an array at an index that may be outside of it, also below its start. An access
outside is undefined in C, and `none` here.
-/

namespace CPrograms.Library.CArray

universe u

variable {α : Type u}

/-- The cell at an index. -/
def load (array : List α) (index : Int) : Option α :=
  if 0 ≤ index then array[index.toNat]? else none

/-- The array with a cell written at an index. -/
def store (array : List α) (index : Int) (value : α) : Option (List α) :=
  if 0 ≤ index ∧ index < array.length then some (array.set index.toNat value) else none

/-- Inside the array a cell is read. -/
theorem exists_load {array : List α} {index : Int} (low : 0 ≤ index)
    (high : index < array.length) : ∃ value ∈ array, load array index = some value := by
  have inside : index.toNat < array.length := by omega
  refine ⟨array[index.toNat], List.getElem_mem inside, ?_⟩
  rw [load, if_pos low, List.getElem?_eq_getElem inside]

/-- Behind the array there is nothing. -/
theorem load_behind {array : List α} {index : Int} (high : array.length ≤ index) :
    load array index = none := by
  rw [load, if_pos (by omega), List.getElem?_eq_none (by omega)]

/-- Inside the array a cell is written. -/
theorem store_inside {array : List α} {index : Int} (low : 0 ≤ index)
    (high : index < array.length) (value : α) :
    store array index value = some (array.set index.toNat value) :=
  if_pos ⟨low, high⟩

/-- The cell behind the front part of an array. -/
theorem load_append (front : List α) (x : α) (back : List α) :
    load (front ++ x :: back) front.length = some x := by
  rw [load, if_pos (Int.natCast_nonneg _), Int.toNat_natCast,
    List.getElem?_append_right (Nat.le_refl _), Nat.sub_self, List.getElem?_cons_zero]

/-- Writing the cell behind the front part of an array. -/
theorem store_append (front : List α) (x : α) (back : List α) (value : α) :
    store (front ++ x :: back) front.length value = some (front ++ value :: back) := by
  have inside : (front.length : Int) < (front ++ x :: back).length := by
    rw [List.length_append, List.length_cons]
    omega
  rw [store_inside (Int.natCast_nonneg _) inside, Int.toNat_natCast,
    List.set_append_right _ _ (Nat.le_refl _), Nat.sub_self, List.set_cons_zero]

end CPrograms.Library.CArray
