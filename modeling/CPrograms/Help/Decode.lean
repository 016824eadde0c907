import CPrograms.Library.CArray
import CPrograms.Library.Runs
import Mathlib.Algebra.BigOperators.Group.List.Basic
import Mathlib.Algebra.Ring.Int.Parity

/-!
# The parity check of the decoder

`codecheck` of `help/decode.c` walks over the edges of a parity check matrix, given as
pairs of a check and a variable, and accumulates the parity of every check in `y`. Its
inner loop runs over `COL_P` rows of the edge list, where `COL_P` is the width of a row
and not their number. The match count `f`, from which the outer loop sets its own counter,
stays so small that the loop only ends when the check number has left the array `y`.

An access outside an array is undefined in C; the machine stops there and names it.
-/

namespace CPrograms.Help

open Library

/-- The length of a codeword. -/
def COL : Nat := 204

/-- The width of a row of the edge list. -/
def COL_P : Nat := 2

/-- The number of edges. -/
def ROWS_P : Nat := 1020

/-- An access to one of the three arrays. -/
inductive Access where
  | h (index : Int)
  | x (index : Int)
  | y (index : Int)
  deriving DecidableEq, Repr

/-- The result of an access, which is named where it is outside. -/
def Access.checked {α : Type} (access : Access) : Option α → Except Access α
  | some value => .ok value
  | none => .error access

/-- Read an array at an index. -/
def load {α : Type} (access : Int → Access) (array : List α) (index : Int) : Except Access α :=
  (access index).checked (CArray.load array index)

/-- Write an array at an index. -/
def store {α : Type} (access : Int → Access) (array : List α) (index : Int) (value : α) :
    Except Access (List α) :=
  (access index).checked (CArray.store array index value)

/-- The variables of the main loop. -/
structure Check where
  i : Int
  m : Int
  f : Int
  y : List Int

/-- The body of the inner loop. -/
def matchRow (h : List (Int × Int)) (x : List Int) (check : Check) (j : Nat) :
    Except Access Check := do
  let row ← load .h h j
  if row.1 = check.m then
    let sum ← load .y check.y check.m
    let bit ← load .x x (row.2 - 1)
    let y ← store .y check.y check.m (sum + bit)
    .ok { check with y, f := check.f + 1 }
  else .ok check

/-- The body of the outer loop, and the `i++` behind it. -/
def checkRows (h : List (Int × Int)) (x : List Int) (check : Check) : Except Access Check := do
  let check ← (List.range COL_P).foldlM (matchRow h x) check
  let parity ← load .y check.y check.m
  let y ← store .y check.y check.m (parity.tmod 2)
  .ok { y, m := check.m + 1, f := check.f, i := check.f + 1 + 1 }

/-- Where `codecheck` is: in its loop, back at the caller, or past a bound. -/
inductive Progress where
  | running (check : Check)
  | returned (value : Int)
  | undefined (access : Access)

/-- One test of the outer loop with its body, or the sum over `y` and the return. -/
def codecheckStep (h : List (Int × Int)) (x : List Int) : Progress → Option Progress
  | .running check =>
      if check.i < ROWS_P then
        match checkRows h x check with
        | .ok next => some (.running next)
        | .error access => some (.undefined access)
      else some (.returned (if check.y.sum = 0 then 1 else -1))
  | .returned _ => none
  | .undefined _ => none

/-- The variables in front of the outer loop, with `y` cleared. -/
def Check.start : Check :=
  ⟨0, 1, -1, List.replicate COL 0⟩

/-! ## What a parity check decides -/

/-- An edge list sorted by check, with checks numbered from 1 without gaps. -/
structure EdgeList where
  rows : List (Int × Int)
  checks : Nat
  length : rows.length = ROWS_P
  sorted : (rows.map Prod.fst).Pairwise (· ≤ ·)
  numbered : ∀ m : Int, m ∈ rows.map Prod.fst ↔ 1 ≤ m ∧ m ≤ checks
  fewer : checks < COL
  covered : ∀ row ∈ rows, 1 ≤ row.2 ∧ row.2 ≤ COL

/-- A vector of bits. -/
structure Word where
  bits : List Int
  length : bits.length = COL
  binary : ∀ bit ∈ bits, bit = 0 ∨ bit = 1

/-- The sum of the bits that a check covers. -/
def syndrome (h : EdgeList) (x : Word) (m : Int) : Int :=
  ((h.rows.filter (·.1 = m)).map fun row => x.bits.getD (row.2 - 1).toNat 0).sum

/-- Every check covers an even number of ones. -/
def Codeword (h : EdgeList) (x : Word) : Prop :=
  ∀ m : Int, 1 ≤ m → m ≤ h.checks → Even (syndrome h x m)

/-- `codecheck` returns, without an access outside its arrays, and tells codewords from other
vectors. -/
def Decides (h : EdgeList) (x : Word) : Prop :=
  ∃ value, Goes (codecheckStep h.rows x.bits) (.running .start) (.returned value) ∧
    (Codeword h x → value = 1) ∧ (¬ Codeword h x → value = -1)

/-! ## The loop -/

/-- Inside an array a cell is read. -/
theorem load_ok {α : Type} (access : Int → Access) (array : List α) (index : Int)
    (low : 0 ≤ index) (high : index < array.length) :
    ∃ value ∈ array, load access array index = .ok value := by
  obtain ⟨value, member, read⟩ := CArray.exists_load low high
  exact ⟨value, member, by rw [load, read, Access.checked]⟩

/-- Behind an array the access is named. -/
theorem load_error {α : Type} (access : Int → Access) (array : List α) {index : Int}
    (high : array.length ≤ index) : load access array index = .error (access index) := by
  rw [load, CArray.load_behind high, Access.checked]

/-- Inside an array a cell is written. -/
theorem store_ok {α : Type} (access : Int → Access) (array : List α) (index : Int)
    (low : 0 ≤ index) (high : index < array.length) (value : α) :
    store access array index value = .ok (array.set index.toNat value) := by
  rw [store, CArray.store_inside low high, Access.checked]

/-- One row changes nothing but the entry of `y` at the check number, and counts at most one
match. -/
theorem matchRow_ok (h : EdgeList) (x : Word) {check : Check} (low : 0 ≤ check.m)
    (high : check.m < check.y.length) {j : Nat} (inside : j < ROWS_P) :
    ∃ next, matchRow h.rows x.bits check j = .ok next ∧ next.m = check.m ∧
      next.y.length = check.y.length ∧ next.f ≤ check.f + 1 := by
  obtain ⟨row, member, read⟩ := load_ok .h h.rows j (by omega) (by rw [h.length]; omega)
  by_cases same : row.1 = check.m
  · have covered := h.covered row member
    obtain ⟨sum, -, readSum⟩ := load_ok .y check.y check.m low high
    obtain ⟨bit, -, readBit⟩ := load_ok .x x.bits (row.2 - 1) (by omega)
      (by rw [x.length]; omega)
    have written : store .y check.y check.m (sum + bit) =
        .ok (check.y.set check.m.toNat (sum + bit)) :=
      store_ok .y check.y check.m low high _
    refine ⟨{ check with y := check.y.set check.m.toNat (sum + bit), f := check.f + 1 }, ?_, rfl,
      List.length_set, Int.le_refl _⟩
    simp only [matchRow, bind, Except.bind, read, same, ↓reduceIte, readSum, readBit, written]
  · refine ⟨check, ?_, rfl, rfl, by omega⟩
    simp only [matchRow, bind, Except.bind, read, same, ↓reduceIte]

/-- The inner loop counts at most as many matches as it looks at rows. -/
theorem foldlM_matchRow_ok (h : EdgeList) (x : Word) {rows : List Nat}
    (inside : ∀ j ∈ rows, j < ROWS_P) {check : Check} (low : 0 ≤ check.m)
    (high : check.m < check.y.length) :
    ∃ next, rows.foldlM (matchRow h.rows x.bits) check = .ok next ∧ next.m = check.m ∧
      next.y.length = check.y.length ∧ next.f ≤ check.f + rows.length := by
  induction rows generalizing check with
  | nil => exact ⟨check, rfl, rfl, rfl, by simp⟩
  | cons j rows ih =>
      obtain ⟨first, matched, number, length, count⟩ := matchRow_ok h x low high
        (inside j List.mem_cons_self)
      obtain ⟨next, folded, nextNumber, nextLength, nextCount⟩ := ih
        (fun k member => inside k (List.mem_cons_of_mem _ member)) (by omega : 0 ≤ first.m)
        (by omega)
      refine ⟨next, ?_, nextNumber.trans number, nextLength.trans length, ?_⟩
      · rw [List.foldlM_cons, matched]
        exact folded
      · rw [List.length_cons]
        push_cast
        omega

/-- The loop is at check `m`: `y` has its length, and no pass so far counted more matches than
the rows it looked at. -/
structure Check.At (check : Check) (m : Int) : Prop where
  number : check.m = m
  length : check.y.length = COL
  count : check.f ≤ 2 * (m - 1) - 1
  counter : check.i ≤ 2 * (m - 1) + 1

/-- In front of the loop the machine is at the first check. -/
theorem Check.at_start : Check.start.At 1 :=
  ⟨rfl, rfl, by decide, by decide⟩

private theorem rows_inside : ∀ j ∈ List.range COL_P, j < ROWS_P := by
  decide

/-- As long as the check number is an index of `y`, the loop goes on to the next check. -/
theorem checkRows_ok (h : EdgeList) (x : Word) {check : Check} {m : Int} (at_m : check.At m)
    (low : 0 ≤ m) (high : m < COL) :
    ∃ next, checkRows h.rows x.bits check = .ok next ∧ next.At (m + 1) := by
  obtain ⟨number, length, count, -⟩ := at_m
  obtain ⟨inner, folded, innerNumber, innerLength, innerCount⟩ := foldlM_matchRow_ok h x rows_inside
    (number ▸ low) (by rw [number, length]; exact high)
  obtain ⟨parity, -, readParity⟩ := load_ok .y inner.y inner.m (by omega) (by omega)
  have written : store .y inner.y inner.m (parity.tmod 2) =
      .ok (inner.y.set inner.m.toNat (parity.tmod 2)) :=
    store_ok .y inner.y inner.m (by omega) (by omega) _
  refine ⟨⟨inner.f + 1 + 1, inner.m + 1, inner.f, inner.y.set inner.m.toNat (parity.tmod 2)⟩,
    ?_, ?_, ?_, ?_, ?_⟩
  · simp only [checkRows, bind, Except.bind, folded, readParity, written]
  · change inner.m + 1 = m + 1
    omega
  · rw [List.length_set, innerLength, length]
  · have rows : ((List.range COL_P).length : Int) = 2 := rfl
    change inner.f ≤ _
    omega
  · have rows : ((List.range COL_P).length : Int) = 2 := rfl
    change inner.f + 1 + 1 ≤ _
    omega

/-- No check has the number `COL`, and the parity of that check is outside `y`. -/
theorem checkRows_error (h : EdgeList) (x : Word) {check : Check} (at_end : check.At COL) :
    checkRows h.rows x.bits check = .error (.y COL) := by
  obtain ⟨number, length, -, -⟩ := at_end
  have passed : ∀ j < ROWS_P, matchRow h.rows x.bits check j = .ok check := by
    intro j inside
    obtain ⟨row, member, read⟩ := load_ok .h h.rows j (by omega) (by rw [h.length]; omega)
    have bound := (h.numbered row.1).mp (List.mem_map_of_mem member)
    have fewer := h.fewer
    have other : row.1 ≠ check.m := by omega
    simp only [matchRow, bind, Except.bind, read, other, ↓reduceIte]
  have rows : List.range COL_P = [0, 1] := rfl
  have missing : load .y check.y check.m = .error (.y COL) := by
    rw [load_error .y check.y (by omega), number]
  rw [checkRows, rows, List.foldlM_cons, passed 0 (by decide)]
  simp only [bind, Except.bind, List.foldlM_cons, passed 1 (by decide), List.foldlM_nil, pure,
    Except.pure, missing]

/-- As long as the check number is at most `COL`, the outer loop goes on. -/
theorem codecheckStep_at (h : List (Int × Int)) (x : List Int) {check : Check} {m : Int}
    (at_m : check.At m) (high : m ≤ COL) :
    codecheckStep h x (.running check) =
      match checkRows h x check with
      | .ok next => some (.running next)
      | .error access => some (.undefined access) := by
  have counter := at_m.counter
  have col : COL = 204 := rfl
  have rows : ROWS_P = 1020 := rfl
  rw [codecheckStep, if_pos (by omega)]

/-- From any check the loop goes on to the check number that is outside `y`. -/
theorem goes_undefined (h : EdgeList) (x : Word) {check : Check} {m : Int} (at_m : check.At m)
    (low : 0 ≤ m) (high : m ≤ COL) :
    Goes (codecheckStep h.rows x.bits) (.running check) (.undefined (.y COL)) := by
  induction remaining : (COL - m).toNat generalizing check m with
  | zero =>
      obtain rfl : m = COL := by omega
      refine .head ?_ .refl
      rw [codecheckStep_at _ _ at_m high, checkRows_error h x at_m]
  | succ remaining ih =>
      obtain ⟨next, passed, at_next⟩ := checkRows_ok h x at_m low (by omega)
      refine .head ?_ (ih at_next (by omega) (by omega) (by omega))
      rw [codecheckStep_at _ _ at_m high, passed]

/-- A run that leaves an array does not return. -/
theorem not_decides_of_goes {h : EdgeList} {x : Word} {access : Access}
    (goes : Goes (codecheckStep h.rows x.bits) (.running .start) (.undefined access)) :
    ¬ Decides h x := by
  rintro ⟨value, returns, -⟩
  cases goes.unique rfl returns rfl

/-- **The parity check never decides.** For every edge list and every vector `codecheck` reads
`y` at index `COL`, and so returns for none of them. -/
theorem codecheck_undefined (h : EdgeList) (x : Word) :
    Goes (codecheckStep h.rows x.bits) (.running .start) (.undefined (.y COL)) ∧
      ¬ Decides h x := by
  have goes := goes_undefined h x Check.at_start (by decide) (by decide)
  exact ⟨goes, not_decides_of_goes goes⟩

/-- 102 checks of ten edges each. -/
def tenEach : EdgeList where
  rows := (List.range ROWS_P).map fun k => ((k / 10 + 1 : Nat), (k % COL + 1 : Nat))
  checks := 102
  length := by rw [List.length_map, List.length_range]
  sorted := by
    rw [List.map_map, List.pairwise_map]
    refine List.pairwise_lt_range.imp ?_
    intro j k less
    simp only [Function.comp_apply]
    omega
  numbered := by
    intro m
    have rows : ROWS_P = 1020 := rfl
    simp only [List.mem_map, List.mem_range, exists_exists_and_eq_and]
    constructor
    · rintro ⟨k, inside, rfl⟩
      omega
    · rintro ⟨low, high⟩
      exact ⟨10 * (m - 1).toNat, by omega, by omega⟩
  fewer := by decide
  covered := by
    have col : COL = 204 := rfl
    simp only [List.mem_map, forall_exists_index, and_imp]
    rintro row k - rfl
    simp only [col]
    omega

/-- The zero vector. -/
def zeroWord : Word where
  bits := List.replicate COL 0
  length := List.length_replicate
  binary := fun _ member => .inl (List.eq_of_mem_replicate member)

/-- The zero vector is a codeword, and the check of it runs out of `y`. -/
theorem zeroWord_undefined :
    Codeword tenEach zeroWord ∧
      Goes (codecheckStep tenEach.rows zeroWord.bits) (.running .start) (.undefined (.y COL)) ∧
      ¬ Decides tenEach zeroWord := by
  have goes := goes_undefined tenEach zeroWord Check.at_start (by decide) (by decide)
  refine ⟨?_, goes, not_decides_of_goes goes⟩
  intro m _ _
  have zero : syndrome tenEach zeroWord m = 0 := by
    refine List.sum_eq_zero ?_
    intro bit member
    obtain ⟨row, -, rfl⟩ := List.mem_map.mp member
    rw [zeroWord, List.getD_eq_getElem?_getD, List.getElem?_replicate]
    split <;> rfl
  rw [zero]
  exact Even.zero

end CPrograms.Help
