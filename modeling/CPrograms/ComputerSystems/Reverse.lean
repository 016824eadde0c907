import CPrograms.Library.CArray
import CPrograms.Library.Runs
import Mathlib.Data.BitVec
import Mathlib.Data.List.Induction

/-!
# Reversal in place

`reverse_array` of `computer-systems/reverse.c` exchanges the outermost cells of an array
and moves inwards with two cursors. The exchange is made of three exclusive ors without a
third variable, which is right for two different cells and clears a cell that is exchanged
with itself.

The array is the memory the pointers point into; an access outside it is undefined.
-/

namespace CPrograms.ComputerSystems

open Library

/-- An array of `int`. -/
abbrev Ints := List (BitVec 32)

/-- The exchange of `*x` and `*y`, with the pointers given by their indices. -/
def swapInplace (a : Ints) (x y : Int) : Option Ints := do
  let a ← CArray.store a y ((← CArray.load a x) ^^^ (← CArray.load a y))
  let a ← CArray.store a x ((← CArray.load a x) ^^^ (← CArray.load a y))
  CArray.store a y ((← CArray.load a x) ^^^ (← CArray.load a y))

/-- Where `reverse_array` is: at the test of its loop, back at the caller, or past a bound. -/
inductive Reversal where
  | running (a : Ints) (f l : Int)
  | returned (a : Ints)
  | undefined

/-- The call `reverse_array(a, len)`, up to the first test of the loop. -/
def reverseArray (a : Ints) (len : Int) : Reversal :=
  .running a 0 (len - 1)

/-- One test of the loop, with its body. -/
def reverseStep : Reversal → Option Reversal
  | .running a f l =>
      if f < l then
        match swapInplace a f l with
        | some a => some (.running a (f + 1) (l - 1))
        | none => some .undefined
      else some (.returned a)
  | .returned _ => none
  | .undefined => none

/-! ## The exchange -/

/-- Two different cells are exchanged. -/
theorem swapInplace_append (front : Ints) (x : BitVec 32) (middle : Ints) (y : BitVec 32)
    (back : Ints) :
    swapInplace (front ++ x :: (middle ++ y :: back)) front.length
      (front.length + middle.length + 1) = some (front ++ y :: (middle ++ x :: back)) := by
  -- The second cell is found by splitting the array behind the first one.
  have first (u v : BitVec 32) := CArray.load_append front u (middle ++ v :: back)
  have second (u v : BitVec 32) : CArray.load (front ++ u :: (middle ++ v :: back))
      (front.length + middle.length + 1) = some v := by
    have split := CArray.load_append (front ++ u :: middle) v back
    rwa [List.append_assoc, List.cons_append, List.length_append, List.length_cons,
      ← Nat.add_assoc] at split
  have storeFirst (u v value : BitVec 32) :=
    CArray.store_append front u (middle ++ v :: back) value
  have storeSecond (u v value : BitVec 32) :
      CArray.store (front ++ u :: (middle ++ v :: back)) (front.length + middle.length + 1) value =
        some (front ++ u :: (middle ++ value :: back)) := by
    have split := CArray.store_append (front ++ u :: middle) v back value
    rwa [List.append_assoc, List.cons_append, List.length_append, List.length_cons,
      ← Nat.add_assoc, List.append_assoc, List.cons_append] at split
  have exchanged : x ^^^ (x ^^^ y) = y := by
    rw [← BitVec.xor_assoc, BitVec.xor_self, BitVec.zero_xor]
  have exchangedToo : y ^^^ (x ^^^ y) = x := by
    rw [BitVec.xor_comm x y, ← BitVec.xor_assoc, BitVec.xor_self, BitVec.zero_xor]
  simp only [swapInplace, Option.bind_eq_bind, first, second, storeFirst, storeSecond,
    Option.bind_some, exchanged, exchangedToo]

/-- A cell exchanged with itself is cleared. -/
theorem swapInplace_self (front : Ints) (x : BitVec 32) (back : Ints) :
    swapInplace (front ++ x :: back) front.length front.length = some (front ++ 0 :: back) := by
  simp only [swapInplace, Option.bind_eq_bind, CArray.load_append, CArray.store_append,
    Option.bind_some,
    BitVec.xor_self]
  rfl

/-! ## The loop -/

/-- From an untouched middle the loop reverses it and leaves what is outside alone. -/
theorem goes_middle (front middle back : Ints) :
    Goes reverseStep
      (.running (front ++ (middle ++ back)) front.length (front.length + middle.length - 1))
      (.returned (front ++ (middle.reverse ++ back))) := by
  induction middle using List.bidirectionalRec generalizing front back with
  | nil => exact .head (if_neg (by simp)) .refl
  | singleton x => exact .head (if_neg (by simp)) .refl
  | cons_append x middle y ih =>
      have last : (front.length + (x :: (middle ++ [y])).length - 1 : Int) =
          front.length + middle.length + 1 := by
        simp only [List.length_cons, List.length_append, List.length_nil]
        omega
      have inner : ((front ++ [y]).length + middle.length - 1 : Int) =
          front.length + middle.length + 1 - 1 := by
        rw [List.length_append, List.length_singleton]
        omega
      have apart : (front.length : Int) < front.length + middle.length + 1 := by omega
      have rest := ih (front ++ [y]) (x :: back)
      rw [inner, List.length_append, List.length_singleton, List.append_assoc,
        List.append_assoc] at rest
      simp only [List.reverse_cons, List.reverse_append, List.cons_append,
        List.append_assoc, List.nil_append] at rest ⊢
      refine .head ?_ rest
      rw [last, reverseStep, if_pos apart, swapInplace_append]
      rfl

/-- The cursors stay inside the array while they approach each other. -/
def Cursors (len : Int) : Reversal → Prop
  | .running _ f l => 0 ≤ f ∧ l < len
  | .returned _ => True
  | .undefined => True

/-- A pass keeps the cursors inside the array. -/
theorem cursors_reverseStep {len : Int} (state next : Reversal) (inside : Cursors len state)
    (stepped : reverseStep state = some next) : Cursors len next := by
  cases state with
  | running a f l =>
      simp only [reverseStep] at stepped
      split at stepped
      · split at stepped
        · cases stepped
          obtain ⟨low, high⟩ := inside
          constructor <;> omega
        · cases stepped
          trivial
      · cases stepped
        trivial
  | returned a => cases stepped
  | undefined => cases stepped

/-- `reverse_array` on a whole array returns with the array reversed. -/
theorem goes_reverseArray (a : Ints) :
    Goes reverseStep (reverseArray a a.length) (.returned a.reverse) := by
  have goes := goes_middle [] a []
  rwa [List.nil_append, List.nil_append, List.append_nil, List.append_nil, List.length_nil,
    Nat.cast_zero, zero_add] at goes

/-- **Reversal by exclusive or.** For every array and its length `reverse_array` returns with
the elements in reverse order. Wherever its loop goes on to an exchange, the two cursors are
indices of the array, and they are different. A second call restores the array. -/
theorem reverseArray_reverses (a : Ints) :
    Goes reverseStep (reverseArray a a.length) (.returned a.reverse) ∧
      (∀ b f l, Goes reverseStep (reverseArray a a.length) (.running b f l) → f < l →
        (0 ≤ f ∧ f < a.length) ∧ (0 ≤ l ∧ l < a.length) ∧ f ≠ l) ∧
      Goes reverseStep (reverseArray a.reverse a.reverse.length) (.returned a) := by
  refine ⟨goes_reverseArray a, ?_, ?_⟩
  · intro b f l goes apart
    have start : Cursors a.length (reverseArray a a.length) := ⟨le_rfl, Int.sub_one_lt_of_le le_rfl⟩
    obtain ⟨low, high⟩ := goes.invariant cursors_reverseStep start
    exact ⟨⟨low, by omega⟩, ⟨by omega, high⟩, by omega⟩
  · have goes := goes_reverseArray a.reverse
    rwa [List.reverse_reverse] at goes

end CPrograms.ComputerSystems
