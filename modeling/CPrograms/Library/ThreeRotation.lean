import Mathlib.Logic.Relation
import Mathlib.Data.List.Perm.Basic

/-!
# Rotations of three neighbours

Rotating three consecutive entries of a list, again and again, brings any entry to
the front of any list of at least three. So every list reaches every rearrangement
of it, up to an exchange of the last two entries.
-/

namespace CPrograms.Library

open Relation

universe u

variable {α : Type u}

/-- Three consecutive entries move on by one place, the last of them to the front. -/
inductive ThreeRotation : List α → List α → Prop where
  | rotate (front : List α) (a b c : α) (back : List α) :
      ThreeRotation (front ++ a :: b :: c :: back) (front ++ c :: a :: b :: back)

namespace ThreeRotation

/-- A rotation behind another element. -/
theorem cons {first second : List α} (x : α) (step : ThreeRotation first second) :
    ThreeRotation (x :: first) (x :: second) := by
  cases step with
  | rotate front a b c back => exact .rotate (x :: front) a b c back

/-- Rotations behind another element. -/
theorem reach_cons {first second : List α} (x : α)
    (steps : ReflTransGen ThreeRotation first second) :
    ReflTransGen ThreeRotation (x :: first) (x :: second) :=
  steps.lift (x :: ·) fun _ _ => cons x

/-- A rotation is a permutation. -/
theorem perm {first second : List α} (step : ThreeRotation first second) : first.Perm second := by
  cases step with
  | rotate front a b c back =>
      apply List.Perm.append_left
      exact (((List.Perm.swap c b back).cons a).trans (List.Perm.swap c a (b :: back)))

/-- Rotations are permutations. -/
theorem reach_perm {first second : List α} (steps : ReflTransGen ThreeRotation first second) :
    first.Perm second := by
  induction steps with
  | refl => exact List.Perm.refl _
  | tail _ step ih => exact ih.trans step.perm

/-- In a list of at least three, any entry can be brought to the front. -/
theorem reach_front (x : α) (front back : List α) (enough : 2 ≤ front.length + back.length) :
    ∃ rest, ReflTransGen ThreeRotation (front ++ x :: back) (x :: rest) := by
  -- Two places at a time from the back, and a double turn for the last single place.
  induction count : front.length using Nat.strongRecOn generalizing front back with
  | ind count ih =>
      rcases List.eq_nil_or_concat front with rfl | ⟨short, b, rfl⟩
      · exact ⟨back, .refl⟩
      · rcases List.eq_nil_or_concat short with rfl | ⟨shorter, a, rfl⟩
        · cases back with
          | nil => simp at enough
          | cons c back =>
              refine ⟨c :: b :: back, ?_⟩
              exact (ReflTransGen.single (.rotate [] b x c back)).tail (.rotate [] c b x back)
        · obtain ⟨rest, steps⟩ := ih shorter.length (by subst count; simp) shorter
            (a :: b :: back) (by simp at enough ⊢; omega) rfl
          refine ⟨rest, .head ?_ steps⟩
          simpa using ThreeRotation.rotate shorter a b x back

/-- **Rearrangement by three-rotations.** A list reaches each of its rearrangements, or
that rearrangement with its last two entries exchanged. -/
theorem reach_of_perm {list front : List α} {y z : α} (same : list.Perm (front ++ [y, z])) :
    ReflTransGen ThreeRotation list (front ++ [y, z]) ∨
      ReflTransGen ThreeRotation list (front ++ [z, y]) := by
  induction front generalizing list with
  | nil =>
      obtain ⟨a, b, rfl⟩ := List.length_eq_two.mp same.length_eq
      have member : a = y ∨ a = z := by simpa using same.subset List.mem_cons_self
      rcases member with rfl | rfl
      · have rest := List.perm_singleton.mp (same.cons_inv)
        rw [List.cons.inj rest |>.1]
        exact .inl .refl
      · have rest := List.perm_singleton.mp (same.trans (List.Perm.swap a y [])).cons_inv
        rw [List.cons.inj rest |>.1]
        exact .inr .refl
  | cons x front ih =>
      have member : x ∈ list := same.symm.subset (by simp)
      obtain ⟨before, after, rfl⟩ := List.append_of_mem member
      have enough : 2 ≤ before.length + after.length := by
        have lengths := same.length_eq
        simp only [List.length_append, List.length_cons, List.length_nil] at lengths
        omega
      obtain ⟨rest, steps⟩ := reach_front x before after enough
      have tail : rest.Perm (front ++ [y, z]) :=
        ((reach_perm steps).symm.trans same).cons_inv
      rcases ih tail with straight | crossed
      · exact .inl (steps.trans (reach_cons x straight))
      · exact .inr (steps.trans (reach_cons x crossed))

end ThreeRotation

end CPrograms.Library
