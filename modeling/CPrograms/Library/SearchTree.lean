import Mathlib.Data.List.Sort
import Mathlib.Order.Defs.LinearOrder

/-!
# Unbalanced search trees

Binary trees with a key and a value at every node, searched along one linear
order and never rebalanced. An insertion follows the comparisons down to a free
place, or to the node that already holds the key and takes the new value. On
ordered trees insertion and search are update and application of a partial map.

A traversal that gives up at every node whose key fails a test is compared with
the full traversal at the end: it loses nothing exactly when every key passing
the test has only passing keys above it.
-/

namespace CPrograms.Library

universe u v

/-- A binary tree holding a key and a value at every node. -/
inductive SearchTree (κ : Type u) (ν : Type v) where
  | nil
  | node (left : SearchTree κ ν) (key : κ) (value : ν) (right : SearchTree κ ν)
  deriving DecidableEq, Repr

namespace SearchTree

variable {κ : Type u} {ν : Type v}

/-- The entries of a tree, left subtree first. -/
def entries : SearchTree κ ν → List (κ × ν)
  | nil => []
  | node left key value right => left.entries ++ (key, value) :: right.entries

/-- The keys of a tree, left subtree first. -/
def keys (tree : SearchTree κ ν) : List κ :=
  tree.entries.map Prod.fst

/-- The empty tree has no keys. -/
@[simp] theorem keys_nil : (nil : SearchTree κ ν).keys = [] := rfl

/-- The keys of a node are those of its subtrees around its own. -/
@[simp] theorem keys_node (left right : SearchTree κ ν) (key : κ) (value : ν) :
    (node left key value right).keys = left.keys ++ key :: right.keys := by
  simp [keys, entries]

/-- The key of an entry is a key of the tree. -/
theorem mem_keys_of_mem_entries {tree : SearchTree κ ν} {key : κ} {value : ν}
    (member : (key, value) ∈ tree.entries) : key ∈ tree.keys :=
  List.mem_map_of_mem (f := Prod.fst) member

/-- Left keys are smaller and right keys larger, at every node. -/
def Ordered [LT κ] : SearchTree κ ν → Prop
  | nil => True
  | node left key _ right =>
      left.Ordered ∧ right.Ordered ∧ (∀ x ∈ left.keys, x < key) ∧ ∀ x ∈ right.keys, key < x

/-- The node of key `above` is a proper ancestor of the node of key `below`. -/
def Above (above below : κ) : SearchTree κ ν → Prop
  | nil => False
  | node left key _ right =>
      (above = key ∧ (below ∈ left.keys ∨ below ∈ right.keys)) ∨
        left.Above above below ∨ right.Above above below

section Order

variable [LinearOrder κ]

/-- Insert an entry, replacing the value of a key that is already there. -/
def insert (key : κ) (value : ν) : SearchTree κ ν → SearchTree κ ν
  | nil => node nil key value nil
  | node left other old right =>
      if key = other then node left other value right
      else if key < other then node (left.insert key value) other old right
      else node left other old (right.insert key value)

/-- Follow the comparisons down to the value of a key. -/
def lookup (key : κ) : SearchTree κ ν → Option ν
  | nil => none
  | node left other value right =>
      if key = other then some value
      else if key < other then left.lookup key
      else right.lookup key

/-- Insertion adds its own key and no other. -/
@[simp] theorem mem_keys_insert (tree : SearchTree κ ν) (key x : κ) (value : ν) :
    x ∈ (tree.insert key value).keys ↔ x = key ∨ x ∈ tree.keys := by
  induction tree with
  | nil => simp [insert]
  | node left other old right ihLeft ihRight =>
      simp only [insert]
      split
      · next same =>
          subst same
          simp only [keys_node, List.mem_append, List.mem_cons, or_left_comm, or_self_left]
      · split
        · simp only [keys_node, List.mem_append, List.mem_cons, ihLeft, or_assoc]
        · simp only [keys_node, List.mem_append, List.mem_cons, ihRight, or_left_comm]

/-- Insertion keeps a tree ordered. -/
theorem Ordered.insert {tree : SearchTree κ ν} (ordered : tree.Ordered) (key : κ) (value : ν) :
    (tree.insert key value).Ordered := by
  induction tree with
  | nil => simp [SearchTree.insert, Ordered]
  | node left other old right ihLeft ihRight =>
      obtain ⟨orderedLeft, orderedRight, smaller, larger⟩ := ordered
      simp only [SearchTree.insert]
      split
      · exact ⟨orderedLeft, orderedRight, smaller, larger⟩
      · next different =>
          split
          · next less =>
              refine ⟨ihLeft orderedLeft, orderedRight, ?_, larger⟩
              intro x member
              rcases (mem_keys_insert left key x value).mp member with rfl | old
              · exact less
              · exact smaller x old
          · next notLess =>
              refine ⟨orderedLeft, ihRight orderedRight, smaller, ?_⟩
              intro x member
              rcases (mem_keys_insert right key x value).mp member with rfl | old
              · exact lt_of_le_of_ne (not_lt.mp notLess) (Ne.symm different)
              · exact larger x old

/-- The key just inserted is found with its value, in any tree. -/
@[simp] theorem lookup_insert_self (tree : SearchTree κ ν) (key : κ) (value : ν) :
    (tree.insert key value).lookup key = some value := by
  induction tree with
  | nil => simp [insert, lookup]
  | node left other old right ihLeft ihRight =>
      simp only [insert]
      split
      · next same => simp only [lookup, same, ↓reduceIte]
      · next different =>
          split
          · next less => simp only [lookup, different, less, ↓reduceIte, ihLeft]
          · next notLess => simp only [lookup, different, notLess, ↓reduceIte, ihRight]

/-- Insertion leaves the search for every other key unchanged. -/
theorem lookup_insert_of_ne (tree : SearchTree κ ν) {key other : κ} (value : ν)
    (different : other ≠ key) :
    (tree.insert key value).lookup other = tree.lookup other := by
  induction tree with
  | nil =>
      simp only [insert, lookup, different, ↓reduceIte]
      split <;> rfl
  | node left root old right ihLeft ihRight =>
      simp only [insert]
      split
      · next same =>
          subst same
          simp only [lookup, different, ↓reduceIte]
      · split
        · simp only [lookup, ihLeft]
        · simp only [lookup, ihRight]

/-- Search in an inserted tree is search in an updated map. -/
theorem lookup_insert (tree : SearchTree κ ν) (key other : κ) (value : ν) :
    (tree.insert key value).lookup other =
      if other = key then some value else tree.lookup other := by
  by_cases same : other = key
  · subst same
    simp only [lookup_insert_self, ↓reduceIte]
  · simp only [same, ↓reduceIte, lookup_insert_of_ne tree value same]

/-- An ordered tree is traversed in strictly ascending key order. -/
theorem Ordered.keys_pairwise {tree : SearchTree κ ν} (ordered : tree.Ordered) :
    tree.keys.Pairwise (· < ·) := by
  induction tree with
  | nil => exact List.Pairwise.nil
  | node left key value right ihLeft ihRight =>
      obtain ⟨orderedLeft, orderedRight, smaller, larger⟩ := ordered
      rw [keys_node, List.pairwise_append]
      refine ⟨ihLeft orderedLeft, List.pairwise_cons.mpr ⟨larger, ihRight orderedRight⟩, ?_⟩
      intro x inLeft y inRest
      rcases List.mem_cons.mp inRest with rfl | inRight
      · exact smaller x inLeft
      · exact (smaller x inLeft).trans (larger y inRight)

/-- In an ordered tree the search finds exactly the entries. -/
theorem Ordered.mem_entries_iff {tree : SearchTree κ ν} (ordered : tree.Ordered) (key : κ)
    (value : ν) : (key, value) ∈ tree.entries ↔ tree.lookup key = some value := by
  induction tree with
  | nil => simp [entries, lookup]
  | node left other old right ihLeft ihRight =>
      obtain ⟨orderedLeft, orderedRight, smaller, larger⟩ := ordered
      rw [entries, List.mem_append, List.mem_cons, Prod.mk.injEq, ihLeft orderedLeft,
        ihRight orderedRight]
      have below (found : left.lookup key = some value) : key < other :=
        smaller key (mem_keys_of_mem_entries ((ihLeft orderedLeft).mpr found))
      have above (found : right.lookup key = some value) : other < key :=
        larger key (mem_keys_of_mem_entries ((ihRight orderedRight).mpr found))
      rw [lookup]
      rcases lt_trichotomy key other with less | rfl | greater
      · have notAbove := mt above less.not_gt
        simp only [less.ne, less, notAbove, ↓reduceIte, false_and, or_false]
      · have notBelow := mt below (lt_irrefl key)
        have notAbove := mt above (lt_irrefl key)
        simp only [notBelow, notAbove, ↓reduceIte, true_and, false_or, or_false, Option.some.injEq,
          eq_comm]
      · have notBelow := mt below greater.not_gt
        simp only [greater.ne', greater.not_gt, notBelow, ↓reduceIte, false_and, false_or]

/-- The entries of an ordered tree are determined by the map it represents. -/
theorem Ordered.entries_eq {first second : SearchTree κ ν} (orderedFirst : first.Ordered)
    (orderedSecond : second.Ordered) (same : ∀ key, first.lookup key = second.lookup key) :
    first.entries = second.entries := by
  let smaller : κ × ν → κ × ν → Prop := fun earlier later => earlier.1 < later.1
  have irreflexive : Std.Irrefl smaller := ⟨fun entry => lt_irrefl entry.1⟩
  have antisymmetric : Std.Antisymm smaller :=
    ⟨fun _ _ less greater => absurd greater (lt_asymm less)⟩
  apply List.Pairwise.eq_of_mem_iff (r := smaller) (List.pairwise_map.mp orderedFirst.keys_pairwise)
    (List.pairwise_map.mp orderedSecond.keys_pairwise)
  rintro ⟨key, value⟩
  rw [orderedFirst.mem_entries_iff, orderedSecond.mem_entries_iff, same]

end Order

section Pruning

variable (keep : κ → Bool)

/-- The traversal that gives up at every node whose key fails the test. -/
def visit : SearchTree κ ν → List (κ × ν)
  | nil => []
  | node left key value right =>
      if keep key then left.visit ++ (key, value) :: right.visit else []

/-- The entries whose key passes the test, in traversal order. -/
def passing (tree : SearchTree κ ν) : List (κ × ν) :=
  tree.entries.filter fun entry => keep entry.1

variable {keep}

/-- The entries of a node that pass are those of its subtrees around its own, if it passes. -/
theorem passing_node (left right : SearchTree κ ν) (key : κ) (value : ν) :
    (node left key value right).passing keep =
      left.passing keep ++
        (if keep key then (key, value) :: right.passing keep else right.passing keep) := by
  simp only [passing, entries, List.filter_append, List.filter_cons]

/-- The pruned traversal shows nothing but passing entries, in their order. -/
theorem visit_sublist_passing (tree : SearchTree κ ν) :
    (tree.visit keep).Sublist (tree.passing keep) := by
  induction tree with
  | nil => exact List.Sublist.refl _
  | node left key value right ihLeft ihRight =>
      rw [passing_node]
      simp only [visit]
      split
      · exact ihLeft.append (ihRight.cons_cons _)
      · exact List.nil_sublist _

/-- Nothing passes exactly if no key does. -/
theorem passing_eq_nil_iff (tree : SearchTree κ ν) :
    tree.passing keep = [] ↔ ∀ x ∈ tree.keys, keep x = false := by
  simp only [passing, List.filter_eq_nil_iff, keys, List.mem_map, Bool.not_eq_true]
  constructor
  · rintro none x ⟨entry, member, rfl⟩
    exact none entry member
  · intro none entry member
    exact none entry.1 ⟨entry, member, rfl⟩

/-- A key above another one is a key of the tree, and so is the lower one. -/
theorem Above.mem_keys {tree : SearchTree κ ν} {above below : κ}
    (higher : tree.Above above below) : above ∈ tree.keys ∧ below ∈ tree.keys := by
  induction tree with
  | nil => exact higher.elim
  | node left key value right ihLeft ihRight =>
      simp only [keys_node, List.mem_append, List.mem_cons]
      rcases higher with ⟨rfl, inLeft | inRight⟩ | inLeft | inRight
      · exact ⟨.inr (.inl rfl), .inl inLeft⟩
      · exact ⟨.inr (.inl rfl), .inr (.inr inRight)⟩
      · exact ⟨.inl (ihLeft inLeft).1, .inl (ihLeft inLeft).2⟩
      · exact ⟨.inr (.inr (ihRight inRight).1), .inr (.inr (ihRight inRight).2)⟩

private theorem append_cons_eq_of_sublist {α : Type*} {left right left' right' : List α} {x : α}
    (subLeft : left.Sublist left') (subRight : right.Sublist right')
    (same : left ++ x :: right = left' ++ x :: right') : left = left' ∧ right = right' := by
  have lengths := congrArg List.length same
  simp only [List.length_append, List.length_cons] at lengths
  have boundLeft := subLeft.length_le
  have boundRight := subRight.length_le
  exact ⟨subLeft.eq_of_length (by omega), subRight.eq_of_length (by omega)⟩

/-- Below a node whose key fails nothing passes, if no passing key lies below a failing one. -/
private theorem passing_eq_nil_of_closed {left right : SearchTree κ ν} {key : κ} {value : ν}
    (fails : keep key ≠ true)
    (closed : ∀ above below, (node left key value right).Above above below →
      keep below = true → keep above = true) :
    left.passing keep = [] ∧ right.passing keep = [] := by
  simp only [passing_eq_nil_iff, ← Bool.not_eq_true]
  constructor
  · intro x inLeft passes
    exact fails (closed key x (.inl ⟨rfl, .inl inLeft⟩) passes)
  · intro x inRight passes
    exact fails (closed key x (.inl ⟨rfl, .inr inRight⟩) passes)

/-- The pruned traversal shows every passing entry exactly when no passing key
lies below a failing one. -/
theorem visit_eq_passing_iff (tree : SearchTree κ ν) :
    tree.visit keep = tree.passing keep ↔
      ∀ above below, tree.Above above below → keep below = true → keep above = true := by
  induction tree with
  | nil => simp [visit, passing, entries, Above]
  | node left key value right ihLeft ihRight =>
      rw [passing_node]
      simp only [visit]
      by_cases kept : keep key = true
      · simp only [kept, ↓reduceIte]
        constructor
        · intro same above below higher passes
          obtain ⟨sameLeft, sameRight⟩ := append_cons_eq_of_sublist
            left.visit_sublist_passing right.visit_sublist_passing same
          rcases higher with ⟨rfl, _⟩ | inLeft | inRight
          · exact kept
          · exact ihLeft.mp sameLeft above below inLeft passes
          · exact ihRight.mp sameRight above below inRight passes
        · intro closed
          rw [ihLeft.mpr fun above below higher => closed above below (.inr (.inl higher)),
            ihRight.mpr fun above below higher => closed above below (.inr (.inr higher))]
      · simp only [kept, Bool.false_eq_true, ↓reduceIte]
        constructor
        · -- Nothing is shown, so no key passes at all.
          intro same above below higher passes
          have whole : (node left key value right).passing keep = [] := by
            rw [passing_node, if_neg kept, same]
          have fails := (passing_eq_nil_iff _).mp whole below (Above.mem_keys higher).2
          exact absurd passes (by simp [fails])
        · intro closed
          obtain ⟨emptyLeft, emptyRight⟩ := passing_eq_nil_of_closed kept closed
          rw [emptyLeft, emptyRight]
          rfl

end Pruning

end SearchTree

end CPrograms.Library
