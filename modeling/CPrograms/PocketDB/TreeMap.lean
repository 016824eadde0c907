import CPrograms.Library.SearchTree
import CPrograms.PocketDB.RowCodec

/-!
# The tree map of pocketDB

The operations of `treemap.c` over the search tree of NUL-terminated keys and
values. A run of `tree_put` calls is compared with the partial map that sends a
key to the bytes stored by its last put: the tree stays ordered, and searching it
is applying that map.

`get_node` leaves its two recursive branches without a `return`. The value of such
a call is undefined in C and `CallValue.missing` here.
-/

namespace CPrograms.PocketDB

open Library

variable {libc : Libc}

/-- A node pointer; the empty tree is the null pointer. -/
abbrev Node := SearchTree CString CString

/-- `new_node`, handed the string at the pointer `value`. -/
def newNode (key value : CString) : Node → Node
  | .nil => .node .nil key value .nil
  | .node leftChild rootKey old rightChild =>
      let cond := strcmp key rootKey
      if cond = 0 then .node leftChild rootKey value rightChild
      else if cond < 0 then .node (newNode key value leftChild) rootKey old rightChild
      else .node leftChild rootKey old (newNode key value rightChild)

/-- The map with its counter. -/
structure TreeMap where
  size : Int
  root : Node
  deriving DecidableEq

/-- `new_tree_map`. -/
def newTreeMap : TreeMap :=
  ⟨0, .nil⟩

/-- `++tree->size`, taken when the root just assigned is not null. -/
def countPut (size : Int) : Node → Int
  | .nil => size
  | .node .. => size + 1

/-- `tree_put`, given what the heap held where the row is compacted. It ends the
program on an empty row. -/
def treePut (heap : Nat → UInt8) (tree : TreeMap) (key : CString) (rowData : Row libc) :
    Option TreeMap := do
  let data ← dataCompact heap rowData
  let value ← strdup data
  let root := newNode key value tree.root
  some ⟨countPut tree.size root, root⟩

/-- What a call leaves behind: the value it returned, or none when control ran off
the end of the function. -/
inductive CallValue (α : Type) where
  | returned (value : α)
  | missing
  deriving DecidableEq

/-- A call whose value is dropped, at the end of a function. -/
def CallValue.dropped {α : Type} (_ : CallValue α) : CallValue α :=
  .missing

/-- `get_node`. Only a node that matches at once and the null pointer are returned. -/
def getNode (key : CString) : Node → CallValue Node
  | .nil => .returned .nil
  | .node leftChild rootKey value rightChild =>
      if strcmp key rootKey = 0 then .returned (.node leftChild rootKey value rightChild)
      else if strcmp key rootKey < 0 then (getNode key leftChild).dropped
      else (getNode key rightChild).dropped

/-- What reaches the screen: an entry with its expanded row, `none` where the
expansion is undefined, or the message for a key that was not found. -/
inductive Shown (libc : Libc) where
  | entry (key : CString) (row : Option (Row libc))
  | notInTreemap (key : CString)

/-- `tree_get`: its answer and what it displays. -/
def treeGet (libc : Libc) (tree : TreeMap) (key : CString) : CallValue (Int × Shown libc) :=
  match getNode key tree.root with
  | .returned (.node _ _ value _) => .returned (1, .entry key (dataExpand libc value))
  | .returned .nil => .returned (-1, .notInTreemap key)
  | .missing => .missing

/-- One call of `display_treemap_node`. -/
structure Display (libc : Libc) where
  key : CString
  row : Option (Row libc)

/-- The display calls of `tree_get_all`, in order. -/
def treeGetAll (libc : Libc) : Node → List (Display libc)
  | .nil => []
  | .node leftChild key value rightChild =>
      treeGetAll libc leftChild ++ ⟨key, dataExpand libc value⟩ :: treeGetAll libc rightChild

/-- The display calls of `tree_get_in_range`, in order. -/
def treeGetInRange (libc : Libc) (firstKey lastKey : CString) : Node → List (Display libc)
  | .nil => []
  | .node leftChild key value rightChild =>
      if 0 ≤ strcmp key firstKey ∧ strcmp key lastKey ≤ 0 then
        treeGetInRange libc firstKey lastKey leftChild ++
          ⟨key, dataExpand libc value⟩ :: treeGetInRange libc firstKey lastKey rightChild
      else []

/-! ## Runs of puts -/

/-- One call of `tree_put`, with what the heap held where its row is compacted. -/
structure PutCall (libc : Libc) where
  key : CString
  row : Row libc
  heap : Nat → UInt8

/-- The bytes a call stores under its key. -/
def PutCall.stored (call : PutCall libc) : Option CString :=
  (dataCompact call.heap call.row).bind strdup

/-- Successive calls of `tree_put`. -/
def treePuts : TreeMap → List (PutCall libc) → Option TreeMap
  | tree, [] => some tree
  | tree, call :: calls => do
      let next ← treePut call.heap tree call.key call.row
      treePuts next calls

/-- The bytes stored by the last put of a key. -/
def latest : List (PutCall libc) → CString → Option CString
  | [], _ => none
  | call :: calls, key => (latest calls key).or (if call.key = key then call.stored else none)

/-- `new_node` is insertion into the search tree. -/
theorem newNode_eq_insert (key value : CString) (root : Node) :
    newNode key value root = root.insert key value := by
  induction root with
  | nil => rfl
  | node left rootKey old right ihLeft ihRight =>
      simp only [newNode, SearchTree.insert, strcmp_eq_zero_iff, strcmp_neg_iff, ihLeft, ihRight]

/-- A put counts. -/
theorem countPut_insert (size : Int) (key value : CString) (root : Node) :
    countPut size (root.insert key value) = size + 1 := by
  cases root with
  | nil => rfl
  | node left rootKey old right =>
      simp only [SearchTree.insert]
      split
      · rfl
      · split <;> rfl

/-- A put inserts the stored bytes and counts itself. -/
theorem treePut_eq (call : PutCall libc) (tree : TreeMap) :
    treePut call.heap tree call.key call.row =
      call.stored.map fun value => ⟨tree.size + 1, tree.root.insert call.key value⟩ := by
  simp only [treePut, PutCall.stored, newNode_eq_insert, Option.bind_eq_bind]
  cases dataCompact call.heap call.row with
  | none => rfl
  | some data =>
      simp only [Option.bind_some]
      cases strdup data with
      | none => rfl
      | some value => simp only [Option.bind_some, Option.map_some, countPut_insert]

/-- The first put, and then the others. -/
theorem treePuts_cons {tree final : TreeMap} {call : PutCall libc} {calls : List (PutCall libc)}
    (run : treePuts tree (call :: calls) = some final) :
    ∃ value, call.stored = some value ∧
      treePuts ⟨tree.size + 1, tree.root.insert call.key value⟩ calls = some final := by
  rw [treePuts, treePut_eq, Option.bind_eq_bind, Option.bind_eq_some_iff] at run
  obtain ⟨next, put, rest⟩ := run
  obtain ⟨value, stored, rfl⟩ := Option.map_eq_some_iff.mp put
  exact ⟨value, stored, rest⟩

/-- Puts keep the tree ordered and make the search for a key find its last put. -/
theorem treePuts_spec {tree final : TreeMap} {calls : List (PutCall libc)}
    (run : treePuts tree calls = some final) (ordered : tree.root.Ordered) :
    final.root.Ordered ∧
      ∀ key, final.root.lookup key = (latest calls key).or (tree.root.lookup key) := by
  induction calls generalizing tree with
  | nil =>
      cases Option.some.inj run
      exact ⟨ordered, fun key => by simp only [latest, Option.none_or]⟩
  | cons call calls ih =>
      obtain ⟨value, stored, rest⟩ := treePuts_cons run
      obtain ⟨finalOrdered, finalLookup⟩ := ih rest (ordered.insert call.key value)
      refine ⟨finalOrdered, fun key => ?_⟩
      rw [finalLookup, SearchTree.lookup_insert, latest, Option.or_assoc, stored]
      by_cases same : key = call.key
      · simp only [same, ↓reduceIte, Option.some_or]
      · simp only [same, Ne.symm same, ↓reduceIte, Option.none_or]

/-- The tree of a run of puts is ordered. -/
theorem treePuts_ordered {final : TreeMap} {calls : List (PutCall libc)}
    (run : treePuts newTreeMap calls = some final) : final.root.Ordered :=
  (treePuts_spec run trivial).1

/-- **The tree map refines the partial map of last puts.** -/
theorem treePuts_lookup {final : TreeMap} {calls : List (PutCall libc)}
    (run : treePuts newTreeMap calls = some final) (key : CString) :
    final.root.lookup key = latest calls key := by
  rw [(treePuts_spec run trivial).2 key]
  exact Option.or_none

/-- In a completed run a key has a last put exactly when it was put at all. -/
theorem latest_eq_none_iff {tree final : TreeMap} {calls : List (PutCall libc)}
    (run : treePuts tree calls = some final) (key : CString) :
    latest calls key = none ↔ key ∉ calls.map PutCall.key := by
  induction calls generalizing tree with
  | nil => simp [latest]
  | cons call calls ih =>
      obtain ⟨value, stored, rest⟩ := treePuts_cons run
      rw [latest, Option.or_eq_none_iff, ih rest, stored]
      by_cases same : call.key = key
      · simp [same]
      · simp [same, Ne.symm same]

/-- The key at the root of a tree. -/
def rootKey? : Node → Option CString
  | .nil => none
  | .node _ key _ _ => some key

/-- The first key stays at the root. -/
theorem rootKey?_insert (key value : CString) (root : Node) :
    rootKey? (root.insert key value) = (rootKey? root).or (some key) := by
  cases root with
  | nil => rfl
  | node left rootKey old right =>
      simp only [SearchTree.insert]
      split
      · rfl
      · split <;> rfl

/-- The root holds the key of the first put for good. -/
theorem treePuts_rootKey? {tree final : TreeMap} {calls : List (PutCall libc)}
    (run : treePuts tree calls = some final) :
    rootKey? final.root = (rootKey? tree.root).or (calls.head?.map PutCall.key) := by
  induction calls generalizing tree with
  | nil =>
      cases Option.some.inj run
      simp only [List.head?_nil, Option.map_none, Option.or_none]
  | cons call calls ih =>
      obtain ⟨value, -, rest⟩ := treePuts_cons run
      rw [ih rest, rootKey?_insert, Option.or_assoc, Option.some_or, List.head?_cons,
        Option.map_some]

/-! ## Traversals -/

/-- `tree_get_all` displays the entries of the tree. -/
theorem treeGetAll_eq (root : Node) :
    treeGetAll libc root =
      root.entries.map fun entry => ⟨entry.1, dataExpand libc entry.2⟩ := by
  induction root with
  | nil => rfl
  | node left key value right ihLeft ihRight =>
      simp only [treeGetAll, SearchTree.entries, List.map_append, List.map_cons, ihLeft, ihRight]

/-- The test of `tree_get_in_range` at a node. -/
def inRange (firstKey lastKey key : CString) : Bool :=
  0 ≤ strcmp key firstKey && strcmp key lastKey ≤ 0

/-- `tree_get_in_range` displays what the pruned traversal visits. -/
theorem treeGetInRange_eq (firstKey lastKey : CString) (root : Node) :
    treeGetInRange libc firstKey lastKey root =
      (root.visit (inRange firstKey lastKey)).map fun entry =>
        ⟨entry.1, dataExpand libc entry.2⟩ := by
  induction root with
  | nil => rfl
  | node left key value right ihLeft ihRight =>
      simp only [treeGetInRange, SearchTree.visit, inRange, Bool.and_eq_true, decide_eq_true_eq]
      split
      · simp only [List.map_append, List.map_cons, ihLeft, ihRight]
      · rfl

end CPrograms.PocketDB
