import CPrograms.PocketDB.Queries
import Mathlib.Data.List.Dedup

/-!
# The full listing and the size counter

What `tree_get_all` displays depends on a run of puts only through the last put of
every key: the entries come in key order, so the shape of the tree does not show.
The counter `size` does not have this property. `tree_put` advances it on every call,
and it is the number of nodes only while no key has been put twice.
-/

namespace CPrograms.PocketDB

open Library

variable {libc : Libc}

/-! ## The listing -/

/-- The entries of the tree are the last puts. -/
theorem treePuts_mem_entries {calls : List (PutCall libc)} {tree : TreeMap}
    (run : treePuts newTreeMap calls = some tree) (key value : CString) :
    (key, value) ∈ tree.root.entries ↔ latest calls key = some value := by
  rw [(treePuts_ordered run).mem_entries_iff, treePuts_lookup run]

/-- The keys of the tree are the keys put. -/
theorem treePuts_mem_keys {calls : List (PutCall libc)} {tree : TreeMap}
    (run : treePuts newTreeMap calls = some tree) (key : CString) :
    key ∈ tree.root.keys ↔ key ∈ calls.map PutCall.key := by
  rw [← not_iff_not, ← latest_eq_none_iff run, Option.eq_none_iff_forall_ne_some]
  simp only [SearchTree.keys, List.mem_map, not_exists, not_and, Prod.forall]
  constructor
  · intro absent value last
    exact absent key value ((treePuts_mem_entries run key value).mpr last) rfl
  · rintro never key value member rfl
    exact never value ((treePuts_mem_entries run key value).mp member)

/-- The keys of the tree are listed in strictly ascending order. -/
theorem treePuts_keys_pairwise {calls : List (PutCall libc)} {tree : TreeMap}
    (run : treePuts newTreeMap calls = some tree) :
    tree.root.keys.Pairwise fun earlier later => strcmp earlier later < 0 :=
  (treePuts_ordered run).keys_pairwise.imp fun less => (strcmp_neg_iff _ _).mpr less

/-- Runs with the same last puts have trees with the same entries. -/
theorem treePuts_entries_eq {calls others : List (PutCall libc)} {tree other : TreeMap}
    (run : treePuts newTreeMap calls = some tree)
    (otherRun : treePuts newTreeMap others = some other)
    (same : ∀ key, latest others key = latest calls key) :
    other.root.entries = tree.root.entries := by
  apply (treePuts_ordered otherRun).entries_eq (treePuts_ordered run)
  intro key
  rw [treePuts_lookup otherRun, treePuts_lookup run, same]

/-- **The full listing is canonical.** After any run of puts `tree_get_all` displays the
keys put, each once and in strictly ascending order, with the row of its last put. Any other
run with the same last puts gives the same listing. -/
theorem treeGetAll_canonical (calls : List (PutCall libc)) (tree : TreeMap)
    (run : treePuts newTreeMap calls = some tree) :
    (∃ listing : List (CString × CString),
      treeGetAll libc tree.root =
          listing.map (fun entry => ⟨entry.1, dataExpand libc entry.2⟩) ∧
        (listing.map Prod.fst).Pairwise (fun earlier later => strcmp earlier later < 0) ∧
        (∀ key, key ∈ listing.map Prod.fst ↔ key ∈ calls.map PutCall.key) ∧
        ∀ key value, (key, value) ∈ listing ↔ latest calls key = some value) ∧
      ∀ (others : List (PutCall libc)) (other : TreeMap),
        treePuts newTreeMap others = some other →
        (∀ key, latest others key = latest calls key) →
        treeGetAll libc other.root = treeGetAll libc tree.root := by
  constructor
  · exact ⟨tree.root.entries, treeGetAll_eq tree.root, treePuts_keys_pairwise run,
      treePuts_mem_keys run, treePuts_mem_entries run⟩
  · intro others other otherRun same
    rw [treeGetAll_eq, treeGetAll_eq, treePuts_entries_eq run otherRun same]

/-- The puts of the sample run the other way round, with one of them overwriting. -/
def repeatedPuts : List (PutCall integerLibc) :=
  [⟨key12, [⟨6, branch, 3, .STRING oss⟩], fun _ => 255⟩, ⟨key15, sampleRow, fun _ => 255⟩,
    ⟨key12, sampleRow, fun _ => 0⟩]

/-- The tree after these puts. -/
def repeatedTree : TreeMap :=
  ⟨3, .node .nil key12 sampleBytes (.node .nil key15 sampleBytes .nil)⟩

/-- The run of the puts with a repeated key. -/
theorem repeatedPuts_run : treePuts newTreeMap repeatedPuts = some repeatedTree := by
  decide

private theorem latest_repeatedPuts (key : CString) :
    latest repeatedPuts key = latest samplePuts key := by
  rw [← treePuts_lookup repeatedPuts_run, ← treePuts_lookup samplePuts_run]
  have less : key12 < key15 := by decide
  simp only [repeatedTree, sampleTree, SearchTree.lookup]
  rcases lt_trichotomy key key12 with below | rfl | above
  · simp only [below.ne, below, (below.trans less).ne, below.trans less, ↓reduceIte]
  · simp only [less.ne, less, ↓reduceIte]
  · simp only [above.ne', above.not_gt, ↓reduceIte, ite_self]

/-- A repeated put leaves the listing as it is. -/
theorem repeatedPuts_listing :
    treePuts newTreeMap samplePuts = some sampleTree ∧
      treePuts newTreeMap repeatedPuts = some repeatedTree ∧
      treeGetAll integerLibc repeatedTree.root = treeGetAll integerLibc sampleTree.root :=
  ⟨samplePuts_run, repeatedPuts_run,
    (treeGetAll_canonical samplePuts sampleTree samplePuts_run).2 repeatedPuts repeatedTree
      repeatedPuts_run latest_repeatedPuts⟩

/-! ## The counter -/

/-- The counter is the number of nodes and the number of distinct keys put, and it has not
passed `INT_MAX`. -/
structure CountsKeys (calls : List (PutCall libc)) (tree : TreeMap) : Prop where
  nodes : tree.size = tree.root.entries.length
  distinct : tree.size = (calls.map PutCall.key).dedup.length
  fits : tree.size < 2 ^ 31

/-- Every put counts itself, also one that overwrites. -/
theorem treePuts_size {tree final : TreeMap} {calls : List (PutCall libc)}
    (run : treePuts tree calls = some final) : final.size = tree.size + calls.length := by
  induction calls generalizing tree with
  | nil =>
      cases Option.some.inj run
      simp
  | cons call calls ih =>
      obtain ⟨value, -, rest⟩ := treePuts_cons run
      rw [ih rest, List.length_cons]
      change tree.size + 1 + (calls.length : Int) = tree.size + ((calls.length + 1 : Nat) : Int)
      omega

/-- There is one node for each distinct key put. -/
theorem treePuts_length_entries {calls : List (PutCall libc)} {tree : TreeMap}
    (run : treePuts newTreeMap calls = some tree) :
    tree.root.entries.length = (calls.map PutCall.key).dedup.length := by
  have distinct : tree.root.keys.Nodup :=
    (treePuts_ordered run).keys_pairwise.imp fun less => less.ne
  have perm : tree.root.keys.Perm (calls.map PutCall.key).dedup := by
    rw [List.perm_ext_iff_of_nodup distinct (List.nodup_dedup _)]
    intro key
    rw [List.mem_dedup, treePuts_mem_keys run]
  rw [← perm.length_eq, SearchTree.keys, List.length_map]

/-- **When the size counter is the size.** After a run of puts the counter is the number of
nodes, that is of distinct keys, exactly when no key was put twice and an `int` can count the
puts. -/
theorem countsKeys_iff (calls : List (PutCall libc)) (tree : TreeMap)
    (run : treePuts newTreeMap calls = some tree) :
    CountsKeys calls tree ↔ (calls.map PutCall.key).Nodup ∧ calls.length < 2 ^ 31 := by
  have size : tree.size = calls.length := by
    rw [treePuts_size run]
    exact Int.zero_add _
  have nodes := treePuts_length_entries run
  constructor
  · rintro ⟨-, distinct, fits⟩
    rw [size] at distinct fits
    refine ⟨?_, by exact_mod_cast fits⟩
    rw [← List.dedup_eq_self]
    apply (List.dedup_sublist _).eq_of_length
    rw [List.length_map]
    exact_mod_cast distinct.symm
  · rintro ⟨nodup, few⟩
    have length : (calls.map PutCall.key).dedup.length = calls.length := by
      rw [nodup.dedup, List.length_map]
    exact ⟨by rw [size, nodes, length], by rw [size, length], by rw [size]; exact_mod_cast few⟩

/-- The sample puts count their keys. -/
theorem samplePuts_countsKeys :
    treePuts newTreeMap samplePuts = some sampleTree ∧ CountsKeys samplePuts sampleTree :=
  ⟨samplePuts_run, (countsKeys_iff samplePuts sampleTree samplePuts_run).mpr (by decide)⟩

/-- Three puts of two keys are counted as three nodes. -/
theorem repeatedPuts_miscounted :
    treePuts newTreeMap repeatedPuts = some repeatedTree ∧
      repeatedTree.root.entries.length = 2 ∧ repeatedTree.size = 3 ∧
      ¬ CountsKeys repeatedPuts repeatedTree := by
  refine ⟨repeatedPuts_run, rfl, rfl, ?_⟩
  rintro ⟨nodes, -, -⟩
  exact absurd nodes (by decide)

end CPrograms.PocketDB
