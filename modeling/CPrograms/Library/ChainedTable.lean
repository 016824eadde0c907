import Mathlib.Data.List.Nodup
import Mathlib.Data.List.Perm.Basic
import Mathlib.Logic.Function.Basic

/-!
# Chained hash tables

A map as a list of entries with distinct keys, and a table of chains in which every entry lies in
the chain of its place. A key is searched for in one chain; changing a chain changes the entries of
the table by what was changed, up to their order.
-/

namespace CPrograms.Library

universe u v

variable {K : Type u} {V : Type v}

/-! ## Lists of entries -/

/-- No key occurs twice. -/
def Distinct (entries : List (K × V)) : Prop := (entries.map Prod.fst).Nodup

/-- The order of the entries does not matter for their keys being distinct. -/
theorem Distinct.perm {entries entries' : List (K × V)} (distinct : Distinct entries)
    (same : entries.Perm entries') : Distinct entries' :=
  (same.map Prod.fst).nodup_iff.mp distinct

/-- An entry is added to distinct ones if none of them has its key. -/
theorem distinct_cons {entry : K × V} {entries : List (K × V)} :
    Distinct (entry :: entries) ↔ (∀ other ∈ entries, other.1 ≠ entry.1) ∧ Distinct entries := by
  simp only [Distinct, List.map_cons, List.nodup_cons, List.mem_map, not_exists, not_and, ne_eq]

/-! ## Chains -/

variable {place : K → Nat} {chains : List (List (K × V))}

/-- Every entry lies in the chain of its place. -/
def Placed (place : K → Nat) (chains : List (List (K × V))) : Prop :=
  ∀ i chain, chains[i]? = some chain → ∀ entry ∈ chain, place entry.1 = i

/-- An entry is in the table exactly if it is in the chain of its key. -/
theorem Placed.mem_flatten_iff (placed : Placed place chains) {entry : K × V} :
    entry ∈ chains.flatten ↔ ∃ chain, chains[place entry.1]? = some chain ∧ entry ∈ chain := by
  rw [List.mem_flatten]
  constructor
  · rintro ⟨chain, inTable, inChain⟩
    obtain ⟨i, found⟩ := List.mem_iff_getElem?.mp inTable
    exact ⟨chain, placed i chain found entry inChain ▸ found, inChain⟩
  · rintro ⟨chain, found, inChain⟩
    exact ⟨chain, List.mem_of_getElem? found, inChain⟩

/-- A chain may be replaced by entries that belong there. -/
theorem Placed.set (placed : Placed place chains) {i : Nat} {chain : List (K × V)}
    (own : ∀ entry ∈ chain, place entry.1 = i) : Placed place (chains.set i chain) := by
  intro j chain' found entry member
  rw [List.getElem?_set] at found
  split at found
  · next same =>
      subst same
      split at found <;> cases found
      exact own entry member
  · exact placed j chain' found entry member

/-- Changing a chain changes the entries by what was changed. -/
theorem flatten_set_perm {α : Type*} {chains : List (List α)} {i : Nat} {chain : List α}
    (found : chains[i]? = some chain) :
    ∃ rest, chains.flatten.Perm (chain ++ rest) ∧
      ∀ chain', (chains.set i chain').flatten.Perm (chain' ++ rest) := by
  induction chains generalizing i with
  | nil => cases found
  | cons first chains ih =>
      cases i with
      | zero =>
          cases found
          exact ⟨chains.flatten, .refl _, fun chain' => .refl _⟩
      | succ i =>
          obtain ⟨rest, before, after⟩ := ih found
          refine ⟨first ++ rest, ?_, fun chain' => ?_⟩
          · rw [List.flatten_cons]
            exact (before.append_left first).trans (List.perm_append_comm_assoc _ _ _)
          · rw [List.set_cons_succ, List.flatten_cons]
            exact ((after chain').append_left first).trans (List.perm_append_comm_assoc _ _ _)

/-! ## Maps -/

variable [DecidableEq K]

/-- The map that a list of entries represents. -/
def mapOf (entries : List (K × V)) (key : K) : Option V :=
  (entries.find? fun entry => entry.1 = key).map Prod.snd

/-- No entries are the empty map. -/
theorem mapOf_nil : mapOf ([] : List (K × V)) = fun _ => none := rfl

/-- An entry in front decides for its key. -/
theorem mapOf_cons (entry : K × V) (entries : List (K × V)) :
    mapOf (entry :: entries) = Function.update (mapOf entries) entry.1 (some entry.2) := by
  funext key
  by_cases same : entry.1 = key
  · subst same
    simp [mapOf]
  · rw [Function.update_of_ne (Ne.symm same)]
    simp [mapOf, same]

/-- A key is not mapped exactly if no entry has it. -/
theorem mapOf_eq_none_iff {entries : List (K × V)} {key : K} :
    mapOf entries key = none ↔ ∀ entry ∈ entries, entry.1 ≠ key := by
  simp [mapOf, List.find?_eq_none]

/-- With distinct keys the map is the set of entries. -/
theorem mapOf_eq_some_iff {entries : List (K × V)} (distinct : Distinct entries) {key : K}
    {value : V} : mapOf entries key = some value ↔ (key, value) ∈ entries := by
  induction entries with
  | nil => simp [mapOf]
  | cons entry entries ih =>
      obtain ⟨fresh, distinct⟩ := distinct_cons.mp distinct
      rw [mapOf_cons, List.mem_cons]
      by_cases same : key = entry.1
      · subst same
        rw [Function.update_self, Option.some.injEq]
        constructor
        · rintro rfl
          exact .inl rfl
        · rintro (equal | member)
          · rw [← equal]
          · exact (fresh (entry.1, value) member rfl).elim
      · rw [Function.update_of_ne same, ih distinct]
        constructor
        · exact .inr
        · rintro (equal | member)
          · exact absurd (congrArg Prod.fst equal) same
          · exact member

/-- The order of distinct entries does not matter for their map. -/
theorem mapOf_perm {entries entries' : List (K × V)} (distinct : Distinct entries)
    (same : entries.Perm entries') : mapOf entries = mapOf entries' := by
  funext key
  apply Option.ext
  intro value
  rw [mapOf_eq_some_iff distinct, mapOf_eq_some_iff (distinct.perm same), same.mem_iff]

/-- The value at a key is replaced, or taken away, with the entry for it. -/
theorem mapOf_replace {entries : List (K × V)} {entry : K × V}
    (distinct : Distinct (entry :: entries)) (new : Option V) :
    Distinct ((new.map (Prod.mk entry.1)).toList ++ entries) ∧
      mapOf ((new.map (Prod.mk entry.1)).toList ++ entries) =
        Function.update (mapOf (entry :: entries)) entry.1 new := by
  obtain ⟨fresh, rest⟩ := distinct_cons.mp distinct
  rw [mapOf_cons, Function.update_idem]
  cases new with
  | none =>
      refine ⟨rest, ?_⟩
      have kept := Function.update_eq_self entry.1 (mapOf entries)
      rw [mapOf_eq_none_iff.mpr fresh] at kept
      exact kept.symm
  | some value => exact ⟨distinct_cons.mpr ⟨fresh, rest⟩, mapOf_cons _ entries⟩

end CPrograms.Library
