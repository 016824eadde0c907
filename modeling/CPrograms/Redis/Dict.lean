import CPrograms.Library.ChainedTable
import Mathlib.Data.BitVec

/-!
# The dictionary of redis

The hash table of `dict.c`. It is resized incrementally: while it is, there are two tables, and
most operations first move one bucket from the old table to the new one. A result `none` of a
function here is an assertion that fails, an access outside a table or an `int` that overflows. The
keys are what `keyCompare` compares, and memory does not run out.
-/

namespace CPrograms.Redis

variable {K V : Type}

/-- A hash table: the chains of its buckets, how many they should be, the mask for their index, and
the number of entries. -/
structure Dictht (K V : Type) where
  table : List (List (K × V))
  size : Nat
  sizemask : BitVec 64
  used : Nat

/-- `_dictReset`: no table. -/
def Dictht.reset : Dictht K V := ⟨[], 0, 0, 0⟩

/-- Whether `table` is `NULL`: `_dictReset` makes it so, with no size, and `zcalloc` never does. -/
def Dictht.isNull (ht : Dictht K V) : Bool := ht.size = 0

/-- A dictionary. `rehashidx` is the next bucket of `ht0` to be moved to `ht1`, or `none` (-1 in
the source) when it is not being resized, and `iterators` counts the safe iterators in use. -/
structure Dict (K V : Type) where
  ht0 : Dictht K V
  ht1 : Dictht K V
  rehashidx : Option Nat
  iterators : Nat

/-- A new dictionary. -/
def dictCreate : Dict K V := ⟨.reset, .reset, none, 0⟩

/-- Whether entries are being moved to the second table. -/
def dictIsRehashing (d : Dict K V) : Bool := d.rehashidx.isSome

/-- The number of entries in both tables. -/
def dictSize (d : Dict K V) : Nat := d.ht0.used + d.ht1.used

/-- The initial size of every hash table. -/
def dictHtInitialSize : Nat := 4

/-- `LONG_MAX`. -/
def longMax : Nat := 2 ^ 63 - 1

/-- The loop of `_dictNextPower`, with the number of times `i` can be doubled. -/
def doubled (size : Nat) : Nat → Nat → Nat
  | 0, i => i
  | times + 1, i => if size ≤ i then i else doubled size times (i * 2)

/-- The smallest size of a table that is not below a number. -/
def dictNextPower (size : Nat) : Nat :=
  if longMax ≤ size then longMax + 1 else doubled size 61 dictHtInitialSize

/-- `sizeof(dictEntry*)`. -/
def entryPointerSize : Nat := 8

/-- The table `zcalloc` gives for a size. The number of bytes is a `size_t`, and wraps. -/
def Dictht.ofSize (realsize : Nat) : Dictht K V :=
  ⟨List.replicate (realsize * entryPointerSize % 2 ^ 64 / entryPointerSize) [], realsize,
    .ofNat 64 (realsize - 1), 0⟩

/-- Expand or create the hash table; `false` is `DICT_ERR`. -/
def dictExpand (d : Dict K V) (size : Nat) : Dict K V × Bool :=
  let realsize := dictNextPower size
  if dictIsRehashing d || decide (size < d.ht0.used) then (d, false)
  else if realsize = d.ht0.size then (d, false)
  else if d.ht0.isNull then ({ d with ht0 := .ofSize realsize }, true)
  else ({ d with ht1 := .ofSize realsize, rehashidx := some 0 }, true)

/-- Resize the table to the minimal size that contains all the elements. The number of elements
is taken as an `int`. -/
def dictResize (canResize : Bool) (d : Dict K V) : Dict K V × Bool :=
  if !canResize || dictIsRehashing d then (d, false)
  else
    let minimal := (BitVec.ofNat 32 d.ht0.used).toInt
    dictExpand d (if minimal < dictHtInitialSize then dictHtInitialSize else minimal.toNat)

/-- How the search for a bucket to move ends: at one that is not empty, with the empty buckets
that may still be visited, or at the limit for them. -/
inductive Skip where
  | found (idx visits : Nat)
  | stopped (idx : Nat)

/-- The inner loop of `dictRehash`, over empty buckets. -/
def skipEmpty (table : List (List (K × V))) : Nat → Nat → Option Skip
  | 0, _ => none
  | visits + 1, idx =>
      match table[idx]? with
      | none => none
      | some [] =>
          if visits = 0 then some (.stopped (idx + 1)) else skipEmpty table visits (idx + 1)
      | some (_ :: _) => some (.found idx (visits + 1))

section Hash

variable (hash : K → BitVec 64)

/-- The bucket for a hash. -/
def Dictht.index (ht : Dictht K V) (h : BitVec 64) : Nat := (h &&& ht.sizemask).toNat

/-- Put an entry in front of its chain. -/
def Dictht.push (ht : Dictht K V) (entry : K × V) : Option (Dictht K V) :=
  let idx := ht.index (hash entry.1)
  ht.table[idx]?.map fun chain =>
    { ht with table := ht.table.set idx (entry :: chain), used := ht.used + 1 }

/-- Move all the keys in a bucket from the old to the new hash table. -/
def moveChain : List (K × V) → Dictht K V → Dictht K V → Option (Dictht K V × Dictht K V)
  | [], ht0, ht1 => some (ht0, ht1)
  | entry :: chain, ht0, ht1 =>
      (ht1.push hash entry).bind fun ht1 => moveChain chain { ht0 with used := ht0.used - 1 } ht1

/-- The end of `dictRehash`: was that the whole table? -/
def rehashed (d : Dict K V) : Dict K V × Bool :=
  if d.ht0.used = 0 then ({ d with ht0 := d.ht1, ht1 := .reset, rehashidx := none }, false)
  else (d, true)

/-- The loop of `dictRehash`: `n` buckets are still to be moved, and the next one is sought from
`idx` on. -/
def rehashLoop : (n visits idx : Nat) → Dict K V → Option (Dict K V × Bool)
  | 0, _, idx, d => some (rehashed { d with rehashidx := some idx })
  | n + 1, visits, idx, d =>
      if d.ht0.used = 0 then some (rehashed { d with rehashidx := some idx })
      else if d.ht0.size ≤ idx then none
      else
        match skipEmpty d.ht0.table visits idx with
        | none => none
        | some (.stopped idx) => some ({ d with rehashidx := some idx }, true)
        | some (.found idx visits) =>
            d.ht0.table[idx]?.bind fun chain =>
              (moveChain hash chain d.ht0 d.ht1).bind fun (ht0, ht1) =>
                rehashLoop n visits (idx + 1)
                  { d with ht0 := { ht0 with table := ht0.table.set idx [] }, ht1 := ht1 }

/-- Perform `n` steps of incremental rehashing, a number that is not negative; `true` when there are
still keys to move. The number of empty buckets to visit is an `int`. -/
def dictRehash (d : Dict K V) (n : Nat) : Option (Dict K V × Bool) :=
  if 2 ^ 31 ≤ n * 10 then none
  else
    match d.rehashidx with
    | none => some (d, false)
    | some idx => rehashLoop hash n (n * 10) idx d

/-- One step of rehashing, unless a safe iterator is in use. -/
def dictRehashStep (d : Dict K V) : Option (Dict K V) :=
  if d.iterators = 0 then (dictRehash hash d 1).map Prod.fst else some d

/-- The step with which the operations begin. -/
def rehashIfNeeded (d : Dict K V) : Option (Dict K V) :=
  if dictIsRehashing d then dictRehashStep hash d else some d

/-- Expand the hash table if needed. `dict_force_resize_ratio` is 5. -/
def dictExpandIfNeeded (canResize : Bool) (d : Dict K V) : Dict K V × Bool :=
  if dictIsRehashing d then (d, true)
  else if d.ht0.size = 0 then dictExpand d dictHtInitialSize
  else if d.ht0.size ≤ d.ht0.used ∧ (canResize = true ∨ 5 < d.ht0.used / d.ht0.size) then
    dictExpand d (d.ht0.used * 2)
  else (d, true)

variable [DecidableEq K]

/-- The two tables of a dictionary. -/
inductive Which where
  | first
  | second

/-- Where a key is: in a table, in a bucket of it. -/
structure Position where
  table : Which
  idx : Nat

/-- The loop over the two tables that `dictFind`, `dictGenericDelete` and `_dictKeyIndex` share:
the second table is looked at while rehashing. -/
def search (d : Dict K V) (key : K) : Option (Option (Position × (K × V))) :=
  let idx0 := d.ht0.index (hash key)
  d.ht0.table[idx0]?.bind fun chain =>
    match chain.find? fun entry => entry.1 = key with
    | some entry => some (some (⟨.first, idx0⟩, entry))
    | none =>
        if !dictIsRehashing d then some none
        else
          let idx1 := d.ht1.index (hash key)
          d.ht1.table[idx1]?.map fun chain =>
            (chain.find? fun entry => entry.1 = key).map fun entry => (⟨.second, idx1⟩, entry)

/-- Search a key in both tables, with a step of rehashing first. -/
def dictFind (d : Dict K V) (key : K) : Option (Dict K V × Option (K × V)) :=
  if d.ht0.used + d.ht1.used = 0 then some (d, none)
  else
    (rehashIfNeeded hash d).bind fun d =>
      (search hash d key).map fun found => (d, found.map Prod.snd)

/-- What `dictAddRaw` gives: the dictionary with a new entry, or none because the key is there
(`existing`) or the table could not be expanded. -/
inductive Added (K V : Type) where
  | added (d : Dict K V)
  | existing (d : Dict K V) (position : Position)
  | failed (d : Dict K V)

/-- Add an entry, with the value the caller sets behind the call. -/
def dictAddRaw (canResize : Bool) (d : Dict K V) (key : K) (val : V) : Option (Added K V) :=
  (rehashIfNeeded hash d).bind fun d =>
    match dictExpandIfNeeded canResize d with
    | (d, false) => some (.failed d)
    | (d, true) =>
        (search hash d key).bind fun
        | some (position, _) => some (.existing d position)
        | none =>
            if dictIsRehashing d then
              (d.ht1.push hash (key, val)).map fun ht => .added { d with ht1 := ht }
            else (d.ht0.push hash (key, val)).map fun ht => .added { d with ht0 := ht }

/-- Add an element; `false` is `DICT_ERR`. -/
def dictAdd (canResize : Bool) (d : Dict K V) (key : K) (val : V) : Option (Dict K V × Bool) :=
  (dictAddRaw hash canResize d key val).map fun
  | .added d => (d, true)
  | .existing d _ => (d, false)
  | .failed d => (d, false)

/-- Change the chain at an index. -/
def Dictht.modify (ht : Dictht K V) (idx : Nat) (change : List (K × V) → List (K × V)) :
    Dictht K V :=
  { ht with table := ht.table.modify idx change }

/-- Change the chain at a position. -/
def Dict.modify (d : Dict K V) (position : Position)
    (change : List (K × V) → List (K × V)) : Dict K V :=
  match position.table with
  | .first => { d with ht0 := d.ht0.modify position.idx change }
  | .second => { d with ht1 := d.ht1.modify position.idx change }

/-- Set the value of the entry that a search for the key finds. -/
def setVal (key : K) (val : V) : List (K × V) → List (K × V)
  | [] => []
  | entry :: chain =>
      if entry.1 = key then (entry.1, val) :: chain else entry :: setVal key val chain

/-- Add or overwrite; `true` if the key was added from scratch. Without an entry to overwrite the
source would use a null pointer. -/
def dictReplace (canResize : Bool) (d : Dict K V) (key : K) (val : V) :
    Option (Dict K V × Bool) :=
  (dictAddRaw hash canResize d key val).bind fun
  | .added d => some (d, true)
  | .existing d position => some (d.modify position (setVal key val), false)
  | .failed _ => none

/-- One entry less. -/
def Dict.countDown (d : Dict K V) : Which → Dict K V
  | .first => { d with ht0 := { d.ht0 with used := d.ht0.used - 1 } }
  | .second => { d with ht1 := { d.ht1 with used := d.ht1.used - 1 } }

/-- Search and remove an element; the entry that was unlinked. -/
def dictGenericDelete (d : Dict K V) (key : K) : Option (Dict K V × Option (K × V)) :=
  if d.ht0.used = 0 ∧ d.ht1.used = 0 then some (d, none)
  else
    (rehashIfNeeded hash d).bind fun d =>
      (search hash d key).map fun
      | none => (d, none)
      | some (position, entry) =>
          ((d.modify position (List.eraseP fun entry => entry.1 = key)).countDown position.table,
            some entry)

/-- Remove an element; `false` is `DICT_ERR`. -/
def dictDelete (d : Dict K V) (key : K) : Option (Dict K V × Bool) :=
  (dictGenericDelete hash d key).map fun (d, entry) => (d, entry.isSome)

end Hash

/-- `dictEmpty`: both tables are cleared. -/
def dictEmpty (_ : Dict K V) : Dict K V := ⟨.reset, .reset, none, 0⟩

end CPrograms.Redis
