import CPrograms.Redis.Dict

/-!
# The invariant of the dictionary

What the operations of the dictionary keep: every entry lies in the bucket of its hash, the
counters are right, and a key lies in one of the two tables only. On dictionaries like that
rehashing fails no assertion, keeps the entries, and comes to an end.
-/

namespace CPrograms.Redis

open Library

variable {K V : Type} {hash : K → BitVec 64}

/-! ## One table -/

namespace Dictht

/-- The entries of a table. -/
def entries (ht : Dictht K V) : List (K × V) := ht.table.flatten

/-- A table as the operations leave it. -/
structure WF (hash : K → BitVec 64) (ht : Dictht K V) : Prop where
  length : ht.table.length = ht.size
  power : ht.size = 0 ∨ ∃ k, k ≤ 60 ∧ ht.size = 2 ^ k
  mask : ht.sizemask = .ofNat 64 (ht.size - 1)
  used : ht.used = ht.entries.length
  placed : Placed (fun key => ht.index (hash key)) ht.table

/-- A table that was reset is well-formed. -/
theorem wf_reset : (reset : Dictht K V).WF hash :=
  ⟨rfl, .inl rfl, rfl, rfl, nofun⟩

/-- The bucket of a hash is given by its low bits. -/
theorem WF.index_eq {ht : Dictht K V} (wf : ht.WF hash) {k : Nat} (small : k ≤ 60)
    (size : ht.size = 2 ^ k) (h : BitVec 64) : ht.index h = h.toNat % 2 ^ k := by
  have bound : 2 ^ k - 1 < 2 ^ 64 :=
    Nat.lt_of_le_of_lt (Nat.sub_le _ _) (Nat.pow_lt_pow_right (by decide) (by omega))
  rw [index, wf.mask, size, BitVec.toNat_and, BitVec.toNat_ofNat, Nat.mod_eq_of_lt bound,
    Nat.and_two_pow_sub_one_eq_mod]

/-- An index is inside the table. -/
theorem WF.index_lt {ht : Dictht K V} (wf : ht.WF hash) (positive : 0 < ht.size) (h : BitVec 64) :
    ht.index h < ht.size := by
  rcases wf.power with zero | ⟨k, small, size⟩
  · omega
  · rw [wf.index_eq small size, size]
    exact Nat.mod_lt _ (Nat.two_pow_pos k)

/-- There is a chain for every hash. -/
theorem WF.exists_chain {ht : Dictht K V} (wf : ht.WF hash) (positive : 0 < ht.size)
    (h : BitVec 64) : ∃ chain, ht.table[ht.index h]? = some chain :=
  ⟨_, List.getElem?_eq_getElem (wf.length ▸ wf.index_lt positive h)⟩

/-- The table with another chain and another count. -/
def withChain (ht : Dictht K V) (i : Nat) (chain : List (K × V)) (used : Nat) : Dictht K V :=
  { ht with table := ht.table.set i chain, used := used }

/-- A chain can be changed, as long as its entries belong there. -/
theorem WF.withChain {ht : Dictht K V} (wf : ht.WF hash) {i : Nat} {chain : List (K × V)}
    (found : ht.table[i]? = some chain) {chain' : List (K × V)}
    (own : ∀ entry ∈ chain', ht.index (hash entry.1) = i) :
    ∃ rest, ht.entries.Perm (chain ++ rest) ∧
      ∀ used, used + chain.length = ht.used + chain'.length →
        (ht.withChain i chain' used).WF hash ∧
          (ht.withChain i chain' used).entries.Perm (chain' ++ rest) := by
  obtain ⟨rest, before, after⟩ := flatten_set_perm found
  refine ⟨rest, before, fun used count => ?_⟩
  have now := after chain'
  refine ⟨⟨?_, wf.power, wf.mask, ?_, wf.placed.set own⟩, now⟩
  · exact List.length_set.trans wf.length
  · have lengths := before.length_eq
    have lengths' := now.length_eq
    rw [List.length_append] at lengths lengths'
    have whole := wf.used
    rw [entries] at whole
    change used = (ht.table.set i chain').flatten.length
    omega

/-- An entry is put in front of its chain. -/
theorem WF.push {ht : Dictht K V} (wf : ht.WF hash) (positive : 0 < ht.size) (entry : K × V) :
    ∃ ht', ht.push hash entry = some ht' ∧ ht'.WF hash ∧ ht'.size = ht.size ∧
      ht'.entries.Perm (entry :: ht.entries) := by
  obtain ⟨chain, found⟩ := wf.exists_chain positive (hash entry.1)
  have own : ∀ other ∈ entry :: chain, ht.index (hash other.1) = ht.index (hash entry.1) := by
    intro other member
    rcases List.mem_cons.mp member with rfl | member
    · rfl
    · exact wf.placed _ _ found other member
  obtain ⟨rest, before, after⟩ := wf.withChain found own
  obtain ⟨wf', after⟩ := after (ht.used + 1) (by rw [List.length_cons]; omega)
  refine ⟨_, ?_, wf', rfl, after.trans (before.cons entry).symm⟩
  rw [Dictht.push, found]
  rfl

/-- A new table has no entries. -/
theorem entries_ofSize (realsize : Nat) : (ofSize realsize : Dictht K V).entries = [] :=
  List.flatten_eq_nil_iff.mpr fun _ member => List.eq_of_mem_replicate member

/-- The number of bytes does not wrap up to 2 ^ 60 buckets. -/
theorem length_ofSize {realsize : Nat} (small : realsize ≤ 2 ^ 60) :
    (ofSize realsize : Dictht K V).table.length = realsize := by
  rw [ofSize, List.length_replicate, entryPointerSize, Nat.mod_eq_of_lt (by omega),
    Nat.mul_div_cancel realsize (by decide)]

/-- A new table is one as the operations leave it. -/
theorem wf_ofSize {k : Nat} (small : k ≤ 60) : (ofSize (2 ^ k) : Dictht K V).WF hash := by
  refine ⟨length_ofSize (Nat.pow_le_pow_right (by decide) small), .inr ⟨k, small, rfl⟩, rfl, ?_, ?_⟩
  · rw [entries_ofSize]
    rfl
  · intro i chain found entry member
    rw [List.eq_of_mem_replicate (List.mem_of_getElem? found)] at member
    cases member

end Dictht

/-- Doubling ends at the first power of two that is not below the number asked for. -/
theorem doubled_spec {size m : Nat} (times i : Nat) (few : m ≤ times) (enough : size ≤ i * 2 ^ m) :
    ∃ j ≤ m, doubled size times i = i * 2 ^ j ∧ size ≤ i * 2 ^ j := by
  induction m generalizing times i with
  | zero =>
      have here : size ≤ i := by rwa [Nat.pow_zero, Nat.mul_one] at enough
      refine ⟨0, Nat.le_refl 0, ?_, enough⟩
      cases times with
      | zero => exact (Nat.mul_one i).symm
      | succ times => rw [doubled, if_pos here, Nat.pow_zero, Nat.mul_one]
  | succ m ih =>
      obtain ⟨times, rfl⟩ : ∃ rest, times = rest + 1 := ⟨times - 1, by omega⟩
      rw [doubled]
      split
      · next here =>
          refine ⟨0, Nat.zero_le _, (Nat.mul_one i).symm, ?_⟩
          rwa [Nat.pow_zero, Nat.mul_one]
      · rw [Nat.pow_succ', ← Nat.mul_assoc] at enough
        obtain ⟨j, below, equal, reaches⟩ := ih times (i * 2) (Nat.le_of_succ_le_succ few) enough
        rw [Nat.mul_assoc, ← Nat.pow_succ'] at equal reaches
        exact ⟨j + 1, Nat.succ_le_succ below, equal, reaches⟩

/-- A size is a power of two, and not below the number asked for. -/
theorem dictNextPower_spec {size : Nat} (small : size ≤ 2 ^ 60) :
    ∃ k ≤ 60, dictNextPower size = 2 ^ k ∧ size ≤ 2 ^ k := by
  have initial : ∀ j, dictHtInitialSize * 2 ^ j = 2 ^ (j + 2) := by
    intro j
    rw [Nat.pow_add, Nat.mul_comm]
    rfl
  have inRange : ¬ longMax ≤ size := by
    rw [longMax]
    omega
  obtain ⟨j, few, equal, reaches⟩ :=
    doubled_spec 61 dictHtInitialSize (show 58 ≤ 61 by decide) (initial 58 ▸ small)
  rw [dictNextPower, if_neg inRange, equal]
  rw [initial] at reaches ⊢
  exact ⟨j + 2, by omega, rfl, reaches⟩

/-! ## Two tables -/

/-- The entries of a dictionary. -/
def Dict.entries (d : Dict K V) : List (K × V) := d.ht0.entries ++ d.ht1.entries

/-- **What every operation keeps.** Both tables are in order; the second one is there only while
rehashing, and then the buckets below `rehashidx` have been moved; no key is there twice. -/
structure Dict.WF (hash : K → BitVec 64) (d : Dict K V) : Prop where
  ht0 : d.ht0.WF hash
  ht1 : d.ht1.WF hash
  still : d.rehashidx = none → d.ht1 = .reset
  moving : ∀ idx, d.rehashidx = some idx → 0 < d.ht0.size ∧ 0 < d.ht1.size ∧
    ∀ i < idx, ∀ chain, d.ht0.table[i]? = some chain → chain = []
  distinct : Distinct d.entries

/-- A new dictionary is well-formed. -/
theorem wf_dictCreate : (dictCreate : Dict K V).WF hash :=
  ⟨Dictht.wf_reset, Dictht.wf_reset, fun _ => rfl, nofun, List.nodup_nil⟩

/-- A new dictionary is empty. -/
theorem entries_dictCreate : (dictCreate : Dict K V).entries = [] := rfl

/-- The size is the number of entries. -/
theorem Dict.WF.dictSize_eq {d : Dict K V} (wf : d.WF hash) : dictSize d = d.entries.length := by
  rw [dictSize, wf.ht0.used, wf.ht1.used, Dict.entries, List.length_append]

/-- A dictionary with entries has a first table. -/
theorem Dict.WF.size_pos {d : Dict K V} (wf : d.WF hash) (filled : d.entries ≠ []) :
    0 < d.ht0.size := by
  cases moving : d.rehashidx with
  | none =>
      apply Nat.pos_of_ne_zero
      intro zero
      have empty : d.ht0.table = [] := List.length_eq_zero_iff.mp (wf.ht0.length.trans zero)
      apply filled
      rw [Dict.entries, wf.still moving, Dictht.entries, empty]
      rfl
  | some idx => exact (wf.moving idx moving).1

/-! ## Rehashing -/

/-- The keys of a chain are put into the new table. -/
theorem moveChain_spec {ht1 : Dictht K V} (wf : ht1.WF hash) (positive : 0 < ht1.size)
    (chain : List (K × V)) (ht0 : Dictht K V) :
    ∃ ht1', moveChain hash chain ht0 ht1 =
        some ({ ht0 with used := ht0.used - chain.length }, ht1') ∧
      ht1'.WF hash ∧ ht1'.size = ht1.size ∧ ht1'.entries.Perm (chain ++ ht1.entries) := by
  induction chain generalizing ht0 ht1 with
  | nil => exact ⟨ht1, rfl, wf, rfl, .refl _⟩
  | cons entry chain ih =>
      obtain ⟨next, pushed, wf', size, pushedEntries⟩ := wf.push positive entry
      obtain ⟨last, moved, wf'', size', movedEntries⟩ := ih wf' (size ▸ positive)
        { ht0 with used := ht0.used - 1 }
      refine ⟨last, ?_, wf'', size'.trans size, ?_⟩
      · rw [moveChain, pushed, Option.bind_some, moved]
        simp only [List.length_cons, Nat.sub_sub, Nat.add_comm 1]
      · exact (movedEntries.trans (pushedEntries.append_left chain)).trans List.perm_middle

/-- What the search for a bucket to move finds, from an index on: only empty buckets are passed,
and each is counted. -/
def Skip.Right (table : List (List (K × V))) (visits idx : Nat) : Skip → Prop
  | .found idx' left => 0 < left ∧ idx ≤ idx' ∧ idx' + left = idx + visits ∧
      (∃ entry chain, table[idx']? = some (entry :: chain)) ∧
      ∀ i, idx ≤ i → i < idx' → table[i]? = some []
  | .stopped idx' => idx' = idx + visits ∧ ∀ i, idx ≤ i → i < idx' → table[i]? = some []

/-- An empty bucket in front is passed. -/
theorem Skip.Right.behind {table : List (List (K × V))} {visits idx : Nat} {skip : Skip}
    (here : table[idx]? = some []) (right : skip.Right table visits (idx + 1)) :
    skip.Right table (visits + 1) idx := by
  have extend : ∀ idx', (∀ i, idx + 1 ≤ i → i < idx' → table[i]? = some []) →
      ∀ i, idx ≤ i → i < idx' → table[i]? = some [] := by
    intro idx' empty i low high
    rcases Nat.lt_or_ge i (idx + 1) with first | later
    · rw [show i = idx by omega]
      exact here
    · exact empty i later high
  cases skip with
  | found idx' left =>
      obtain ⟨more, beyond, count, nonempty, empty⟩ := right
      exact ⟨more, by omega, by omega, nonempty, extend idx' empty⟩
  | stopped idx' =>
      obtain ⟨count, empty⟩ := right
      exact ⟨by omega, extend idx' empty⟩

/-- The search does not leave the table as long as there is something to find. -/
theorem skipEmpty_spec {table : List (List (K × V))} {visits idx last : Nat} (positive : 0 < visits)
    (ahead : idx ≤ last) {entry : K × V} {chain : List (K × V)}
    (full : table[last]? = some (entry :: chain)) :
    ∃ skip, skipEmpty table visits idx = some skip ∧ skip.Right table visits idx := by
  induction visits generalizing idx with
  | zero => exact absurd positive (Nat.lt_irrefl 0)
  | succ visits ih =>
      have inside : last < table.length := (List.getElem?_eq_some_iff.mp full).1
      have here : table[idx]? = some (table.get ⟨idx, by omega⟩) := List.getElem?_eq_getElem _
      generalize table.get ⟨idx, by omega⟩ = bucket at here
      rw [skipEmpty, here]
      cases bucket with
      | cons first rest =>
          refine ⟨_, rfl, Nat.succ_pos _, Nat.le_refl _, rfl, ⟨first, rest, here⟩, ?_⟩
          exact fun i low high => absurd low (by omega)
      | nil =>
          by_cases none : visits = 0
          · simp only [none, if_true]
            refine ⟨_, rfl, rfl, fun i low high => ?_⟩
            rw [show i = idx by omega]
            exact here
          · have other : idx ≠ last := by
              rintro rfl
              cases here.symm.trans full
            obtain ⟨skip, found, right⟩ := ih (Nat.pos_of_ne_zero none)
              (show idx + 1 ≤ last by omega)
            simp only [none, if_false]
            exact ⟨skip, found, right.behind here⟩

/-- A table with entries has a bucket with some. -/
theorem exists_bucket {ht : Dictht K V} (filled : ht.entries ≠ []) :
    ∃ (i : Nat) (entry : K × V) (chain : List (K × V)), ht.table[i]? = some (entry :: chain) := by
  obtain ⟨entry, member⟩ := List.exists_mem_of_ne_nil _ filled
  obtain ⟨chain, inTable, inChain⟩ := List.mem_flatten.mp member
  obtain ⟨i, found⟩ := List.mem_iff_getElem?.mp inTable
  cases chain with
  | nil => cases inChain
  | cons first rest => exact ⟨i, first, rest, found⟩

/-- The same entries, in another order, with the invariant. -/
structure Dict.Same (hash : K → BitVec 64) (d d' : Dict K V) : Prop where
  wf : d'.WF hash
  entries : d'.entries.Perm d.entries

/-- A dictionary has its own entries. -/
theorem Dict.WF.same {d : Dict K V} (wf : d.WF hash) : d.Same hash d := ⟨wf, .refl _⟩

/-- The number of iterators does not matter. -/
theorem Dict.WF.counting {d : Dict K V} (wf : d.WF hash) (iterators : Nat) :
    d.Same hash { d with iterators := iterators } :=
  ⟨⟨wf.ht0, wf.ht1, wf.still, wf.moving, wf.distinct⟩, .refl _⟩

/-- Having the same entries is passed on. -/
theorem Dict.Same.trans {d d' d'' : Dict K V} (first : d.Same hash d')
    (second : d'.Same hash d'') : d.Same hash d'' :=
  ⟨second.wf, second.entries.trans first.entries⟩

/-- The tables are exchanged once the old one is empty. -/
theorem rehashed_spec {d : Dict K V} (wf : d.WF hash) : d.Same hash (rehashed d).1 := by
  rw [rehashed]
  split
  · next empty =>
      have none : d.ht0.entries = [] := List.length_eq_zero_iff.mp (wf.ht0.used.symm.trans empty)
      have same : d.ht1.entries ++ [] = d.entries := by
        rw [Dict.entries, none, List.append_nil]
        rfl
      refine ⟨⟨wf.ht1, Dictht.wf_reset, fun _ => rfl, nofun, ?_⟩, ?_⟩
      · exact wf.distinct.perm (.of_eq same.symm)
      · exact .of_eq same
  · exact wf.same

/-- One bucket is moved. -/
theorem Dict.WF.move {d : Dict K V} (wf : d.WF hash) {idx : Nat} (moving : d.rehashidx = some idx)
    {chain : List (K × V)} (found : d.ht0.table[idx]? = some chain) :
    ∃ ht1, moveChain hash chain d.ht0 d.ht1 =
        some ({ d.ht0 with used := d.ht0.used - chain.length }, ht1) ∧
      d.Same hash { d with
        ht0 := d.ht0.withChain idx [] (d.ht0.used - chain.length)
        ht1 := ht1
        rehashidx := some (idx + 1) } := by
  obtain ⟨positive, positive', empty⟩ := wf.moving idx moving
  obtain ⟨ht1, moved, wf1, size, movedEntries⟩ := moveChain_spec wf.ht1 positive' chain d.ht0
  have none : ∀ entry ∈ ([] : List (K × V)), d.ht0.index (hash entry.1) = idx := nofun
  obtain ⟨rest, before, after⟩ := wf.ht0.withChain found none
  have enough : chain.length ≤ d.ht0.used := by
    rw [wf.ht0.used, before.length_eq, List.length_append]
    exact Nat.le_add_right _ _
  obtain ⟨wf0, after⟩ := after (d.ht0.used - chain.length) (by rw [List.length_nil]; omega)
  have same : ((d.ht0.withChain idx [] (d.ht0.used - chain.length)).entries ++ ht1.entries).Perm
      d.entries := by
    have spread : (rest ++ (chain ++ d.ht1.entries)).Perm d.entries := by
      rw [← List.append_assoc]
      exact (List.perm_append_comm.trans before.symm).append_right _
    exact (after.append movedEntries).trans spread
  refine ⟨ht1, moved, ⟨wf0, wf1, nofun, ?_, wf.distinct.perm same.symm⟩, same⟩
  rintro _ ⟨⟩
  refine ⟨positive, size ▸ positive', fun i low chain' found' => ?_⟩
  change (d.ht0.table.set idx [])[i]? = some chain' at found'
  rw [List.getElem?_set] at found'
  split at found'
  · split at found' <;> cases found'
    rfl
  · exact empty i (by omega) chain' found'

/-- Empty buckets are passed. -/
theorem Dict.WF.pass {d : Dict K V} (wf : d.WF hash) {idx idx' : Nat}
    (moving : d.rehashidx = some idx)
    (empty : ∀ i, idx ≤ i → i < idx' → d.ht0.table[i]? = some []) :
    d.Same hash { d with rehashidx := some idx' } := by
  obtain ⟨positive, positive', before⟩ := wf.moving idx moving
  refine ⟨⟨wf.ht0, wf.ht1, nofun, ?_, wf.distinct⟩, .refl _⟩
  rintro _ ⟨⟩
  refine ⟨positive, positive', fun i low chain found => ?_⟩
  rcases Nat.lt_or_ge i idx with earlier | later
  · exact before i earlier chain found
  · exact (Option.some.inj ((empty i later low).symm.trans found)).symm

/-- While there are entries in the old table, one of its buckets ahead has some. -/
theorem Dict.WF.exists_ahead {d : Dict K V} (wf : d.WF hash) {idx : Nat}
    (moving : d.rehashidx = some idx) (filled : d.ht0.used ≠ 0) :
    ∃ (last : Nat) (entry : K × V) (chain : List (K × V)),
      d.ht0.table[last]? = some (entry :: chain) ∧ idx ≤ last ∧ last < d.ht0.size := by
  have entries : d.ht0.entries ≠ [] := by
    intro none
    rw [wf.ht0.used, none] at filled
    exact filled rfl
  obtain ⟨last, entry, chain, found⟩ := exists_bucket entries
  refine ⟨last, entry, chain, found, ?_, ?_⟩
  · apply Nat.le_of_not_lt
    intro earlier
    cases (wf.moving idx moving).2.2 last earlier _ found
  · rw [← wf.ht0.length]
    exact (List.getElem?_eq_some_iff.mp found).1

/-- What a number of rehashing steps does from an index on: the entries stay, and either
everything has been moved or as many buckets have been passed. -/
structure Dict.Moved (hash : K → BitVec 64) (idx steps : Nat) (d d' : Dict K V) (more : Bool) :
    Prop where
  same : d.Same hash d'
  iterators : d'.iterators = d.iterators
  done : more = false → d'.rehashidx = none
  onward : more = true → d'.ht0.size = d.ht0.size ∧
    ∃ idx', d'.rehashidx = some idx' ∧ idx + steps ≤ idx' ∧ idx' < d.ht0.size

/-- The end of a step of rehashing: if the first table is empty, the second takes its place. -/
theorem Dict.WF.rehashed {d : Dict K V} (wf : d.WF hash) {idx : Nat}
    (moving : d.rehashidx = some idx) {start steps : Nat}
    (passed : d.ht0.used ≠ 0 → start + steps ≤ idx) :
    d.Moved hash start steps (rehashed d).1 (rehashed d).2 := by
  refine ⟨rehashed_spec wf, ?_, fun last => ?_, fun more => ?_⟩
  · rw [Redis.rehashed]
    split <;> rfl
  · rw [Redis.rehashed] at last ⊢
    split at last
    · next empty => rw [if_pos empty]
    · cases last
  · rw [Redis.rehashed] at more ⊢
    split at more
    · cases more
    · next filled =>
        rw [if_neg filled]
        obtain ⟨last, -, -, -, ahead, inside⟩ := wf.exists_ahead moving filled
        exact ⟨rfl, idx, moving, passed filled, by omega⟩

/-- Where a search stopped there is more to move. -/
theorem Dict.WF.stopped {d : Dict K V} (wf : d.WF hash) {idx : Nat}
    (moving : d.rehashidx = some idx) (filled : d.ht0.used ≠ 0) {start steps : Nat}
    (passed : start + steps ≤ idx) : d.Moved hash start steps d true := by
  obtain ⟨last, -, -, -, ahead, inside⟩ := wf.exists_ahead moving filled
  exact ⟨wf.same, rfl, nofun, fun _ => ⟨rfl, idx, moving, passed, by omega⟩⟩

/-- A step of rehashing in front of others. -/
theorem Dict.Moved.behind {d d' d'' : Dict K V} {idx idx' steps steps' : Nat} {more : Bool}
    (same : d.Same hash d') (iterators : d'.iterators = d.iterators)
    (size : d'.ht0.size = d.ht0.size) (passed : idx + steps ≤ idx' + steps')
    (moved : d'.Moved hash idx' steps' d'' more) :
    d.Moved hash idx steps d'' more := by
  refine ⟨same.trans moved.same, moved.iterators.trans iterators, moved.done, fun rest => ?_⟩
  obtain ⟨size', last, moving, beyond, inside⟩ := moved.onward rest
  exact ⟨size'.trans size, last, moving, by omega, by omega⟩

/-- **Rehashing fails no assertion and makes progress.** -/
theorem rehashLoop_spec (n visits idx : Nat) (d : Dict K V)
    (wf : ({ d with rehashidx := some idx } : Dict K V).WF hash) (enough : n = 0 ∨ 0 < visits) :
    ∃ d' more, rehashLoop hash n visits idx d = some (d', more) ∧
      ({ d with rehashidx := some idx } : Dict K V).Moved hash idx (min n visits) d' more := by
  induction n generalizing d visits idx with
  | zero =>
      refine ⟨_, _, rfl, wf.rehashed rfl fun _ => ?_⟩
      omega
  | succ n ih =>
      rw [rehashLoop]
      by_cases empty : d.ht0.used = 0
      · rw [if_pos empty]
        exact ⟨_, _, rfl, wf.rehashed rfl fun filled => absurd empty filled⟩
      · obtain ⟨last, entry, chain, full, ahead, inside⟩ := wf.exists_ahead rfl empty
        have positive : 0 < visits := by omega
        have inTable : ¬ d.ht0.size ≤ idx := Nat.not_le.mpr (Nat.lt_of_le_of_lt ahead inside)
        obtain ⟨skip, skipped, right⟩ := skipEmpty_spec positive ahead full
        rw [if_neg empty, if_neg inTable, skipped]
        cases skip with
        | stopped idx' =>
            obtain ⟨count, passed⟩ := right
            have same := wf.pass rfl passed
            have onward := same.wf.stopped rfl empty (Nat.le_refl (idx' + 0))
            exact ⟨_, _, rfl, .behind same rfl rfl (by omega) onward⟩
        | found idx' left =>
            obtain ⟨more, beyond, count, ⟨first, rest, found⟩, passed⟩ := right
            have same := wf.pass rfl passed
            obtain ⟨ht1, moved, same'⟩ := same.wf.move rfl found
            obtain ⟨d', rest, looped, onward⟩ := ih left (idx' + 1)
              { d with ht0 := d.ht0.withChain idx' [] (d.ht0.used - _), ht1 := ht1 }
              same'.wf (.inr more)
            refine ⟨d', rest, ?_, .behind (same.trans same') rfl rfl (by omega) onward⟩
            simp only [found, Option.bind_some, moved]
            exact looped

/-- `dictRehash` keeps the entries, and passes as many buckets as it is asked to move. -/
theorem dictRehash_spec {d : Dict K V} (wf : d.WF hash) {n : Nat} (small : n * 10 < 2 ^ 31) :
    ∃ d' more, dictRehash hash d n = some (d', more) ∧ d.Same hash d' ∧
      ∀ idx, d.rehashidx = some idx → d.Moved hash idx n d' more := by
  rw [dictRehash, if_neg (Nat.not_le.mpr small)]
  cases moving : d.rehashidx with
  | none => exact ⟨d, false, rfl, wf.same, nofun⟩
  | some idx =>
      have whole : ({ d with rehashidx := some idx } : Dict K V) = d := by rw [← moving]
      obtain ⟨d', more, looped, moved⟩ := rehashLoop_spec n (n * 10) idx d
        (whole.symm ▸ wf) (by omega)
      rw [whole] at moved
      refine ⟨d', more, looped, moved.same, ?_⟩
      rintro _ ⟨⟩
      exact .behind wf.same rfl rfl (by omega) moved

/-- A step of rehashing, if there is one, keeps the entries. -/
theorem rehashIfNeeded_spec {d : Dict K V} (wf : d.WF hash) :
    ∃ d', rehashIfNeeded hash d = some d' ∧ d.Same hash d' := by
  rw [rehashIfNeeded]
  split
  · rw [dictRehashStep]
    split
    · obtain ⟨d', more, rehashed, same, -⟩ := dictRehash_spec wf (show 1 * 10 < 2 ^ 31 by decide)
      exact ⟨d', by rw [rehashed]; rfl, same⟩
    · exact ⟨d, rfl, wf.same⟩
  · exact ⟨d, rfl, wf.same⟩

end CPrograms.Redis
