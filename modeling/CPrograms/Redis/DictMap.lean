import CPrograms.Library.Runs
import CPrograms.Redis.DictInvariant
import Mathlib.Data.Set.Card

/-!
# The dictionary as a map

On dictionaries that keep the invariant the operations are those of a map, and none of them fails,
however rehashing steps, resizes and iterators come in between.
-/

namespace CPrograms.Redis

open Library

variable {K V : Type} {hash : K → BitVec 64}

/-! ## Resizing -/

/-- Expanding keeps the entries, as long as the new table is not too large for its memory. -/
theorem dictExpand_spec {d : Dict K V} (wf : d.WF hash) {size : Nat} (fits : size ≤ 2 ^ 60) :
    d.Same hash (dictExpand d size).1 ∧
      ((dictExpand d size).2 = true → 0 < (dictExpand d size).1.ht0.size) := by
  obtain ⟨k, small, power, -⟩ := dictNextPower_spec fits
  have positive : 0 < dictNextPower size := power ▸ Nat.two_pow_pos k
  have fresh : (Dictht.ofSize (dictNextPower size) : Dictht K V).WF hash :=
    power ▸ Dictht.wf_ofSize small
  have refused : d.Same hash d ∧ (false = true → 0 < d.ht0.size) :=
    ⟨wf.same, fun ok => absurd ok Bool.false_ne_true⟩
  rw [dictExpand]
  split
  · exact refused
  · next free =>
      have still : d.rehashidx = none := by
        cases moving : d.rehashidx with
        | none => rfl
        | some idx => simp [dictIsRehashing, moving] at free
      split
      · exact refused
      · split
        · next noTable =>
            have empty : d.ht0.entries = [] := by
              have zero : d.ht0.size = 0 := of_decide_eq_true noTable
              rw [Dictht.entries, List.length_eq_zero_iff.mp (wf.ht0.length.trans zero)]
              rfl
            have same : (Dictht.ofSize (dictNextPower size)).entries ++ d.ht1.entries =
                d.entries := by
              rw [Dictht.entries_ofSize, Dict.entries, empty]
            refine ⟨⟨⟨fresh, wf.ht1, wf.still, ?_, ?_⟩, .of_eq same⟩, fun _ => positive⟩
            · intro idx moving
              cases still.symm.trans moving
            · exact wf.distinct.perm (.of_eq same.symm)
        · next table =>
            have filled : 0 < d.ht0.size :=
              Nat.pos_of_ne_zero fun zero => table (decide_eq_true zero)
            have same : d.ht0.entries ++ (Dictht.ofSize (dictNextPower size)).entries =
                d.entries := by
              rw [Dictht.entries_ofSize, Dict.entries, wf.still still]
              rfl
            refine ⟨⟨⟨wf.ht0, fresh, ?_, ?_, ?_⟩, .of_eq same⟩, fun _ => filled⟩
            · intro none
              cases none
            · rintro _ ⟨⟩
              exact ⟨filled, positive, fun i low => absurd low (Nat.not_lt_zero i)⟩
            · exact wf.distinct.perm (.of_eq same.symm)

/-- Resizing keeps the entries: the size it asks for is an `int`. -/
theorem dictResize_spec {d : Dict K V} (wf : d.WF hash) (canResize : Bool) :
    d.Same hash (dictResize canResize d).1 := by
  rw [dictResize]
  split
  · exact wf.same
  · refine (dictExpand_spec wf ?_).1
    have int := BitVec.toInt_lt (x := BitVec.ofNat 32 d.ht0.used)
    split_ifs
    · decide
    · omega

/-- Expanding succeeds for a size that is large enough and not the one there is. -/
theorem dictExpand_ok {d : Dict K V} {size : Nat} (still : d.rehashidx = none)
    (enough : d.ht0.used ≤ size) (other : dictNextPower size ≠ d.ht0.size) :
    (dictExpand d size).2 = true := by
  have free : ¬ (dictIsRehashing d || decide (size < d.ht0.used)) = true := by
    simp [dictIsRehashing, still, enough]
  rw [dictExpand, if_neg free, if_neg other]
  split <;> rfl

/-- There is room for another entry, unless there are very many. -/
theorem dictExpandIfNeeded_spec {d : Dict K V} (wf : d.WF hash) (canResize : Bool)
    (few : d.entries.length < 2 ^ 59) :
    ∃ d', dictExpandIfNeeded canResize d = (d', true) ∧ d.Same hash d' ∧ 0 < d'.ht0.size := by
  have expanded : ∀ size ≤ 2 ^ 60, (dictExpand d size).2 = true →
      ∃ d', dictExpand d size = (d', true) ∧ d.Same hash d' ∧ 0 < d'.ht0.size := by
    intro size fits ok
    obtain ⟨same, positive⟩ := dictExpand_spec wf fits
    exact ⟨_, Prod.ext rfl ok, same, positive ok⟩
  rw [dictExpandIfNeeded]
  cases moving : d.rehashidx with
  | some idx =>
      refine ⟨d, ?_, wf.same, (wf.moving idx moving).1⟩
      simp [dictIsRehashing, moving]
  | none =>
      have still : ¬ dictIsRehashing d = true := by simp [dictIsRehashing, moving]
      rw [if_neg still]
      split
      · next zero =>
          apply expanded _ (by decide)
          have used : d.ht0.used = 0 := by
            rw [wf.ht0.used, Dictht.entries,
              List.length_eq_zero_iff.mp (wf.ht0.length.trans zero)]
            rfl
          refine dictExpand_ok moving (by omega) ?_
          rw [zero]
          decide
      · next positive =>
          split
          · next full =>
              have bound : d.ht0.used < 2 ^ 59 := by
                have all := wf.dictSize_eq
                rw [dictSize] at all
                omega
              obtain ⟨k, -, power, reaches⟩ :=
                dictNextPower_spec (show d.ht0.used * 2 ≤ 2 ^ 60 by omega)
              apply expanded _ (by omega)
              exact dictExpand_ok moving (by omega) (by omega)
          · exact ⟨d, rfl, wf.same, Nat.pos_of_ne_zero positive⟩

/-! ## Searching -/

variable [DecidableEq K]

/-- One of the two tables. -/
def Dict.ht (d : Dict K V) : Which → Dictht K V
  | .first => d.ht0
  | .second => d.ht1

/-- What a search finds: the first entry with the key in a chain, or nothing when there is none. -/
def Dict.Found (d : Dict K V) (key : K) : Option (Position × (K × V)) → Prop
  | none => mapOf d.entries key = none
  | some (position, entry) => entry.1 = key ∧ ∃ before after,
      (d.ht position.table).table[position.idx]? = some (before ++ entry :: after) ∧
        ∀ other ∈ before, other.1 ≠ key

/-- A chain without a key says that the table is without it. -/
theorem Dictht.WF.absent {ht : Dictht K V} (wf : ht.WF hash) {key : K} {chain : List (K × V)}
    (found : ht.table[ht.index (hash key)]? = some chain)
    (none : (chain.find? fun entry => entry.1 = key) = none) :
    ∀ entry ∈ ht.entries, entry.1 ≠ key := by
  rintro entry member rfl
  obtain ⟨chain', found', member⟩ := wf.placed.mem_flatten_iff.mp member
  cases found.symm.trans found'
  simpa using List.find?_eq_none.mp none entry member

omit [DecidableEq K] in
/-- Both tables are well-formed. -/
theorem Dict.WF.ht {d : Dict K V} (wf : d.WF hash) (which : Which) : (d.ht which).WF hash := by
  cases which with
  | first => exact wf.ht0
  | second => exact wf.ht1

/-- **The search finds what is there.** -/
theorem search_spec {d : Dict K V} (wf : d.WF hash) (positive : 0 < d.ht0.size) (key : K) :
    ∃ result, search hash d key = some result ∧ d.Found key result := by
  obtain ⟨chain, found⟩ := wf.ht0.exists_chain positive (hash key)
  rw [search]
  simp only [found, Option.bind_some]
  split
  · next entry here =>
      obtain ⟨same, before, after, rfl, others⟩ := List.find?_eq_some_iff_append.mp here
      refine ⟨_, rfl, by simpa using same, before, after, found, ?_⟩
      simpa using others
  · next none =>
      have absent := wf.ht0.absent found none
      split
      · next still =>
          refine ⟨_, rfl, mapOf_eq_none_iff.mpr fun entry member => ?_⟩
          have reset : d.ht1 = .reset := by
            apply wf.still
            simpa [dictIsRehashing] using still
          rw [Dict.entries, reset, List.mem_append] at member
          rcases member with member | member
          · exact absent entry member
          · cases member
      · next moving =>
          have some : d.rehashidx ≠ Option.none := by simpa [dictIsRehashing] using moving
          obtain ⟨idx, moving⟩ := Option.ne_none_iff_exists'.mp some
          obtain ⟨chain', found'⟩ := wf.ht1.exists_chain (wf.moving idx moving).2.1 (hash key)
          rw [found', Option.map_some]
          cases there : chain'.find? fun entry => entry.1 = key with
          | none =>
              refine ⟨_, rfl, mapOf_eq_none_iff.mpr fun entry member => ?_⟩
              rcases List.mem_append.mp member with member | member
              · exact absent entry member
              · exact wf.ht1.absent found' there entry member
          | some entry =>
              obtain ⟨same, before, after, rfl, others⟩ := List.find?_eq_some_iff_append.mp there
              refine ⟨_, rfl, by simpa using same, before, after, found', ?_⟩
              simpa using others

/-! ## Changing an entry -/

/-- The dictionary with another table. -/
def Dict.withHt (d : Dict K V) (ht : Dictht K V) : Which → Dict K V
  | .first => { d with ht0 := ht }
  | .second => { d with ht1 := ht }

omit [DecidableEq K] in
/-- A chain with entries can be changed into another one. -/
theorem Dict.WF.withHt {d : Dict K V} (wf : d.WF hash) {which : Which} {idx : Nat}
    {chain chain' : List (K × V)} (found : (d.ht which).table[idx]? = some chain)
    (filled : chain ≠ []) (own : ∀ entry ∈ chain', (d.ht which).index (hash entry.1) = idx)
    {used : Nat} (count : used + chain.length = (d.ht which).used + chain'.length) :
    ∃ rest, d.entries.Perm (chain ++ rest) ∧
      (d.withHt ((d.ht which).withChain idx chain' used) which).entries.Perm (chain' ++ rest) ∧
      (Distinct (chain' ++ rest) →
        (d.withHt ((d.ht which).withChain idx chain' used) which).WF hash) := by
  obtain ⟨rest, before, after⟩ := (wf.ht which).withChain found own
  obtain ⟨wf', after⟩ := after used count
  cases which with
  | first =>
      have entries : (d.withHt (d.ht0.withChain idx chain' used) .first).entries.Perm
          (chain' ++ (rest ++ d.ht1.entries)) := by
        rw [← List.append_assoc]
        exact after.append_right _
      refine ⟨rest ++ d.ht1.entries, ?_, entries, fun distinct => ?_⟩
      · rw [← List.append_assoc]
        exact before.append_right _
      · refine ⟨wf', wf.ht1, wf.still, fun bound moving => ?_, distinct.perm entries.symm⟩
        obtain ⟨positive, positive', empty⟩ := wf.moving bound moving
        refine ⟨positive, positive', fun i low other found' => ?_⟩
        change (d.ht0.table.set idx chain')[i]? = some other at found'
        rw [List.getElem?_set] at found'
        split at found'
        · next same => exact absurd (empty i low chain (same ▸ found)) filled
        · exact empty i low other found'
  | second =>
      have entries : (d.withHt (d.ht1.withChain idx chain' used) .second).entries.Perm
          (chain' ++ (rest ++ d.ht0.entries)) := by
        rw [← List.append_assoc]
        exact List.perm_append_comm.trans (after.append_right _)
      refine ⟨rest ++ d.ht0.entries, ?_, entries, fun distinct => ?_⟩
      · rw [← List.append_assoc]
        exact List.perm_append_comm.trans (before.append_right _)
      · refine ⟨wf.ht0, wf', fun still => ?_, wf.moving, distinct.perm entries.symm⟩
        change d.ht1.table[idx]? = some chain at found
        rw [wf.still still] at found
        cases found

omit [DecidableEq K] in
/-- A dictionary with entries has a table. -/
theorem Dict.Same.size_pos {d d' : Dict K V} (same : d.Same hash d') (wf : d.WF hash)
    (filled : dictSize d ≠ 0) : 0 < d'.ht0.size := by
  apply same.wf.size_pos
  intro none
  rw [wf.dictSize_eq, ← same.entries.length_eq, none] at filled
  exact filled rfl

/-- The dictionary keeps the invariant and represents a map. -/
structure Dict.Represents (hash : K → BitVec 64) (d : Dict K V) (map : K → Option V) : Prop where
  wf : d.WF hash
  map : mapOf d.entries = map

/-- The same entries represent the same map. -/
theorem Dict.Same.represents {d d' : Dict K V} {map : K → Option V} (same : d.Same hash d')
    (represents : d.Represents hash map) : d'.Represents hash map :=
  ⟨same.wf, (mapOf_perm same.wf.distinct same.entries).trans represents.map⟩

/-- The value that a search finds. -/
theorem Dict.WF.mapOf_found {d : Dict K V} (wf : d.WF hash) {key : K}
    {result : Option (Position × (K × V))} (found : d.Found key result) :
    mapOf d.entries key = result.map fun (_, entry) => entry.2 := by
  cases result with
  | none => exact found
  | some hit =>
      obtain ⟨position, entry⟩ := hit
      obtain ⟨rfl, before, after, found, -⟩ := found
      rw [Option.map_some, mapOf_eq_some_iff wf.distinct]
      have member : entry ∈ (d.ht position.table).entries :=
        List.mem_flatten.mpr ⟨_, List.mem_of_getElem? found,
          List.mem_append_right before List.mem_cons_self⟩
      cases table : position.table with
      | first =>
          rw [table] at member
          exact List.mem_append_left _ member
      | second =>
          rw [table] at member
          exact List.mem_append_right _ member

/-- The entry that a search found gets another value, or is taken out. -/
theorem Dict.Represents.substitute {d d' : Dict K V} {map : K → Option V}
    (represents : d.Represents hash map) {position : Position} {entry : K × V}
    {before after : List (K × V)}
    (found : (d.ht position.table).table[position.idx]? = some (before ++ entry :: after))
    (new : Option V) {used : Nat}
    (count : used + 1 = (d.ht position.table).used + new.toList.length)
    (becomes : d' = d.withHt ((d.ht position.table).withChain position.idx
      (before ++ (new.map (Prod.mk entry.1)).toList ++ after) used) position.table) :
    d'.Represents hash (Function.update map entry.1 new) ∧
      d'.entries.length + 1 = d.entries.length + new.toList.length := by
  subst becomes
  have placed := (represents.wf.ht position.table).placed _ _ found
  have own : ∀ other ∈ before ++ (new.map (Prod.mk entry.1)).toList ++ after,
      (d.ht position.table).index (hash other.1) = position.idx := by
    intro other member
    simp only [List.mem_append, Option.mem_toList, Option.map_eq_some_iff] at member
    rcases member with (member | ⟨value, -, rfl⟩) | member
    · exact placed other (List.mem_append_left _ member)
    · exact placed entry (List.mem_append_right before List.mem_cons_self)
    · exact placed other (List.mem_append_right before (List.mem_cons_of_mem entry member))
  have lengths : (new.map (Prod.mk entry.1)).toList.length = new.toList.length := by
    cases new <;> rfl
  have total : used + (before ++ entry :: after).length = (d.ht position.table).used +
      (before ++ (new.map (Prod.mk entry.1)).toList ++ after).length := by
    simp only [List.length_append, List.length_cons, lengths]
    omega
  obtain ⟨rest, was, now, wf⟩ := represents.wf.withHt found (by simp) own total
  have old : d.entries.Perm (entry :: (before ++ after ++ rest)) :=
    was.trans (List.perm_middle.append_right rest)
  have split : (before ++ (new.map (Prod.mk entry.1)).toList ++ after ++ rest).Perm
      ((new.map (Prod.mk entry.1)).toList ++ (before ++ after ++ rest)) := by
    simp only [List.append_assoc]
    exact List.perm_append_comm_assoc _ _ _
  obtain ⟨distinct, map'⟩ := mapOf_replace (represents.wf.distinct.perm old) new
  have wf := wf (distinct.perm split.symm)
  refine ⟨⟨wf, ?_⟩, ?_⟩
  · rw [mapOf_perm wf.distinct (now.trans split), map', ← mapOf_perm represents.wf.distinct old,
      represents.map]
  · rw [(now.trans split).length_eq, old.length_eq, List.length_append, lengths, List.length_cons]
    omega

/-- The value is set at the first entry with the key. -/
theorem setVal_append {key : K} {before : List (K × V)} (others : ∀ other ∈ before, other.1 ≠ key)
    (entry : K × V) (after : List (K × V)) (same : entry.1 = key) (val : V) :
    setVal key val (before ++ entry :: after) = before ++ [(entry.1, val)] ++ after := by
  induction before with
  | nil => simp [setVal, same]
  | cons first before ih =>
      have rest := ih fun other member => others other (List.mem_cons_of_mem first member)
      simp [setVal, others first List.mem_cons_self, rest]

/-- The first entry with the key is taken out. -/
theorem eraseP_append {key : K} {before : List (K × V)} (others : ∀ other ∈ before, other.1 ≠ key)
    (entry : K × V) (after : List (K × V)) (same : entry.1 = key) :
    (before ++ entry :: after).eraseP (fun entry => entry.1 = key) = before ++ [] ++ after := by
  rw [List.eraseP_append_right _ fun other member => by simpa using others other member,
    List.eraseP_cons_of_pos (by simpa using same), List.append_nil]

omit [DecidableEq K] in
/-- Changing a chain of a table. -/
theorem Dictht.modify_eq {ht : Dictht K V} {idx : Nat} {chain : List (K × V)}
    (found : ht.table[idx]? = some chain) (change : List (K × V) → List (K × V)) :
    ht.modify idx change = ht.withChain idx (change chain) ht.used := by
  rw [Dictht.modify, List.modify_eq_set_getElem?, found]
  rfl

omit [DecidableEq K] in
/-- Changing a chain of a dictionary. -/
theorem Dict.modify_eq {d : Dict K V} {position : Position} {chain : List (K × V)}
    (found : (d.ht position.table).table[position.idx]? = some chain)
    (change : List (K × V) → List (K × V)) :
    d.modify position change = d.withHt ((d.ht position.table).withChain position.idx
      (change chain) (d.ht position.table).used) position.table := by
  obtain ⟨which, idx⟩ := position
  cases which with
  | first => exact congrArg (fun ht => { d with ht0 := ht }) (Dictht.modify_eq found change)
  | second => exact congrArg (fun ht => { d with ht1 := ht }) (Dictht.modify_eq found change)

omit [DecidableEq K] in
/-- Taking out an entry counts down. -/
theorem Dict.countDown_withHt (d : Dict K V) (which : Which) (idx : Nat) (chain : List (K × V)) :
    (d.withHt ((d.ht which).withChain idx chain (d.ht which).used) which).countDown which =
      d.withHt ((d.ht which).withChain idx chain ((d.ht which).used - 1)) which := by
  cases which <;> rfl

/-! ## The operations -/

/-- A lookup finds what the map has. -/
theorem dictFind_spec {d : Dict K V} {map : K → Option V} (represents : d.Represents hash map)
    (key : K) :
    ∃ d' entry, dictFind hash d key = some (d', entry) ∧ d.Same hash d' ∧
      entry.map Prod.snd = map key := by
  rw [dictFind]
  split
  · next empty =>
      have none : d.entries = [] :=
        List.length_eq_zero_iff.mp (represents.wf.dictSize_eq.symm.trans empty)
      refine ⟨d, Option.none, rfl, represents.wf.same, ?_⟩
      rw [← represents.map, none]
      rfl
  · next filled =>
      obtain ⟨d', rehashed, same⟩ := rehashIfNeeded_spec represents.wf
      have positive := same.size_pos represents.wf filled
      obtain ⟨result, searched, found⟩ := search_spec same.wf positive key
      refine ⟨d', result.map Prod.snd, ?_, same, ?_⟩
      · rw [rehashed, Option.bind_some, searched]
        rfl
      · rw [← (same.represents represents).map, same.wf.mapOf_found found, Option.map_map]
        rfl

omit [DecidableEq K] in
/-- An entry lies in a table that is not empty. -/
theorem Dict.WF.used_pos {d : Dict K V} (wf : d.WF hash) {position : Position} {entry : K × V}
    {before after : List (K × V)}
    (found : (d.ht position.table).table[position.idx]? = some (before ++ entry :: after)) :
    0 < (d.ht position.table).used := by
  rw [(wf.ht position.table).used]
  have member : entry ∈ (d.ht position.table).entries :=
    List.mem_flatten.mpr ⟨_, List.mem_of_getElem? found,
      List.mem_append_right before List.mem_cons_self⟩
  exact List.length_pos_of_mem member

/-- A deletion takes the key out of the map, and tells whether it was there. -/
theorem dictDelete_spec {d : Dict K V} {map : K → Option V} (represents : d.Represents hash map)
    (key : K) :
    ∃ d', dictDelete hash d key = some (d', (map key).isSome) ∧
      d'.Represents hash (Function.update map key none) ∧ d'.entries.length ≤ d.entries.length := by
  rw [dictDelete, dictGenericDelete]
  have absent : map key = none → Function.update map key none = map := fun none => by
    rw [← none, Function.update_eq_self]
  split
  · next empty =>
      have none : d.entries = [] := by
        apply List.length_eq_zero_iff.mp
        rw [← represents.wf.dictSize_eq, dictSize, empty.1, empty.2]
      have noValue : map key = Option.none := by
        rw [← represents.map, none]
        rfl
      refine ⟨d, ?_, ?_, Nat.le_refl _⟩
      · rw [noValue]
        rfl
      · rw [absent noValue]
        exact represents
  · next filled =>
      obtain ⟨d', rehashed, same⟩ := rehashIfNeeded_spec represents.wf
      have represents' := same.represents represents
      have positive := same.size_pos represents.wf (by rw [dictSize]; omega)
      obtain ⟨result, searched, found⟩ := search_spec same.wf positive key
      have value := same.wf.mapOf_found found
      rw [represents'.map] at value
      rw [rehashed, Option.bind_some, searched, Option.map_some]
      cases result with
      | none =>
          refine ⟨d', ?_, ?_, same.entries.length_eq.le⟩
          · rw [value]
            rfl
          · rw [absent value]
            exact represents'
      | some hit =>
          obtain ⟨position, entry⟩ := hit
          obtain ⟨rfl, before, after, found, others⟩ := found
          have count : (d'.ht position.table).used - 1 + 1 =
              (d'.ht position.table).used + (none : Option V).toList.length :=
            Nat.sub_add_cancel (same.wf.used_pos found)
          obtain ⟨now, count⟩ := represents'.substitute found none count rfl
          refine ⟨_, ?_, now, ?_⟩
          · simp only [value, Option.map_some, Dict.modify_eq found, Dict.countDown_withHt,
              eraseP_append others entry after rfl]
            rfl
          · rw [← same.entries.length_eq]
            exact Nat.le_of_succ_le count.le

/-- What `dictAddRaw` comes to. -/
def Added.Right (hash : K → BitVec 64) (d : Dict K V) (map : K → Option V) (key : K) (val : V) :
    Added K V → Prop
  | .added d' => map key = none ∧ d'.Represents hash (Function.update map key (some val)) ∧
      d'.entries.length = d.entries.length + 1
  | .existing d' position => d.Same hash d' ∧ ∃ entry, d'.Found key (some (position, entry))
  | .failed _ => False

/-- A key that is not there is put into the table for new keys. -/
theorem Dict.Represents.push {d : Dict K V} {map : K → Option V}
    (represents : d.Represents hash map) (positive : 0 < d.ht0.size) {key : K}
    (absent : map key = none) (val : V) :
    ∃ d', (if dictIsRehashing d then
          (d.ht1.push hash (key, val)).map fun ht => Added.added { d with ht1 := ht }
        else (d.ht0.push hash (key, val)).map fun ht => .added { d with ht0 := ht }) =
          some (.added d') ∧
      d'.Represents hash (Function.update map key (some val)) ∧
      d'.entries.length = d.entries.length + 1 := by
  have wf := represents.wf
  have fresh : Distinct ((key, val) :: d.entries) :=
    distinct_cons.mpr ⟨mapOf_eq_none_iff.mp (represents.map ▸ absent), wf.distinct⟩
  have right : ∀ d' : Dict K V, d'.entries.Perm ((key, val) :: d.entries) →
      (Distinct d'.entries → d'.WF hash) →
      d'.Represents hash (Function.update map key (some val)) ∧
        d'.entries.length = d.entries.length + 1 := by
    intro d' entries wf'
    have distinct := fresh.perm entries.symm
    refine ⟨⟨wf' distinct, ?_⟩, entries.length_eq⟩
    rw [mapOf_perm distinct entries, mapOf_cons, represents.map]
  cases moving : d.rehashidx with
  | none =>
      obtain ⟨ht, pushed, wf0, -, entries⟩ := wf.ht0.push positive (key, val)
      refine ⟨{ d with ht0 := ht }, ?_, right _ (entries.append_right _) fun distinct =>
        ⟨wf0, wf.ht1, wf.still, fun idx moving' => ?_, distinct⟩⟩
      · rw [dictIsRehashing, moving, pushed]
        rfl
      · cases moving.symm.trans moving'
  | some idx =>
      obtain ⟨-, positive', empty⟩ := wf.moving idx moving
      obtain ⟨ht, pushed, wf1, size, entries⟩ := wf.ht1.push positive' (key, val)
      have spread : (d.ht0.entries ++ ht.entries).Perm ((key, val) :: d.entries) :=
        (entries.append_left _).trans List.perm_middle
      refine ⟨{ d with ht1 := ht }, ?_, right _ spread fun distinct =>
        ⟨wf.ht0, wf1, fun still => ?_, fun idx' moving' => ?_, distinct⟩⟩
      · rw [dictIsRehashing, moving, pushed]
        rfl
      · cases moving.symm.trans still
      · obtain ⟨_, _, empty⟩ := wf.moving idx' moving'
        exact ⟨positive, size ▸ positive', empty⟩

/-- An insertion puts in a new key only, and tells where an old one is. -/
theorem dictAddRaw_spec {d : Dict K V} {map : K → Option V} (represents : d.Represents hash map)
    (few : d.entries.length < 2 ^ 59) (canResize : Bool) (key : K) (val : V) :
    ∃ added, dictAddRaw hash canResize d key val = some added ∧
      added.Right hash d map key val := by
  obtain ⟨d₁, rehashed, same₁⟩ := rehashIfNeeded_spec represents.wf
  obtain ⟨d₂, expanded, same₂, positive⟩ := dictExpandIfNeeded_spec same₁.wf canResize
    (same₁.entries.length_eq ▸ few)
  have same := same₁.trans same₂
  have represents₂ := same.represents represents
  obtain ⟨result, searched, found⟩ := search_spec same.wf positive key
  rw [dictAddRaw, rehashed, Option.bind_some]
  simp only [expanded, searched, Option.bind_some]
  cases result with
  | none =>
      have absent : map key = none := represents₂.map ▸ same.wf.mapOf_found found
      obtain ⟨d', pushed, represents', count⟩ := represents₂.push positive absent val
      exact ⟨.added d', pushed, absent, represents', same.entries.length_eq ▸ count⟩
  | some hit => exact ⟨.existing d₂ hit.1, rfl, same, hit.2, found⟩

/-- An insertion puts in a new key only, and tells whether it was new. -/
theorem dictAdd_spec {d : Dict K V} {map : K → Option V} (represents : d.Represents hash map)
    (few : d.entries.length < 2 ^ 59) (canResize : Bool) (key : K) (val : V) :
    ∃ d', dictAdd hash canResize d key val = some (d', (map key).isNone) ∧
      d'.Represents hash (if (map key).isNone then Function.update map key (some val) else map) ∧
      d'.entries.length ≤ d.entries.length + 1 := by
  obtain ⟨added, result, right⟩ := dictAddRaw_spec represents few canResize key val
  rw [dictAdd, result]
  cases added with
  | added d' =>
      obtain ⟨absent, represents', count⟩ := right
      rw [absent]
      exact ⟨d', rfl, represents', count.le⟩
  | existing d' position =>
      obtain ⟨same, entry, found⟩ := right
      have present : map key = some entry.2 :=
        (same.represents represents).map ▸ same.wf.mapOf_found found
      rw [present]
      exact ⟨d', rfl, same.represents represents, by rw [same.entries.length_eq]; omega⟩
  | failed d' => exact right.elim

/-- A replacement puts in the value, and tells whether the key was new. -/
theorem dictReplace_spec {d : Dict K V} {map : K → Option V} (represents : d.Represents hash map)
    (few : d.entries.length < 2 ^ 59) (canResize : Bool) (key : K) (val : V) :
    ∃ d', dictReplace hash canResize d key val = some (d', (map key).isNone) ∧
      d'.Represents hash (Function.update map key (some val)) ∧
      d'.entries.length ≤ d.entries.length + 1 := by
  obtain ⟨added, result, right⟩ := dictAddRaw_spec represents few canResize key val
  rw [dictReplace, result]
  cases added with
  | added d' =>
      obtain ⟨absent, represents', count⟩ := right
      rw [absent]
      exact ⟨d', rfl, represents', count.le⟩
  | existing d' position =>
      obtain ⟨same, entry, found⟩ := right
      have represents' := same.represents represents
      have present : map key = some entry.2 := represents'.map ▸ same.wf.mapOf_found found
      obtain ⟨rfl, before, after, found, others⟩ := found
      obtain ⟨now, count⟩ := represents'.substitute found (some val) rfl rfl
      refine ⟨_, ?_, now, ?_⟩
      · simp only [present, Option.bind_some, Dict.modify_eq found,
          setVal_append others entry after rfl]
        rfl
      · rw [← same.entries.length_eq]
        exact (Nat.succ.inj count).le.trans (Nat.le_succ _)
  | failed d' => exact right.elim

/-! ## Whole sessions -/

/-- What can happen to a dictionary. The iterators are safe ones: `iterate` is the first `dictNext`
of such an iterator, and `release` its `dictReleaseIterator`. -/
inductive DictOp (K V : Type) where
  | add (key : K) (val : V)
  | replace (key : K) (val : V)
  | delete (key : K)
  | find (key : K)
  | rehash (n : Nat)
  | resize
  | expand (size : Nat)
  | setResize (allowed : Bool)
  | iterate
  | release
  | empty

/-- What a caller may ask for: tables whose memory can be counted in bytes, and numbers of steps
whose empty buckets an `int` can count. -/
def DictOp.InRange : DictOp K V → Prop
  | .expand size => size ≤ 2 ^ 60
  | .rehash n => n * 10 < 2 ^ 31
  | _ => True

instance DictOp.decidableInRange : (op : DictOp K V) → Decidable op.InRange
  | .expand _ => inferInstanceAs (Decidable (_ ≤ _))
  | .rehash _ => inferInstanceAs (Decidable (_ < _))
  | .add _ _ | .replace _ _ | .delete _ | .find _ | .resize | .setResize _ | .iterate | .release
  | .empty => inferInstanceAs (Decidable True)

/-- What a caller is told. -/
inductive DictReply (V : Type) where
  | done
  | changed (ok : Bool)
  | value (found : Option V)
deriving DecidableEq

variable (hash) in
/-- The dictionary and `dict_can_resize` after an operation. The counter of the iterators is an
`unsigned long`. -/
def dictStep : Dict K V × Bool → DictOp K V → Option ((Dict K V × Bool) × DictReply V)
  | (d, canResize), .add key val =>
      (dictAdd hash canResize d key val).map fun (d, ok) => ((d, canResize), .changed ok)
  | (d, canResize), .replace key val =>
      (dictReplace hash canResize d key val).map fun (d, ok) => ((d, canResize), .changed ok)
  | (d, canResize), .delete key =>
      (dictDelete hash d key).map fun (d, ok) => ((d, canResize), .changed ok)
  | (d, canResize), .find key =>
      (dictFind hash d key).map fun (d, entry) => ((d, canResize), .value (entry.map Prod.snd))
  | (d, canResize), .rehash n => (dictRehash hash d n).map fun (d, _) => ((d, canResize), .done)
  | (d, canResize), .resize => some (((dictResize canResize d).1, canResize), .done)
  | (d, canResize), .expand size => some (((dictExpand d size).1, canResize), .done)
  | (d, _), .setResize allowed => some ((d, allowed), .done)
  | (d, canResize), .iterate =>
      some (({ d with iterators := (d.iterators + 1) % 2 ^ 64 }, canResize), .done)
  | (d, canResize), .release =>
      some (({ d with iterators := (d.iterators + (2 ^ 64 - 1)) % 2 ^ 64 }, canResize), .done)
  | (d, canResize), .empty => some ((dictEmpty d, canResize), .done)

/-- The same operations on a map. -/
def mapStep (map : K → Option V) : DictOp K V → (K → Option V) × DictReply V
  | .add key val =>
      (if (map key).isNone then Function.update map key (some val) else map,
        .changed (map key).isNone)
  | .replace key val => (Function.update map key (some val), .changed (map key).isNone)
  | .delete key => (Function.update map key none, .changed (map key).isSome)
  | .find key => (map, .value (map key))
  | .empty => (fun _ => none, .done)
  | .rehash _ | .resize | .expand _ | .setResize _ | .iterate | .release => (map, .done)

/-- A dictionary for a map, with room for a number of further operations. -/
structure DictFor (hash : K → BitVec 64) (budget : Nat) (state : Dict K V × Bool)
    (map : K → Option V) : Prop where
  represents : state.1.Represents hash map
  room : state.1.entries.length + budget ≤ 2 ^ 59

/-- A dictionary that represents a map, with room for more. -/
theorem DictFor.of {budget : Nat} {d : Dict K V} {canResize : Bool} {map : K → Option V}
    (represents : d.Represents hash map) (room : d.entries.length + budget ≤ 2 ^ 59) :
    DictFor hash budget (d, canResize) map := ⟨represents, room⟩

/-- An operation that keeps the entries keeps the map. -/
theorem DictFor.same {budget : Nat} {d d' : Dict K V} {canResize : Bool} {map : K → Option V}
    (holds : DictFor hash (budget + 1) (d, canResize) map) (same : d.Same hash d')
    (canResize' : Bool) : DictFor hash budget (d', canResize') map := by
  have room : d.entries.length + (budget + 1) ≤ 2 ^ 59 := holds.room
  exact .of (same.represents holds.represents) (by rw [same.entries.length_eq]; omega)

/-- **One operation.** -/
theorem dictStep_refines (budget : Nat) (state : Dict K V × Bool) (map : K → Option V)
    (op : DictOp K V) (inRange : op.InRange) (holds : DictFor hash (budget + 1) state map) :
    ∃ next, dictStep hash state op = some (next, (mapStep map op).2) ∧
      DictFor hash budget next (mapStep map op).1 := by
  obtain ⟨d, canResize⟩ := state
  have represents : d.Represents hash map := holds.represents
  have wf := represents.wf
  have room : d.entries.length + (budget + 1) ≤ 2 ^ 59 := holds.room
  have few : d.entries.length < 2 ^ 59 := by omega
  cases op with
  | add key val =>
      obtain ⟨d', added, represents', count⟩ := dictAdd_spec represents few canResize key val
      exact ⟨(d', canResize), by rw [dictStep, added]; rfl, .of represents' (by omega)⟩
  | replace key val =>
      obtain ⟨d', replaced, represents', count⟩ := dictReplace_spec represents few canResize key val
      exact ⟨(d', canResize), by rw [dictStep, replaced]; rfl, .of represents' (by omega)⟩
  | delete key =>
      obtain ⟨d', deleted, represents', count⟩ := dictDelete_spec represents key
      exact ⟨(d', canResize), by rw [dictStep, deleted]; rfl, .of represents' (by omega)⟩
  | find key =>
      obtain ⟨d', entry, found, same, value⟩ := dictFind_spec represents key
      exact ⟨(d', canResize), by rw [dictStep, found, mapStep, ← value]; rfl, holds.same same _⟩
  | rehash n =>
      obtain ⟨d', more, rehashed, same, -⟩ := dictRehash_spec wf inRange
      exact ⟨(d', canResize), by rw [dictStep, rehashed]; rfl, holds.same same _⟩
  | resize => exact ⟨_, rfl, holds.same (dictResize_spec wf canResize) _⟩
  | expand size => exact ⟨_, rfl, holds.same (dictExpand_spec wf inRange).1 _⟩
  | setResize allowed => exact ⟨_, rfl, holds.same wf.same _⟩
  | iterate => exact ⟨_, rfl, holds.same (wf.counting _) _⟩
  | release => exact ⟨_, rfl, holds.same (wf.counting _) _⟩
  | empty =>
      refine ⟨_, rfl, .of ⟨wf_dictCreate, mapOf_nil⟩ ?_⟩
      change (dictCreate : Dict K V).entries.length + budget ≤ _
      rw [entries_dictCreate, List.length_nil]
      omega

variable (hash) in
/-- A session with a new dictionary. -/
def dictSession (ops : List (DictOp K V)) : Option ((Dict K V × Bool) × List (DictReply V)) :=
  serve (dictStep hash) (dictCreate, true) ops

variable (hash) in
/-- After a session the dictionary represents the map after it. -/
theorem dictSession_spec {ops : List (DictOp K V)} (inRange : ∀ op ∈ ops, op.InRange)
    (few : ops.length ≤ 2 ^ 59) :
    ∃ d canResize, dictSession hash ops =
        some ((d, canResize), (answers mapStep (fun _ => none) ops).2) ∧
      d.Represents hash (answers mapStep (fun _ => none) ops).1 := by
  have start : DictFor hash (0 + ops.length) ((dictCreate : Dict K V), true) fun _ => none := by
    refine .of ⟨wf_dictCreate, mapOf_nil⟩ ?_
    rw [entries_dictCreate, List.length_nil]
    omega
  obtain ⟨⟨d, canResize⟩, served, holds⟩ := serve_refines dictStep_refines inRange start
  exact ⟨d, canResize, served, holds.represents⟩

/-- The number of keys of a map with a list of entries for it. -/
theorem ncard_of_mapOf {entries : List (K × V)} (distinct : Distinct entries) :
    {key | (mapOf entries key).isSome}.ncard = entries.length := by
  have keys : {key | (mapOf entries key).isSome} = ((entries.map Prod.fst).toFinset : Set K) := by
    ext key
    simp only [Set.mem_ofPred_eq, Option.isSome_iff_exists, mapOf_eq_some_iff distinct,
      List.coe_toFinset, List.mem_map, Prod.exists, exists_and_right, exists_eq_right]
  rw [keys, Set.ncard_coe_finset, List.toFinset_card_of_nodup distinct, List.length_map]

/-- **The dictionary is a map.** Whatever is done to a new dictionary, in any order and with
rehashing steps, resizes and safe iterators in between, no assertion fails, the replies are those of
a map, and the size is the number of its keys. -/
theorem dict_refines_map (hash : K → BitVec 64) {ops : List (DictOp K V)}
    (inRange : ∀ op ∈ ops, op.InRange) (few : ops.length ≤ 2 ^ 59) :
    ∃ d canResize, dictSession hash ops =
        some ((d, canResize), (answers mapStep (fun _ => none) ops).2) ∧
      dictSize d = {key | ((answers mapStep (fun _ => none) ops).1 key).isSome}.ncard := by
  obtain ⟨d, canResize, served, represents⟩ := dictSession_spec hash inRange few
  refine ⟨d, canResize, served, ?_⟩
  rw [represents.wf.dictSize_eq, ← represents.map, ncard_of_mapOf represents.wf.distinct]

/-- Ten operations over an enlargement, with the replies of the map. -/
theorem dict_refines_map_sample : ∃ d canResize,
    dictSession (fun key : Nat => BitVec.ofNat 64 key)
        [.add 1 10, .add 5 50, .add 9 90, .add 13 30, .add 2 20, .find 9, .replace 5 55, .delete 1,
          .find 5, .find 1] =
      some ((d, canResize), [.changed true, .changed true, .changed true, .changed true,
        .changed true, .value (some 90), .changed false, .changed true, .value (some 55),
        .value none]) := by
  have inRange : ∀ op ∈ [DictOp.add 1 10, .add 5 50, .add 9 90, .add 13 30, .add 2 20, .find 9,
      .replace 5 55, .delete 1, .find 5, .find 1], op.InRange := by decide
  obtain ⟨d, canResize, served, -⟩ :=
    dict_refines_map (fun key : Nat => BitVec.ofNat 64 key) inRange (by decide)
  exact ⟨d, canResize, served⟩

/-! ## Rehashing ends -/

end CPrograms.Redis
