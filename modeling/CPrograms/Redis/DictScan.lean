import CPrograms.Library.ReverseCounter
import CPrograms.Redis.DictMap

/-!
# Scanning a dictionary

`dictScan` goes over the elements of a dictionary in many calls, between which the dictionary may
change in any way. What it keeps between the calls is a cursor, whose bits are counted up in
reverse.
-/

namespace CPrograms.Redis

open Library

variable {K V : Type} {hash : K → BitVec 64}

/-- The loop of `rev`, which halves `s`. -/
def revLoop : (rounds s : Nat) → (mask v : BitVec 64) → BitVec 64
  | 0, _, _, v => v
  | rounds + 1, s, mask, v =>
      let s := s >>> 1
      if 0 < s then
        let mask := mask ^^^ (mask <<< s)
        revLoop rounds s mask (((v >>> s) &&& mask) ||| ((v <<< s) &&& ~~~mask))
      else v

/-- Function to reverse bits. -/
def rev (v : BitVec 64) : BitVec 64 := revLoop 64 64 (BitVec.allOnes 64) v

/-- The exchanges of `rev`, the last one first. -/
def revSteps : List (Nat × BitVec 64) :=
  [(1, 0x5555555555555555), (2, 0x3333333333333333), (4, 0x0f0f0f0f0f0f0f0f),
    (8, 0x00ff00ff00ff00ff), (16, 0x0000ffff0000ffff), (32, 0x00000000ffffffff)]

/-- The five exchanges and the last one reverse the bits. -/
theorem rev_eq_reverse (v : BitVec 64) : rev v = v.reverse := by
  have steps : rev v = exchangeAll revSteps v := rfl
  rw [steps]
  exact exchangeAll_eq_reverse (by decide +kernel) (by decide +kernel) v

/-- The loop over the buckets of the larger table that are expansions of the cursor: the entries,
and the cursor behind it. The number of rounds is bounded by the number of buckets. -/
def expansions (m0 : BitVec 64) (t1 : Dictht K V) :
    (rounds : Nat) → (v : BitVec 64) → Option (List (K × V) × BitVec 64)
  | 0, _ => none
  | rounds + 1, v =>
      t1.table[t1.index v]?.bind fun chain =>
        let v := (((v ||| m0) + 1) &&& ~~~m0) ||| (v &&& m0)
        if v &&& (m0 ^^^ t1.sizemask) ≠ 0 then
          (expansions m0 t1 rounds v).map fun (emitted, v) => (chain ++ emitted, v)
        else some (chain, v)

/-- The end of `dictScan`: increment the reverse cursor. -/
def nextCursor (m0 v : BitVec 64) : BitVec 64 := rev (rev (v ||| ~~~m0) + 1)

/-- The smaller and the larger table. -/
def scanTables (d : Dict K V) : Dictht K V × Dictht K V :=
  if !dictIsRehashing d then (d.ht0, d.ht0)
  else if d.ht1.size < d.ht0.size then (d.ht1, d.ht0)
  else (d.ht0, d.ht1)

/-- One call: the next cursor, and the entries that are handed to the callback. -/
def dictScan (d : Dict K V) (v : BitVec 64) : Option (BitVec 64 × List (K × V)) :=
  if dictSize d = 0 then some (0, [])
  else
    let (t0, t1) := scanTables d
    t0.table[t0.index v]?.bind fun chain =>
      if !dictIsRehashing d then some (nextCursor t0.sizemask v, chain)
      else
        (expansions t0.sizemask t1 t1.size v).map fun (emitted, v) =>
          (nextCursor t0.sizemask v, chain ++ emitted)

/-- Calls one after the other, each with the cursor of the one before and with the dictionary as it
is at that time. -/
def scan (v : BitVec 64) (ds : List (Dict K V)) : Option (BitVec 64 × List (List (K × V))) :=
  serve (fun v d => dictScan d v) v ds

/-! ## One call -/

/-- The mask of a table has as many bits as its size. -/
theorem Dictht.WF.sizemask_eq {ht : Dictht K V} (wf : ht.WF hash) {k : Nat}
    (size : ht.size = 2 ^ k) : ht.sizemask = lowMask 64 k := by
  rw [wf.mask, size, lowMask]

/-- The next cursor counts in reverse. -/
theorem nextCursor_eq (k : Nat) (v : BitVec 64) :
    nextCursor (lowMask 64 k) v = nextReverse k v := by
  rw [nextCursor, rev_eq_reverse, rev_eq_reverse, nextReverse]

/-- The number of an expansion of the cursor in the larger table. -/
def place (k l : Nat) (v : BitVec 64) : Nat := v.toNat % 2 ^ l / 2 ^ k

/-- The place of a cursor, by division. -/
theorem place_eq {k l : Nat} (order : k ≤ l) (v : BitVec 64) :
    place k l v = v.toNat / 2 ^ k % 2 ^ (l - k) := by
  have whole : 2 ^ l = 2 ^ k * 2 ^ (l - k) := by rw [← Nat.pow_add, Nat.add_sub_cancel' order]
  rw [place, whole, Nat.mod_mul_right_div_self]

/-- The place of a cursor is a number of the bits between the sizes. -/
theorem place_lt {k l : Nat} (order : k ≤ l) (v : BitVec 64) : place k l v < 2 ^ (l - k) := by
  rw [place_eq order]
  exact Nat.mod_lt _ (Nat.two_pow_pos _)

/-- Words are in one bucket of the larger table if they agree in the smaller one and are the same
expansion. -/
theorem mod_eq_of_place {k l : Nat} (order : k ≤ l) {u v : BitVec 64}
    (low : u.toNat % 2 ^ k = v.toNat % 2 ^ k) (same : place k l u = place k l v) :
    u.toNat % 2 ^ l = v.toNat % 2 ^ l := by
  have whole : 2 ^ l = 2 ^ k * 2 ^ (l - k) := by rw [← Nat.pow_add, Nat.add_sub_cancel' order]
  rw [place_eq order, place_eq order] at same
  rw [whole, Nat.mod_mul, Nat.mod_mul, low, same]

/-- Counting above `k` keeps what is below. -/
theorem nextAbove_mod {k : Nat} (inside : k ≤ 64) (v : BitVec 64) :
    (nextAbove k v).toNat % 2 ^ k = v.toNat % 2 ^ k := by
  rw [toNat_nextAbove inside, Nat.mul_add_mod, Nat.mod_mod]

/-- The expansions are numbered one after the other, and come back to the first one. -/
theorem place_nextAbove {k l : Nat} (order : k ≤ l) (inside : l ≤ 64) (v : BitVec 64) :
    place k l (nextAbove k v) = (place k l v + 1) % 2 ^ (l - k) := by
  have positive := Nat.two_pow_pos k
  have divides : 2 ^ (l - k) ∣ 2 ^ (64 - k) := Nat.pow_dvd_pow 2 (by omega)
  rw [place_eq order, place_eq order, toNat_nextAbove (by omega), Nat.mul_add_div positive,
    Nat.div_eq_of_lt (Nat.mod_lt _ positive), Nat.add_zero, Nat.mod_mod_of_dvd _ divides,
    Nat.mod_add_mod]

/-- The next expansion, unless it was the last one. -/
theorem place_nextAbove_cases {k l : Nat} (order : k ≤ l) (inside : l ≤ 64) (v : BitVec 64) :
    place k l (nextAbove k v) = place k l v + 1 ∨
      place k l (nextAbove k v) = 0 ∧ place k l v + 1 = 2 ^ (l - k) := by
  have last := place_lt order v
  rw [place_nextAbove order inside]
  rcases Nat.lt_or_ge (place k l v + 1) (2 ^ (l - k)) with below | above
  · exact .inl (Nat.mod_eq_of_lt below)
  · have wrapped : place k l v + 1 = 2 ^ (l - k) := by omega
    exact .inr ⟨by rw [wrapped, Nat.mod_self], wrapped⟩

/-- The test of the loop: whether the last expansion has been reached. -/
theorem and_masks_eq_zero {k l : Nat} (order : k ≤ l) (inside : l ≤ 64) (v : BitVec 64) :
    v &&& (lowMask 64 k ^^^ lowMask 64 l) = 0 ↔ place k l v = 0 := by
  have positive := Nat.two_pow_pos k
  rw [BitVec.toNat_eq, toNat_and_xor_lowMask order inside, ← place]
  change 2 ^ k * place k l v = 0 ↔ _
  rw [Nat.mul_eq_zero]
  exact or_iff_right positive.ne'

/-- The entries of a bucket. -/
theorem Dictht.WF.mem_bucket {ht : Dictht K V} (wf : ht.WF hash) {k : Nat} (inside : k ≤ 60)
    (size : ht.size = 2 ^ k) {v : BitVec 64} {chain : List (K × V)}
    (found : ht.table[ht.index v]? = some chain) (entry : K × V) :
    entry ∈ chain ↔ entry ∈ ht.entries ∧ (hash entry.1).toNat % 2 ^ k = v.toNat % 2 ^ k := by
  constructor
  · intro member
    have bucket : ht.index (hash entry.1) = ht.index v := wf.placed _ _ found entry member
    rw [wf.index_eq inside size, wf.index_eq inside size] at bucket
    exact ⟨List.mem_flatten.mpr ⟨chain, List.mem_of_getElem? found, member⟩, bucket⟩
  · rintro ⟨member, agree⟩
    obtain ⟨chain', found', member⟩ := wf.placed.mem_flatten_iff.mp member
    rw [wf.index_eq inside size, agree, ← wf.index_eq inside size, found] at found'
    cases found'
    exact member

/-- **The expansions from a cursor on are all visited**, and what is visited is in the table. -/
theorem expansions_spec {t1 : Dictht K V} (wf : t1.WF hash) {k l : Nat} (order : k ≤ l)
    (inside : l ≤ 60) (size : t1.size = 2 ^ l) (rounds : Nat) (v : BitVec 64)
    (enough : 2 ^ (l - k) ≤ rounds + place k l v) :
    ∃ emitted v', expansions (lowMask 64 k) t1 rounds v = some (emitted, v') ∧
      v'.toNat % 2 ^ k = v.toNat % 2 ^ k ∧ (∀ entry ∈ emitted, entry ∈ t1.entries) ∧
      ∀ entry ∈ t1.entries, (hash entry.1).toNat % 2 ^ k = v.toNat % 2 ^ k →
        place k l v ≤ place k l (hash entry.1) → entry ∈ emitted := by
  induction rounds generalizing v with
  | zero =>
      have bound := place_lt order v
      omega
  | succ rounds ih =>
      have within : l ≤ 64 := inside.trans (by decide)
      obtain ⟨chain, found⟩ := wf.exists_chain (size ▸ Nat.two_pow_pos l) v
      have bucket := wf.mem_bucket inside size found
      have here : ∀ entry ∈ t1.entries, (hash entry.1).toNat % 2 ^ k = v.toNat % 2 ^ k →
          place k l v = place k l (hash entry.1) → entry ∈ chain := fun entry member low same =>
        (bucket entry).mpr ⟨member, mod_eq_of_place order low same.symm⟩
      have low := nextAbove_mod (order.trans within) v
      have test := and_masks_eq_zero order within (nextAbove k v)
      rw [expansions, found, Option.bind_some, wf.sizemask_eq size]
      change ∃ emitted v', (if nextAbove k v &&& (lowMask 64 k ^^^ lowMask 64 l) ≠ 0 then
          (expansions (lowMask 64 k) t1 rounds (nextAbove k v)).map fun (emitted, v) =>
            (chain ++ emitted, v)
        else some (chain, nextAbove k v)) = some (emitted, v') ∧ _
      rcases place_nextAbove_cases order within v with step | ⟨wrapped, last⟩
      · have more : nextAbove k v &&& (lowMask 64 k ^^^ lowMask 64 l) ≠ 0 := fun zero => by
          have none := test.mp zero
          omega
        obtain ⟨emitted, v', rest, low', sound, complete⟩ := ih (nextAbove k v) (by omega)
        rw [if_pos more, rest]
        refine ⟨chain ++ emitted, v', rfl, low'.trans low, ?_, fun entry member agree ahead => ?_⟩
        · intro entry member
          rcases List.mem_append.mp member with member | member
          · exact ((bucket entry).mp member).1
          · exact sound entry member
        · rcases Nat.eq_or_lt_of_le ahead with same | beyond
          · exact List.mem_append_left _ (here entry member agree same)
          · exact List.mem_append_right _
              (complete entry member (agree.trans low.symm) (by omega))
      · rw [if_neg (not_not.mpr (test.mpr wrapped))]
        refine ⟨chain, nextAbove k v, rfl, low, fun entry member => ((bucket entry).mp member).1,
          fun entry member agree ahead => here entry member agree ?_⟩
        have other := place_lt order (hash entry.1)
        omega

/-- What a call hands out, for a granularity of the cursor. -/
structure Scanned (hash : K → BitVec 64) (d : Dict K V) (v : BitVec 64) (k : Nat)
    (emitted : List (K × V)) : Prop where
  sound : ∀ entry ∈ emitted, entry ∈ d.entries
  complete : (dictIsRehashing d = true → v.toNat < 2 ^ k) → ∀ entry ∈ d.entries,
    (hash entry.1).toNat % 2 ^ k = v.toNat % 2 ^ k → entry ∈ emitted

/-- While rehashing, the bucket of the smaller table and its expansions in the larger one. -/
theorem scanned_of_tables {d : Dict K V} {t0 t1 : Dictht K V} (wf0 : t0.WF hash) (wf1 : t1.WF hash)
    (entries : ∀ entry, entry ∈ d.entries ↔ entry ∈ t0.entries ∨ entry ∈ t1.entries)
    (positive : 0 < t0.size) (positive' : 0 < t1.size) (order : t0.size ≤ t1.size) (v : BitVec 64)
    (moving : dictIsRehashing d = true) :
    ∃ k emitted, k ≤ 60 ∧ t0.size = 2 ^ k ∧
      (t0.table[t0.index v]?.bind fun chain =>
        (expansions t0.sizemask t1 t1.size v).map fun (emitted, v) =>
          (nextCursor t0.sizemask v, chain ++ emitted)) = some (nextReverse k v, emitted) ∧
      Scanned hash d v k emitted := by
  obtain ⟨k, inside, size⟩ := wf0.power.resolve_left positive.ne'
  obtain ⟨l, inside', size'⟩ := wf1.power.resolve_left positive'.ne'
  have order : k ≤ l := (Nat.pow_le_pow_iff_right (by decide)).mp (size ▸ size' ▸ order)
  obtain ⟨chain, found⟩ := wf0.exists_chain positive v
  have bucket := wf0.mem_bucket inside size found
  have enough : 2 ^ (l - k) ≤ t1.size + place k l v := by
    have fewer : 2 ^ (l - k) ≤ 2 ^ l := Nat.pow_le_pow_right (by decide) (Nat.sub_le l k)
    omega
  obtain ⟨emitted, v', expanded, low, sound, complete⟩ :=
    expansions_spec wf1 order inside' size' t1.size v enough
  refine ⟨k, chain ++ emitted, inside, size, ?_, ?_, fun small entry member agree => ?_⟩
  · rw [found, Option.bind_some, wf0.sizemask_eq size, expanded]
    simp only [Option.map_some, nextCursor_eq, nextReverse_congr low]
  · intro entry member
    rw [entries]
    exact (List.mem_append.mp member).imp (fun member => ((bucket entry).mp member).1)
      (sound entry)
  · rcases (entries entry).mp member with member | member
    · exact List.mem_append_left _ ((bucket entry).mpr ⟨member, agree⟩)
    · have first : place k l v = 0 := by
        rw [place_eq order, Nat.div_eq_of_lt (small moving), Nat.zero_mod]
      exact List.mem_append_right _ (complete entry member agree (by omega))

/-- **One call.** It does not leave the tables, and hands out every element that agrees with the
cursor, if the cursor fits the smaller table or there is only one. -/
theorem dictScan_spec {d : Dict K V} (wf : d.WF hash) (filled : dictSize d ≠ 0) (v : BitVec 64) :
    ∃ k emitted, k ≤ 60 ∧ (scanTables d).1.size = 2 ^ k ∧
      dictScan d v = some (nextReverse k v, emitted) ∧ Scanned hash d v k emitted := by
  have positive := wf.same.size_pos wf filled
  rw [dictScan, if_neg filled, scanTables]
  cases moving : d.rehashidx with
  | none =>
      have still : dictIsRehashing d = false := by rw [dictIsRehashing, moving]; rfl
      obtain ⟨k, inside, size⟩ := wf.ht0.power.resolve_left positive.ne'
      obtain ⟨chain, found⟩ := wf.ht0.exists_chain positive v
      have bucket := wf.ht0.mem_bucket inside size found
      have one : d.entries = d.ht0.entries := by
        rw [Dict.entries, wf.still moving]
        exact List.append_nil _
      simp only [still, Bool.not_false, if_true]
      refine ⟨k, chain, inside, size, ?_, ?_, ?_⟩
      · rw [found, Option.bind_some, wf.ht0.sizemask_eq size, nextCursor_eq]
      · intro entry member
        rw [one]
        exact ((bucket entry).mp member).1
      · intro _ entry member agree
        exact (bucket entry).mpr ⟨one ▸ member, agree⟩
  | some idx =>
      have rehashing : dictIsRehashing d = true := by rw [dictIsRehashing, moving]; rfl
      obtain ⟨-, positive', -⟩ := wf.moving idx moving
      simp only [rehashing, Bool.not_true, Bool.false_eq_true, if_false]
      split
      · next smaller =>
          exact scanned_of_tables wf.ht1 wf.ht0
            (fun entry => List.mem_append.trans or_comm) positive' positive smaller.le v rehashing
      · next larger =>
          exact scanned_of_tables wf.ht0 wf.ht1 (fun entry => List.mem_append) positive positive'
            (Nat.not_lt.mp larger) v rehashing

/-! ## A whole iteration -/

/-- A state of a dictionary in some session. -/
def Dict.Reached [DecidableEq K] (hash : K → BitVec 64) (d : Dict K V) : Prop :=
  ∃ ops canResize replies, (∀ op ∈ ops, op.InRange) ∧ ops.length ≤ 2 ^ 59 ∧
    dictSession hash ops = some ((d, canResize), replies)

/-- What sessions reach is well-formed. -/
theorem Dict.Reached.wf [DecidableEq K] {d : Dict K V} (reached : d.Reached hash) : d.WF hash := by
  obtain ⟨ops, canResize, replies, inRange, few, session⟩ := reached
  obtain ⟨d', canResize', session', represents⟩ := dictSession_spec hash inRange few
  cases session.symm.trans session'
  exact represents.wf

/-- At the next call the smaller table is not smaller than it was, unless there is only one. -/
def NotShrunk (d d' : Dict K V) : Prop :=
  dictIsRehashing d' = true → (scanTables d).1.size ≤ (scanTables d').1.size

/-- A dictionary with an entry is not empty. -/
theorem Dict.WF.dictSize_ne_zero {d : Dict K V} (wf : d.WF hash) {entry : K × V}
    (member : entry ∈ d.entries) : dictSize d ≠ 0 := by
  rw [wf.dictSize_eq]
  exact (List.length_pos_of_mem member).ne'

/-- No call fails, and nothing is handed out that was not there. -/
theorem scan_sound {ds : List (Dict K V)} (wf : ∀ d ∈ ds, d.WF hash)
    (filled : ∀ d ∈ ds, dictSize d ≠ 0) (v : BitVec 64) :
    ∃ v' emitted, scan v ds = some (v', emitted) ∧
      ∀ entry ∈ emitted.flatten, ∃ d ∈ ds, entry ∈ d.entries := by
  induction ds generalizing v with
  | nil => exact ⟨v, [], rfl, nofun⟩
  | cons d ds ih =>
      obtain ⟨k, emitted, -, -, scanned, right⟩ :=
        dictScan_spec (wf d List.mem_cons_self) (filled d List.mem_cons_self) v
      obtain ⟨v', rest, scannedRest, sound⟩ :=
        ih (fun d member => wf d (List.mem_cons_of_mem _ member))
          (fun d member => filled d (List.mem_cons_of_mem _ member)) (nextReverse k v)
      refine ⟨v', emitted :: rest, ?_, fun entry member => ?_⟩
      · rw [scan] at scannedRest
        simp only [scan, serve, scanned, Option.bind_some, scannedRest, Option.map_some]
      · rcases List.mem_append.mp (List.flatten_cons ▸ member) with member | member
        · exact ⟨d, List.mem_cons_self, right.sound entry member⟩
        · obtain ⟨d', there, inside⟩ := sound entry member
          exact ⟨d', List.mem_cons_of_mem d there, inside⟩

/-- From a cursor that has not passed a key on, the key is handed out, or the cursor does not come
back to 0. -/
theorem scan_complete {key : K} {ds : List (Dict K V)} (wf : ∀ d ∈ ds, d.WF hash)
    (steady : ds.IsChain NotShrunk) (present : ∀ d ∈ ds, ∃ val, (key, val) ∈ d.entries)
    {v v' : BitVec 64}
    (fits : ∀ d ∈ ds.head?, dictIsRehashing d = true → v.toNat < (scanTables d).1.size)
    (ahead : rank v ≤ rank (hash key)) (started : v ≠ 0 ∨ ds ≠ [])
    {emitted : List (List (K × V))} (result : scan v ds = some (v', emitted)) :
    (∃ val, (key, val) ∈ emitted.flatten) ∨ v' ≠ 0 := by
  induction ds generalizing v emitted with
  | nil =>
      cases result
      exact .inr (started.resolve_right fun some => some rfl)
  | cons d ds ih =>
      obtain ⟨val, member⟩ := present d List.mem_cons_self
      have wfHere := wf d List.mem_cons_self
      obtain ⟨k, first, inside, size, scanned, right⟩ :=
        dictScan_spec wfHere (wfHere.dictSize_ne_zero member) v
      simp only [scan, serve, scanned, Option.bind_some, Option.map_eq_some_iff] at result
      obtain ⟨⟨last, rest⟩, result, equal⟩ := result
      cases equal
      by_cases agree : (hash key).toNat % 2 ^ k = v.toNat % 2 ^ k
      · have handed := right.complete (size ▸ fits d rfl) _ member agree
        exact .inl ⟨val, List.mem_flatten.mpr ⟨first, List.mem_cons_self, handed⟩⟩
      · have within : k ≤ 64 := inside.trans (by decide)
        obtain ⟨ahead', notFirst⟩ := rank_nextReverse_le within ahead agree
        obtain ⟨shrunk, steady⟩ := List.isChain_cons.mp steady
        have fits' : ∀ d' ∈ ds.head?, dictIsRehashing d' = true →
            (nextReverse k v).toNat < (scanTables d').1.size := fun d' head moving =>
          Nat.lt_of_lt_of_le (nextReverse_lt within v) (size ▸ shrunk d' head moving)
        have onward := ih (fun d member => wf d (List.mem_cons_of_mem _ member)) steady
          (fun d member => present d (List.mem_cons_of_mem _ member)) fits' ahead'
          (.inl notFirst) result
        rcases onward with ⟨val, member⟩ | other
        · exact .inl ⟨val, List.mem_append_right first member⟩
        · exact .inr other

variable [DecidableEq K]

/-- **A full iteration returns every element that is there from start to end.** The dictionary may
change in any way between the calls, as long as a call during a rehashing does not meet a smaller
table than the one before. No call fails, and nothing is returned that was not there. -/
theorem dictScan_returns_all (hash : K → BitVec 64) {ds : List (Dict K V)} (some : ds ≠ [])
    (reached : ∀ d ∈ ds, d.Reached hash) (steady : ds.IsChain NotShrunk) {key : K}
    (present : ∀ d ∈ ds, ∃ val, (key, val) ∈ d.entries) :
    ∃ v emitted, scan 0 ds = .some (v, emitted) ∧
      (v = 0 → ∃ val, (key, val) ∈ emitted.flatten) ∧
      ∀ entry ∈ emitted.flatten, ∃ d ∈ ds, entry ∈ d.entries := by
  have wf : ∀ d ∈ ds, d.WF hash := fun d member => (reached d member).wf
  have filled : ∀ d ∈ ds, dictSize d ≠ 0 := by
    intro d member
    obtain ⟨val, inside⟩ := present d member
    exact (wf d member).dictSize_ne_zero inside
  obtain ⟨v, emitted, result, sound⟩ := scan_sound wf filled 0
  refine ⟨v, emitted, result, fun ended => ?_, sound⟩
  have fits : ∀ d ∈ ds.head?, dictIsRehashing d = true →
      (0 : BitVec 64).toNat < (scanTables d).1.size := by
    intro d head _
    have member := List.mem_of_mem_head? head
    obtain ⟨k, -, -, size, -⟩ := dictScan_spec (wf d member) (filled d member) 0
    rw [size]
    exact Nat.two_pow_pos k
  have start : rank (0 : BitVec 64) ≤ rank (hash key) := by
    rw [rank_zero]
    exact Nat.zero_le _
  exact (scan_complete wf steady present fits start (.inr some) result).resolve_right
    fun other => other ended

/-- A dictionary that grows during the iteration. -/
theorem dictScan_returns_all_sample :
    ∃ (small large : Dict Nat Nat) (emitted : List (List (Nat × Nat))),
      dictIsRehashing small = false ∧ dictIsRehashing large = true ∧
      scan 0 [small, large, large, large] = some (0, emitted) ∧
      ∃ val, (3, val) ∈ emitted.flatten := by
  have states : ∃ small large : Dict Nat Nat,
      small.Reached (BitVec.ofNat 64) ∧ large.Reached (BitVec.ofNat 64) ∧
      dictIsRehashing small = false ∧ dictIsRehashing large = true ∧
      (3, 30) ∈ small.entries ∧ (3, 30) ∈ large.entries ∧
      (scanTables small).1.size = (scanTables large).1.size ∧
      (scan 0 [small, large, large, large]).map Prod.fst = some 0 :=
    ⟨_, _, ⟨[.add 1 10, .add 2 20, .add 3 30, .add 4 40], _, _, by decide, by decide, rfl⟩,
      ⟨[.add 1 10, .add 2 20, .add 3 30, .add 4 40, .add 5 50], _, _, by decide, by decide, rfl⟩,
      rfl, rfl, by decide, by decide, rfl, by decide +kernel⟩
  obtain ⟨small, large, reached, reached', still, moving, here, here', size, last⟩ := states
  have present : ∀ d ∈ [small, large, large, large], ∃ val, (3, val) ∈ d.entries := by
    simp only [List.mem_cons, List.not_mem_nil, or_false]
    rintro d (rfl | rfl | rfl | rfl)
    exacts [⟨30, here⟩, ⟨30, here'⟩, ⟨30, here'⟩, ⟨30, here'⟩]
  obtain ⟨v, emitted, result, complete, -⟩ := dictScan_returns_all (BitVec.ofNat 64)
    (List.cons_ne_nil _ _) (by simp [reached, reached']) (by simp [NotShrunk, size]) present
  rw [result, Option.map_some, Option.some.injEq] at last
  cases last
  exact ⟨small, large, emitted, still, moving, result, complete rfl⟩

/-- An element is missed when the table has shrunk since the cursor was handed out: the cursor 8 of
a table with 16 buckets, used during the rehashing to 4 buckets, skips bucket 4. -/
theorem dictScan_misses : ∃ (large shrinking : Dict Nat Nat) (emitted : List (List (Nat × Nat))),
    large.Reached (BitVec.ofNat 64) ∧ shrinking.Reached (BitVec.ofNat 64) ∧
      (4, 40) ∈ large.entries ∧ (4, 40) ∈ shrinking.entries ∧
      scan 0 [large, shrinking, shrinking, shrinking, shrinking] = some (0, emitted) ∧
      (4, 40) ∉ emitted.flatten := by
  refine ⟨_, _, _, ⟨[.expand 16, .add 4 40, .add 1 10], _, _, by decide, by decide, rfl⟩,
    ⟨[.expand 16, .add 4 40, .add 1 10, .resize], _, _, by decide, by decide, rfl⟩, ?_, ?_, rfl, ?_⟩
  · decide
  · decide
  · decide

/-! ## An iteration ends -/

omit [DecidableEq K] in
/-- A scan comes back to zero after as many calls as the largest table has buckets left. -/
theorem scan_ends {ds : List (Dict K V)} (wf : ∀ d ∈ ds, d.WF hash) {l : Nat} (inside : l ≤ 64)
    (small : ∀ d ∈ ds, (scanTables d).1.size ≤ 2 ^ l) {v : BitVec 64}
    (enough : 2 ^ l ≤ ds.length + rank v / 2 ^ (64 - l)) :
    ∃ n emitted, 0 < n ∧ n ≤ ds.length ∧ scan v (ds.take n) = some (0, emitted) := by
  induction ds generalizing v with
  | nil =>
      have whole : 2 ^ 64 = 2 ^ (64 - l) * 2 ^ l := by rw [← Nat.pow_add, Nat.sub_add_cancel inside]
      have places : rank v / 2 ^ (64 - l) < 2 ^ l := Nat.div_lt_of_lt_mul (whole ▸ rank_lt v)
      rw [List.length_nil] at enough
      omega
  | cons d ds ih =>
      have last : ∀ emitted, dictScan d v = some (0, emitted) →
          ∃ n emitted, 0 < n ∧ n ≤ (d :: ds).length ∧
            scan v ((d :: ds).take n) = some (0, emitted) := by
        intro emitted scanned
        refine ⟨1, [emitted], Nat.one_pos, Nat.succ_le_succ (Nat.zero_le _), ?_⟩
        simp only [List.take_succ_cons, List.take_zero, scan, serve, scanned, Option.bind_some,
          Option.map_some]
      by_cases filled : dictSize d = 0
      · exact last [] (by rw [dictScan, if_pos filled])
      · obtain ⟨k, first, -, size, scanned, -⟩ := dictScan_spec (wf d List.mem_cons_self) filled v
        have order : k ≤ l := by
          rw [← Nat.pow_le_pow_iff_right (show 1 < 2 by decide), ← size]
          exact small d List.mem_cons_self
        rcases nextReverse_advances order inside v with zero | onward
        · exact last first (zero ▸ scanned)
        · rw [List.length_cons] at enough
          have enough' : 2 ^ l ≤ ds.length + rank (nextReverse k v) / 2 ^ (64 - l) := by omega
          obtain ⟨n, rest, positive, bound, result⟩ :=
            ih (fun d member => wf d (List.mem_cons_of_mem _ member))
              (fun d member => small d (List.mem_cons_of_mem _ member)) enough'
          refine ⟨n + 1, first :: rest, Nat.succ_pos n, Nat.succ_le_succ bound, ?_⟩
          rw [scan] at result
          simp only [List.take_succ_cons, scan, serve, scanned, Option.bind_some, result,
            Option.map_some]

/-- **An iteration ends.** While the tables have at most `2 ^ l` buckets, the cursor comes back to
0 within as many calls, whatever happens to the dictionary between them. -/
theorem dictScan_ends (hash : K → BitVec 64) {ds : List (Dict K V)}
    (reached : ∀ d ∈ ds, d.Reached hash) {l : Nat} (inside : l ≤ 64)
    (small : ∀ d ∈ ds, (scanTables d).1.size ≤ 2 ^ l) (enough : 2 ^ l ≤ ds.length) :
    ∃ n emitted, 0 < n ∧ n ≤ 2 ^ l ∧ scan 0 (ds.take n) = some (0, emitted) := by
  have length : (ds.take (2 ^ l)).length = 2 ^ l := List.length_take_of_le enough
  have enough' : 2 ^ l ≤ (ds.take (2 ^ l)).length + rank (0 : BitVec 64) / 2 ^ (64 - l) := by
    rw [length]
    exact Nat.le_add_right _ _
  obtain ⟨n, emitted, positive, bound, result⟩ :=
    scan_ends (fun d member => (reached d (List.mem_of_mem_take member)).wf) inside
      (fun d member => small d (List.mem_of_mem_take member)) enough'
  rw [length] at bound
  rw [List.take_take, Nat.min_eq_left bound] at result
  exact ⟨n, emitted, positive, bound, result⟩

/-- A scan of a table of four buckets ends within four calls. -/
theorem dictScan_ends_sample : ∃ (d : Dict Nat Nat) (n : Nat) (emitted : List (List (Nat × Nat))),
    n ≤ 2 ^ 2 ∧ scan 0 ([d, d, d, d].take n) = some (0, emitted) := by
  have state : ∃ d : Dict Nat Nat, d.Reached (BitVec.ofNat 64) ∧ (scanTables d).1.size = 2 ^ 2 :=
    ⟨_, ⟨[.add 1 10, .add 2 20, .add 3 30], _, _, by decide, by decide, rfl⟩, rfl⟩
  obtain ⟨d, reached, size⟩ := state
  obtain ⟨n, emitted, -, bound, result⟩ := dictScan_ends (BitVec.ofNat 64)
    (show ∀ d' ∈ [d, d, d, d], d'.Reached (BitVec.ofNat 64) by simp [reached])
    (show 2 ≤ 64 by decide) (by simp [size]) (Nat.le_refl 4)
  exact ⟨d, n, emitted, bound, result⟩

end CPrograms.Redis
