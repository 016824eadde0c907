import Mathlib.Data.BitVec

/-!
# Counting in reverse

A word can be reversed by exchanging ever smaller groups of its bits. Counting up the reversed word,
at a granularity that may be another one for every step, passes every word: the words that agree
with the counter in their low bits are next to each other in the reversed order, and the counter
goes on behind them.
-/

namespace CPrograms.Library

variable {w : Nat}

/-! ## Exchanging bits -/

/-- Bits under the mask come from `s` places above, the other ones from `s` places below. -/
def exchange (s : Nat) (mask v : BitVec w) : BitVec w :=
  ((v >>> s) &&& mask) ||| ((v <<< s) &&& ~~~mask)

/-- Where a bit comes from. -/
def origin (s : Nat) (mask : BitVec w) (i : Nat) : Nat := if mask.getLsbD i then i + s else i - s

/-- No bit comes from outside the word. -/
def Exchanges (s : Nat) (mask : BitVec w) : Prop :=
  ∀ i < w, origin s mask i < w ∧ (mask.getLsbD i = false → s ≤ i)

instance decidableExchanges (s : Nat) (mask : BitVec w) : Decidable (Exchanges s mask) :=
  inferInstanceAs (Decidable (∀ i < w, _))

/-- A bit of an exchanged word comes from its origin. -/
theorem getLsbD_exchange {s : Nat} {mask : BitVec w} (exchanges : Exchanges s mask) {i : Nat}
    (inside : i < w) (v : BitVec w) :
    (exchange s mask v).getLsbD i = v.getLsbD (origin s mask i) := by
  rw [exchange, origin, BitVec.getLsbD_or, BitVec.getLsbD_and, BitVec.getLsbD_and,
    BitVec.getLsbD_ushiftRight, BitVec.getLsbD_shiftLeft, BitVec.getLsbD_not,
    decide_eq_true inside]
  cases bit : mask.getLsbD i with
  | true => simp [Nat.add_comm]
  | false => simp [Nat.not_lt.mpr ((exchanges i inside).2 bit)]

/-- Several exchanges, the last one first. -/
def exchangeAll (steps : List (Nat × BitVec w)) (v : BitVec w) : BitVec w :=
  steps.foldr (fun step => exchange step.1 step.2) v

/-- Where a bit comes from under some exchanges. -/
def originAll (steps : List (Nat × BitVec w)) (i : Nat) : Nat :=
  steps.foldl (fun i step => origin step.1 step.2 i) i

/-- After some exchanges a bit comes from the origin under all of them. -/
theorem getLsbD_exchangeAll {steps : List (Nat × BitVec w)}
    (exchanges : ∀ step ∈ steps, Exchanges step.1 step.2) {i : Nat} (inside : i < w)
    (v : BitVec w) : (exchangeAll steps v).getLsbD i = v.getLsbD (originAll steps i) := by
  induction steps generalizing i with
  | nil => rfl
  | cons step steps ih =>
      have first := exchanges step List.mem_cons_self
      have rest : ∀ step ∈ steps, Exchanges step.1 step.2 := fun step member =>
        exchanges step (List.mem_cons_of_mem _ member)
      calc (exchange step.1 step.2 (exchangeAll steps v)).getLsbD i
          = (exchangeAll steps v).getLsbD (origin step.1 step.2 i) :=
            getLsbD_exchange first inside _
        _ = v.getLsbD (originAll steps (origin step.1 step.2 i)) := ih rest (first i inside).1

/-- Exchanges that mirror every position reverse the word. -/
theorem exchangeAll_eq_reverse {steps : List (Nat × BitVec w)}
    (exchanges : ∀ step ∈ steps, Exchanges step.1 step.2)
    (mirror : ∀ i < w, originAll steps i = w - 1 - i) (v : BitVec w) :
    exchangeAll steps v = v.reverse := by
  apply BitVec.eq_of_getLsbD_eq
  intro i inside
  rw [getLsbD_exchangeAll exchanges inside, mirror i inside, BitVec.getLsbD_reverse,
    BitVec.getMsbD_eq_getLsbD, decide_eq_true inside, Bool.true_and]

/-! ## The reversed order -/

/-- The place of a word in the reversed order. -/
def rank (v : BitVec w) : Nat := v.reverse.toNat

/-- A rank is a number of `w` bits. -/
theorem rank_lt (v : BitVec w) : rank v < 2 ^ w := v.reverse.isLt

/-- Reversing twice changes nothing. -/
theorem reverse_reverse (v : BitVec w) : v.reverse.reverse = v := by
  apply BitVec.eq_of_getLsbD_eq
  intro i inside
  rw [BitVec.getLsbD_reverse, BitVec.getMsbD_reverse]

/-- The rank of the reversed word is the word itself. -/
theorem rank_reverse (v : BitVec w) : rank v.reverse = v.toNat := by
  rw [rank, reverse_reverse]

/-- The bits of the rank are those of the word from the other end. -/
theorem testBit_rank (v : BitVec w) (i : Nat) :
    (rank v).testBit i = (decide (i < w) && v.getLsbD (w - 1 - i)) := by
  rw [rank, BitVec.testBit_toNat, BitVec.getLsbD_reverse, BitVec.getMsbD_eq_getLsbD]

/-- Zero comes first. -/
theorem rank_zero : rank (0 : BitVec w) = 0 := by
  apply Nat.eq_of_testBit_eq
  intro i
  simp [testBit_rank]

/-- Words with the same place at a granularity agree in their low bits. -/
theorem mod_eq_of_rank {k : Nat} (inside : k ≤ w) {u v : BitVec w}
    (same : rank u / 2 ^ (w - k) = rank v / 2 ^ (w - k)) : u.toNat % 2 ^ k = v.toNat % 2 ^ k := by
  apply Nat.eq_of_testBit_eq
  intro i
  rw [Nat.testBit_mod_two_pow, Nat.testBit_mod_two_pow]
  by_cases low : i < k
  · have bit := congrArg (Nat.testBit · (k - 1 - i)) same
    simp only [Nat.testBit_div_two_pow, testBit_rank] at bit
    have position : w - 1 - (k - 1 - i + (w - k)) = i := by omega
    have bound : k - 1 - i + (w - k) < w := by omega
    rw [position, decide_eq_true bound, Bool.true_and, Bool.true_and] at bit
    rw [BitVec.testBit_toNat, BitVec.testBit_toNat, bit]
  · rw [decide_eq_false low, Bool.false_and, Bool.false_and]

/-! ## The counter -/

/-- The mask of the low bits. -/
def lowMask (w k : Nat) : BitVec w := .ofNat w (2 ^ k - 1)

/-- The low mask has its bits below `k`. -/
theorem getLsbD_lowMask (k i : Nat) :
    (lowMask w k).getLsbD i = (decide (i < w) && decide (i < k)) := by
  rw [lowMask, BitVec.getLsbD_ofNat, Nat.testBit_two_pow_sub_one]

/-- All bits below a place are set. -/
theorem or_two_pow_sub_one (n k : Nat) : n ||| (2 ^ k - 1) = 2 ^ k * (n / 2 ^ k) + (2 ^ k - 1) := by
  have small : 2 ^ k - 1 < 2 ^ k := Nat.sub_lt (Nat.two_pow_pos k) Nat.one_pos
  rw [Nat.two_pow_add_eq_or_of_lt small]
  apply Nat.eq_of_testBit_eq
  intro i
  rw [Nat.testBit_or, Nat.testBit_or, Nat.testBit_two_pow_sub_one, Nat.testBit_two_pow_mul,
    Nat.testBit_div_two_pow]
  by_cases low : i < k
  · simp [low]
  · have high : k ≤ i := Nat.not_lt.mp low
    simp [low, high]

/-- Count up in the reversed order, at the granularity of the low `k` bits. -/
def nextReverse (k : Nat) (v : BitVec w) : BitVec w := ((v ||| ~~~lowMask w k).reverse + 1).reverse

/-- The counter goes on behind the words that agree with it. -/
theorem rank_nextReverse {k : Nat} (inside : k ≤ w) (v : BitVec w) :
    rank (nextReverse k v) = 2 ^ (w - k) * (rank v / 2 ^ (w - k) + 1) % 2 ^ w := by
  have filled : rank (v ||| ~~~lowMask w k) = rank v ||| (2 ^ (w - k) - 1) := by
    apply Nat.eq_of_testBit_eq
    intro i
    rw [testBit_rank, Nat.testBit_or, testBit_rank, Nat.testBit_two_pow_sub_one,
      BitVec.getLsbD_or, BitVec.getLsbD_not, getLsbD_lowMask]
    by_cases low : i < w
    · by_cases position : w - 1 - i < k
      · simp [low, position, show ¬ i < w - k by omega]
      · simp [low, position, show i < w - k by omega, show w - 1 - i < w by omega]
    · simp [low, show ¬ i < w - k by omega]
  have positive := Nat.two_pow_pos (w - k)
  have one : (1 : BitVec w) = .ofNat w 1 := rfl
  rw [nextReverse, rank_reverse, BitVec.toNat_add, ← rank, filled, or_two_pow_sub_one, one,
    BitVec.toNat_ofNat, Nat.add_mod_mod, Nat.mul_add, Nat.mul_one]
  congr 1
  omega

/-- The counter has no bits above the low ones. -/
theorem nextReverse_lt {k : Nat} (inside : k ≤ w) (v : BitVec w) :
    (nextReverse k v).toNat < 2 ^ k := by
  apply Nat.lt_pow_two_of_testBit
  intro i high
  by_cases bound : i < w
  · have bit := testBit_rank (nextReverse k v) (w - 1 - i)
    rw [rank_nextReverse inside, Nat.testBit_mod_two_pow, Nat.testBit_two_pow_mul] at bit
    have position : w - 1 - (w - 1 - i) = i := by omega
    have low : ¬ w - k ≤ w - 1 - i := by omega
    have back : w - 1 - i < w := by omega
    rw [position, decide_eq_false low, decide_eq_true back] at bit
    rw [BitVec.testBit_toNat]
    simpa using bit.symm
  · rw [BitVec.testBit_toNat]
    exact BitVec.getLsbD_of_ge _ i (Nat.not_lt.mp bound)

/-- Only the low bits of a counter matter. -/
theorem nextReverse_congr {k : Nat} {u v : BitVec w} (same : u.toNat % 2 ^ k = v.toNat % 2 ^ k) :
    nextReverse k u = nextReverse k v := by
  have filled : u ||| ~~~lowMask w k = v ||| ~~~lowMask w k := by
    apply BitVec.eq_of_getLsbD_eq
    intro i inside
    rw [BitVec.getLsbD_or, BitVec.getLsbD_or, BitVec.getLsbD_not, getLsbD_lowMask]
    by_cases low : i < k
    · have bit := congrArg (Nat.testBit · i) same
      simp only [Nat.testBit_mod_two_pow, low, decide_true, Bool.true_and,
        BitVec.testBit_toNat] at bit
      rw [bit]
    · simp [inside, low]
  rw [nextReverse, nextReverse, filled]

/-- **No word is passed over.** A word that is not behind the counter, and does not agree with it,
is not behind the next one; and that is not the first one again. -/
theorem rank_nextReverse_le {k : Nat} (inside : k ≤ w) {u v : BitVec w} (ahead : rank v ≤ rank u)
    (other : u.toNat % 2 ^ k ≠ v.toNat % 2 ^ k) :
    rank (nextReverse k v) ≤ rank u ∧ nextReverse k v ≠ 0 := by
  have positive := Nat.two_pow_pos (w - k)
  have places : rank v / 2 ^ (w - k) ≤ rank u / 2 ^ (w - k) := Nat.div_le_div_right ahead
  have different : rank u / 2 ^ (w - k) ≠ rank v / 2 ^ (w - k) := fun same =>
    other (mod_eq_of_rank inside same)
  have behind : 2 ^ (w - k) * (rank v / 2 ^ (w - k) + 1) ≤ rank u :=
    calc 2 ^ (w - k) * (rank v / 2 ^ (w - k) + 1)
        ≤ 2 ^ (w - k) * (rank u / 2 ^ (w - k)) := Nat.mul_le_mul_left _ (by omega)
      _ ≤ rank u := Nat.mul_div_le _ _
  have next : rank (nextReverse k v) = 2 ^ (w - k) * (rank v / 2 ^ (w - k) + 1) := by
    rw [rank_nextReverse inside, Nat.mod_eq_of_lt (Nat.lt_of_le_of_lt behind (rank_lt u))]
  refine ⟨next ▸ behind, fun zero => ?_⟩
  rw [zero, rank_zero] at next
  exact absurd next.symm (Nat.mul_pos positive (Nat.succ_pos _)).ne'

/-- Only zero comes first. -/
theorem eq_zero_of_rank {v : BitVec w} (zero : rank v = 0) : v = 0 := by
  have first : v.reverse = 0 := BitVec.eq_of_toNat_eq (zero.trans BitVec.toNat_zero.symm)
  rw [← reverse_reverse v, first]
  exact BitVec.eq_of_toNat_eq (rank_zero.trans BitVec.toNat_zero.symm)

/-- The counter comes back to 0, or goes on by at least one place of any finer granularity. -/
theorem nextReverse_advances {k l : Nat} (order : k ≤ l) (inside : l ≤ w) (v : BitVec w) :
    nextReverse k v = 0 ∨ rank v / 2 ^ (w - l) + 1 ≤ rank (nextReverse k v) / 2 ^ (w - l) := by
  have split : 2 ^ (w - k) = 2 ^ (w - l) * 2 ^ (l - k) := by
    rw [← Nat.pow_add]
    congr 1
    omega
  have whole : 2 ^ w = 2 ^ (w - k) * 2 ^ k := by
    rw [← Nat.pow_add]
    congr 1
    omega
  have places : rank v / 2 ^ (w - k) < 2 ^ k := Nat.div_lt_of_lt_mul (whole ▸ rank_lt v)
  have bound : 2 ^ (w - k) * (rank v / 2 ^ (w - k) + 1) ≤ 2 ^ w := by
    rw [whole]
    exact Nat.mul_le_mul_left _ places
  have next := rank_nextReverse (order.trans inside) v
  rcases Nat.eq_or_lt_of_le bound with wrapped | below
  · rw [wrapped, Nat.mod_self] at next
    exact .inl (eq_zero_of_rank next)
  · right
    rw [Nat.mod_eq_of_lt below] at next
    have beyond : rank v < 2 ^ (w - l) * (2 ^ (l - k) * (rank v / 2 ^ (w - k) + 1)) := by
      rw [← Nat.mul_assoc, ← split]
      exact Nat.lt_mul_div_succ _ (Nat.two_pow_pos _)
    rw [next, split, Nat.mul_assoc, Nat.mul_div_cancel_left _ (Nat.two_pow_pos _), ← split]
    exact Nat.div_lt_of_lt_mul beyond

/-! ## Counting above the low bits -/

/-- The bits below `k` are a remainder. -/
theorem toNat_and_lowMask {k : Nat} (inside : k ≤ w) (v : BitVec w) :
    (v &&& lowMask w k).toNat = v.toNat % 2 ^ k := by
  have bound : 2 ^ k - 1 < 2 ^ w :=
    Nat.lt_of_lt_of_le (Nat.sub_lt (Nat.two_pow_pos k) Nat.one_pos)
      (Nat.pow_le_pow_right (by decide) inside)
  rw [lowMask, BitVec.toNat_and, BitVec.toNat_ofNat, Nat.mod_eq_of_lt bound,
    Nat.and_two_pow_sub_one_eq_mod]

/-- The bits from `k` on are a quotient. -/
theorem toNat_and_not_lowMask (k : Nat) (v : BitVec w) :
    (v &&& ~~~lowMask w k).toNat = 2 ^ k * (v.toNat / 2 ^ k) := by
  apply Nat.eq_of_testBit_eq
  intro i
  rw [BitVec.testBit_toNat, BitVec.getLsbD_and, BitVec.getLsbD_not, getLsbD_lowMask,
    Nat.testBit_two_pow_mul, Nat.testBit_div_two_pow, BitVec.testBit_toNat]
  by_cases inside : i < w
  · by_cases low : i < k
    · simp [inside, low, Nat.not_le.mpr low]
    · simp [inside, low, Nat.not_lt.mp low]
  · rw [BitVec.getLsbD_of_ge v i (Nat.not_lt.mp inside)]
    by_cases low : i < k
    · simp [Nat.not_le.mpr low]
    · have high := Nat.not_lt.mp low
      rw [Nat.sub_add_cancel high, BitVec.getLsbD_of_ge v i (Nat.not_lt.mp inside)]
      simp

/-- The bits between two places. -/
theorem toNat_and_xor_lowMask {k l : Nat} (order : k ≤ l) (inside : l ≤ w) (v : BitVec w) :
    (v &&& (lowMask w k ^^^ lowMask w l)).toNat = 2 ^ k * (v.toNat % 2 ^ l / 2 ^ k) := by
  apply Nat.eq_of_testBit_eq
  intro i
  rw [BitVec.testBit_toNat, BitVec.getLsbD_and, BitVec.getLsbD_xor, getLsbD_lowMask,
    getLsbD_lowMask, Nat.testBit_two_pow_mul, Nat.testBit_div_two_pow, Nat.testBit_mod_two_pow,
    BitVec.testBit_toNat]
  by_cases low : i < k
  · simp [low, Nat.not_le.mpr low, show i < l by omega]
  · have high := Nat.not_lt.mp low
    by_cases upper : i < l
    · simp [low, high, upper, show i < w by omega]
    · simp [low, high, upper]

/-- Count up the bits above the low ones. -/
def nextAbove (k : Nat) (v : BitVec w) : BitVec w :=
  (((v ||| lowMask w k) + 1) &&& ~~~lowMask w k) ||| (v &&& lowMask w k)

/-- Counting above `k` counts the quotient on and keeps the remainder. -/
theorem toNat_nextAbove {k : Nat} (inside : k ≤ w) (v : BitVec w) :
    (nextAbove k v).toNat = 2 ^ k * ((v.toNat / 2 ^ k + 1) % 2 ^ (w - k)) + v.toNat % 2 ^ k := by
  have bound : 2 ^ k - 1 < 2 ^ w :=
    Nat.lt_of_lt_of_le (Nat.sub_lt (Nat.two_pow_pos k) Nat.one_pos)
      (Nat.pow_le_pow_right (by decide) inside)
  have positive := Nat.two_pow_pos k
  have whole : 2 ^ w = 2 ^ k * 2 ^ (w - k) := by rw [← Nat.pow_add, Nat.add_sub_cancel' inside]
  have up : ((v ||| lowMask w k) + 1).toNat = 2 ^ k * ((v.toNat / 2 ^ k + 1) % 2 ^ (w - k)) := by
    have one : (1 : BitVec w) = .ofNat w 1 := rfl
    rw [BitVec.toNat_add, BitVec.toNat_or, lowMask, BitVec.toNat_ofNat, Nat.mod_eq_of_lt bound,
      or_two_pow_sub_one, one, BitVec.toNat_ofNat, Nat.add_mod_mod,
      show 2 ^ k * (v.toNat / 2 ^ k) + (2 ^ k - 1) + 1 = 2 ^ k * (v.toNat / 2 ^ k + 1) by
        rw [Nat.mul_add, Nat.mul_one]; omega, whole, Nat.mul_mod_mul_left]
  rw [nextAbove, BitVec.toNat_or, toNat_and_not_lowMask, toNat_and_lowMask inside, up,
    Nat.mul_div_cancel_left _ positive,
    ← Nat.two_pow_add_eq_or_of_lt (Nat.mod_lt _ positive)]

end CPrograms.Library
