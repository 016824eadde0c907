import CPrograms.Library.Buffer
import CPrograms.Library.Decimal

/-!
# Numbers as text in redis

The conversions of `util.c` between 64-bit integers and their decimal text. `ll2string` writes the
digits from the end, two at a time, to where `digits10` says that the text ends; `string2ll` accepts
a text only if it is the one that `ll2string` writes.
-/

namespace CPrograms.Redis

open Library Library.Decimal

/-- `ULLONG_MAX`. -/
def ullongMax : Nat := 2 ^ 64 - 1

/-- `LLONG_MAX`. -/
def llongMax : Nat := 2 ^ 63 - 1

/-- The number of digits of a number. -/
def digits10 (v : Nat) : Nat :=
  if v < 10 then 1
  else if v < 100 then 2
  else if v < 1000 then 3
  else if v < 1000000000000 then
    if v < 100000000 then
      if v < 1000000 then
        if v < 10000 then 4 else 5 + (if 100000 ≤ v then 1 else 0)
      else 7 + (if 10000000 ≤ v then 1 else 0)
    else if v < 10000000000 then 9 + (if 1000000000 ≤ v then 1 else 0)
    else 11 + (if 100000000000 ≤ v then 1 else 0)
  else 12 + digits10 (v / 1000000000000)

/-- The table `digits` of `ll2string`: the numbers below 100, with two digits each. -/
def digits : List UInt8 :=
  (["0001020304050607080910111213141516171819", "2021222324252627282930313233343536373839",
    "4041424344454647484950515253545556575859", "6061626364656667686970717273747576777879",
    "8081828384858687888990919293949596979899"].flatMap String.toList).map fun c =>
      UInt8.ofNat c.toNat

/-- A character of the table. -/
def digitAt (i : Nat) : UInt8 := digits[i]?.getD 0

/-- The loop of `ll2string` and what handles the last digits. -/
def storeDigits (value next : Nat) (dst : Buffer UInt8) : Buffer UInt8 :=
  if 100 ≤ value then
    let i := value % 100 * 2
    storeDigits (value / 100) (next - 2)
      ((dst.store next (digitAt (i + 1))).store (next - 1) (digitAt i))
  else if value < 10 then dst.store next (UInt8.ofNat (48 + value))
  else
    let i := value * 2
    (dst.store next (digitAt (i + 1))).store (next - 1) (digitAt i)

/-- Convert a long long into a string; the length of the string, or 0 if it does not fit. -/
def ll2string (dst : Buffer UInt8) (dstlen : Nat) (svalue : Int) : Buffer UInt8 × Nat :=
  let value := if svalue < 0 then (if svalue ≠ -2 ^ 63 then (-svalue).toNat else llongMax + 1)
    else svalue.toNat
  let negative := if svalue < 0 then 1 else 0
  let length := digits10 value + negative
  if dstlen ≤ length then (dst, 0)
  else
    let dst := storeDigits value (length - 1) (dst.store length 0)
    (if svalue < 0 then dst.store 0 45 else dst, length)

/-- The loop of `string2ll` over the digits behind the first one, and the test that all bytes
were used. -/
def digitsLoop : Nat → List UInt8 → Option Nat
  | v, [] => some v
  | v, byte :: rest =>
      if 48 ≤ byte ∧ byte ≤ 57 then
        if ullongMax / 10 < v then none
        else if ullongMax - (byte.toNat - 48) < v * 10 then none
        else digitsLoop (v * 10 + (byte.toNat - 48)) rest
      else none

/-- Convert a string into a long long, if it strictly represents one. -/
def string2ll (s : List UInt8) : Option Int :=
  if s.length = 0 then none
  else if s.length = 1 ∧ s.head? = some 48 then some 0
  else
    let negative := s.head? = some 45
    match if negative then s.tail else s with
    | [] => none
    | first :: rest =>
        if 49 ≤ first ∧ first ≤ 57 then
          (digitsLoop (first.toNat - 48) rest).bind fun v =>
            if negative then (if llongMax + 1 < v then none else some (-v))
            else if llongMax < v then none
            else some v
        else if first = 48 ∧ s.length = 1 then some 0
        else none

/-! ## The text of a number -/

/-- The decimal text of an integer. -/
def decimalText (v : Int) : List UInt8 :=
  if v < 0 then 45 :: numeral v.natAbs else numeral v.natAbs

/-- The number of digits is the length of the numeral. -/
theorem digits10_eq (v : Nat) : digits10 v = (numeral v).length := by
  induction v using Nat.strong_induction_on with
  | _ v ih =>
      have counted : ∀ k, 0 < k → 10 ^ k ≤ v → v < 10 ^ (k + 1) → k + 1 = (numeral v).length :=
        fun k positive low high => (length_numeral_eq positive low high).symm
      rw [digits10]
      split
      · next below1 => rw [numeral_of_lt below1, List.length_singleton]
      · split
        · exact counted 1 (by decide) (by omega) (by omega)
        · split
          · exact counted 2 (by decide) (by omega) (by omega)
          · split
            · split
              · split
                · split
                  · exact counted 3 (by decide) (by omega) (by omega)
                  · split
                    · exact counted 5 (by decide) (by omega) (by omega)
                    · exact counted 4 (by decide) (by omega) (by omega)
                · split
                  · exact counted 7 (by decide) (by omega) (by omega)
                  · exact counted 6 (by decide) (by omega) (by omega)
              · split
                · split
                  · exact counted 9 (by decide) (by omega) (by omega)
                  · exact counted 8 (by decide) (by omega) (by omega)
                · split
                  · exact counted 11 (by decide) (by omega) (by omega)
                  · exact counted 10 (by decide) (by omega) (by omega)
            · rw [ih _ (by omega)]
              exact (length_numeral_div (k := 12) (by omega)).symm

/-- The elements of a list of pairs laid out one behind the other. -/
theorem getElem?_pairs {α β : Type*} (first second : α → β) (l : List α) (i : Nat) :
    (l.flatMap fun a => [first a, second a])[i * 2]? = l[i]?.map first ∧
      (l.flatMap fun a => [first a, second a])[i * 2 + 1]? = l[i]?.map second := by
  induction l generalizing i with
  | nil => exact ⟨rfl, rfl⟩
  | cons a l ih =>
      cases i with
      | zero => exact ⟨rfl, rfl⟩
      | succ i =>
          rw [Nat.succ_mul]
          exact ih i

/-- The table holds the two digits of every number below 100. -/
theorem digitAt_eq {n : Nat} (small : n < 100) :
    digitAt (n * 2) = UInt8.ofNat (48 + n / 10) ∧
      digitAt (n * 2 + 1) = UInt8.ofNat (48 + n % 10) := by
  have table : digits = (List.range 100).flatMap fun n =>
      [UInt8.ofNat (48 + n / 10), UInt8.ofNat (48 + n % 10)] := by decide +kernel
  obtain ⟨tens, ones⟩ := getElem?_pairs (fun n => UInt8.ofNat (48 + n / 10))
    (fun n => UInt8.ofNat (48 + n % 10)) (List.range 100) n
  rw [digitAt, digitAt, table, tens, ones, List.getElem?_range small]
  exact ⟨rfl, rfl⟩

/-- The last two digits of a number stand in the table. -/
theorem numeral_append_pair {n : Nat} (large : 100 ≤ n) :
    numeral n = numeral (n / 100) ++ [digitAt (n % 100 * 2), digitAt (n % 100 * 2 + 1)] := by
  obtain ⟨tens, ones⟩ := digitAt_eq (Nat.mod_lt n (show 0 < 100 by decide))
  rw [numeral_append (by omega), numeral_append (by omega), tens, ones, Nat.div_div_eq_div_mul,
    List.append_assoc, show n % 100 / 10 = n / 10 % 10 by omega,
    show n % 100 % 10 = n % 10 by omega]
  rfl

/-- The digits of a number below 100 stand in the table. -/
theorem numeral_pair {n : Nat} (large : 10 ≤ n) (small : n < 100) :
    numeral n = [digitAt (n * 2), digitAt (n * 2 + 1)] := by
  obtain ⟨tens, ones⟩ := digitAt_eq small
  rw [numeral_append large, numeral_of_lt (by omega), tens, ones]
  rfl

/-- Two digits are stored up to an index, the second one first. -/
theorem fills_pair (dst : Buffer UInt8) {next : Nat} (room : 1 ≤ next) (tens ones : UInt8) :
    Buffer.Fills (next - 1) [tens, ones] dst ((dst.store next ones).store (next - 1) tens) :=
  (dst.fills_store next ones).prepend (Buffer.fills_store _ _ tens) (Nat.sub_add_cancel room)

/-- The digits end at the index they are stored from. -/
theorem fills_storeDigits {value next start : Nat} (dst : Buffer UInt8)
    (room : start + (numeral value).length = next + 1) :
    Buffer.Fills start (numeral value) dst (storeDigits value next dst) := by
  induction value using Nat.strong_induction_on generalizing next dst with
  | _ value ih =>
      rw [storeDigits]
      split_ifs with large small
      · have positive := List.length_pos_iff.mpr (numeral_ne_nil (value / 100))
        rw [numeral_append_pair large] at room ⊢
        rw [List.length_append, List.length_cons, List.length_singleton] at room
        exact (fills_pair dst (by omega) _ _).prepend (ih (value / 100) (by omega) _ (by omega))
          (by omega)
      · rw [numeral_of_lt small] at room ⊢
        cases Nat.succ.inj room
        exact dst.fills_store _ _
      · rw [numeral_pair (by omega) (by omega)] at room ⊢
        change start + 2 = next + 1 at room
        have room' : 1 ≤ next := by omega
        have filled := fills_pair dst room' (digitAt (value * 2)) (digitAt (value * 2 + 1))
        rwa [show next - 1 = start by omega] at filled ⊢

/-- **`ll2string` writes the decimal text** and its NUL, if they fit, and nothing else. -/
theorem ll2string_spec (dst : Buffer UInt8) (dstlen : Nat) {v : Int} (low : -2 ^ 63 ≤ v) :
    if (decimalText v).length < dstlen then
      (ll2string dst dstlen v).2 = (decimalText v).length ∧
        Buffer.Fills 0 (decimalText v ++ [0]) dst (ll2string dst dstlen v).1
    else ll2string dst dstlen v = (dst, 0) := by
  have value : (if v < 0 then (if v ≠ -2 ^ 63 then (-v).toNat else llongMax + 1) else v.toNat) =
      v.natAbs := by
    rw [llongMax]
    split_ifs <;> omega
  have length : digits10 v.natAbs + (if v < 0 then 1 else 0) = (decimalText v).length := by
    rw [decimalText, digits10_eq]
    split_ifs <;> simp
  simp only [ll2string, value, length]
  have nul := dst.fills_store (decimalText v).length 0
  have positive := List.length_pos_iff.mpr (numeral_ne_nil v.natAbs)
  by_cases fits : (decimalText v).length < dstlen
  · rw [if_pos fits, if_neg (Nat.not_le.mpr fits)]
    refine ⟨rfl, nul.prepend ?_ (Nat.zero_add _)⟩
    by_cases negative : v < 0
    · have text : decimalText v = [45] ++ numeral v.natAbs := by
        rw [decimalText, if_pos negative]
        rfl
      rw [if_pos negative, text]
      have room : 1 + (numeral v.natAbs).length =
          ([45] ++ numeral v.natAbs).length - 1 + 1 := by
        rw [List.length_append, List.length_singleton]
        omega
      exact (fills_storeDigits _ room).prepend (Buffer.fills_store _ 0 45) rfl
    · have text : decimalText v = numeral v.natAbs := by rw [decimalText, if_neg negative]
      rw [if_neg negative, text]
      exact fills_storeDigits _ (by omega)
  · rw [if_neg fits, if_pos (Nat.not_lt.mp fits)]

/-! ## Reading it back -/

/-- The value of the first digit and of the others. -/
theorem value_cons (byte : UInt8) (rest : List UInt8) :
    value (byte :: rest) = (byte.toNat - 48) * 10 ^ rest.length + value rest := by
  have shifted := value_append [byte] rest
  rwa [List.singleton_append, show value [byte] = byte.toNat - 48 by simp [value]] at shifted

/-- The loop accepts digits, as long as the number fits 64 bits. -/
theorem digitsLoop_eq_some_iff {v : Nat} (small : v ≤ ullongMax) {s : List UInt8} {u : Nat} :
    digitsLoop v s = some u ↔
      (∀ byte ∈ s, isDigit byte = true) ∧ u = v * 10 ^ s.length + value s ∧ u ≤ ullongMax := by
  induction s generalizing v with
  | nil =>
      rw [digitsLoop, Option.some.injEq]
      simp only [List.not_mem_nil, false_imp_iff, implies_true, List.length_nil, Nat.pow_zero,
        Nat.mul_one, true_and, show value [] = 0 from rfl, Nat.add_zero]
      exact ⟨fun same => ⟨same.symm, same ▸ small⟩, fun same => same.1.symm⟩
  | cons byte s ih =>
      have digit : isDigit byte = true ↔ 48 ≤ byte ∧ byte ≤ 57 := by
        rw [isDigit, Bool.and_eq_true, decide_eq_true_eq, decide_eq_true_eq]
      have total : v * 10 ^ (byte :: s).length + value (byte :: s) =
          (v * 10 + (byte.toNat - 48)) * 10 ^ s.length + value s := by
        rw [value_cons, List.length_cons, Nat.pow_succ']
        ring
      rw [digitsLoop, total, List.forall_mem_cons, digit]
      by_cases isDigit : 48 ≤ byte ∧ byte ≤ 57
      · have high : byte.toNat ≤ 57 := UInt8.le_iff_toNat_le.mp isDigit.2
        rw [if_pos isDigit]
        by_cases fits : v * 10 + (byte.toNat - 48) ≤ ullongMax
        · have first : ¬ ullongMax / 10 < v := by omega
          have second : ¬ ullongMax - (byte.toNat - 48) < v * 10 := by omega
          rw [if_neg first, if_neg second, ih fits]
          simp only [isDigit, and_self, true_and]
        · have grows : v * 10 + (byte.toNat - 48) ≤
              (v * 10 + (byte.toNat - 48)) * 10 ^ s.length :=
            Nat.le_mul_of_pos_right _ (Nat.pow_pos (by decide))
          have large : 9 ≤ ullongMax := by decide
          constructor
          · intro accepted
            split_ifs at accepted
            omega
          · rintro ⟨-, equal, bound⟩
            omega
      · rw [if_neg isDigit]
        refine ⟨fun accepted => ?_, fun accepted => absurd accepted.1.1 isDigit⟩
        cases accepted

/-- The digits behind an optional sign. -/
theorem digitsLoop_numeral {first : UInt8} (low : 49 ≤ first) (high : first ≤ 57)
    {rest : List UInt8} {u : Nat} :
    digitsLoop (first.toNat - 48) rest = some u ↔ first :: rest = numeral u ∧ u ≤ ullongMax := by
  have bound : first.toNat ≤ 57 := UInt8.le_iff_toNat_le.mp high
  have small : first.toNat - 48 ≤ ullongMax := by
    rw [ullongMax]
    omega
  rw [digitsLoop_eq_some_iff small, ← value_cons]
  constructor
  · rintro ⟨digits, rfl, fits⟩
    exact ⟨(numeral_value low high digits).symm, fits⟩
  · rintro ⟨text, fits⟩
    refine ⟨fun byte member => ?_, by rw [text, value_numeral], fits⟩
    exact isDigit_of_mem_numeral (text ▸ List.mem_cons_of_mem first member)

/-- A text with a minus sign. -/
theorem string2ll_minus (first : UInt8) (rest : List UInt8) :
    string2ll (45 :: first :: rest) =
      if 49 ≤ first ∧ first ≤ 57 then
        (digitsLoop (first.toNat - 48) rest).bind fun v =>
          if llongMax + 1 < v then none else some (-(v : Int))
      else none := by
  simp [string2ll]

/-- A text without sign. -/
theorem string2ll_plain {first : UInt8} (plain : first ≠ 45) (rest : List UInt8) :
    string2ll (first :: rest) =
      if first = 48 ∧ rest = [] then some 0
      else if 49 ≤ first ∧ first ≤ 57 then
        (digitsLoop (first.toNat - 48) rest).bind fun v => if llongMax < v then none else some ↑v
      else none := by
  cases rest with
  | nil => by_cases zero : first = 48 <;> simp [string2ll, plain, zero]
  | cons second rest => simp [string2ll, plain]

/-- The text of a negative number. -/
theorem decimalText_neg {n : Nat} (positive : 0 < n) : decimalText (-n) = 45 :: numeral n := by
  rw [decimalText, if_pos (by omega), Int.natAbs_neg, Int.natAbs_natCast]

/-- The text of a number that is not negative. -/
theorem decimalText_natCast (n : Nat) : decimalText n = numeral n := by
  rw [decimalText, if_neg (by omega), Int.natAbs_natCast]

/-- The text of a 64-bit integer is read back. -/
theorem string2ll_decimalText {v : Int} (low : -2 ^ 63 ≤ v) (high : v < 2 ^ 63) :
    string2ll (decimalText v) = some v := by
  have read : ∀ n : Nat, 0 < n → n ≤ ullongMax → ∃ first rest, numeral n = first :: rest ∧
      (49 ≤ first ∧ first ≤ 57) ∧ digitsLoop (first.toNat - 48) rest = some n := by
    intro n positive fits
    obtain ⟨first, rest, text, low, high⟩ := head_numeral positive
    exact ⟨first, rest, text, ⟨low, high⟩, (digitsLoop_numeral low high).mpr ⟨text.symm, fits⟩⟩
  rcases Int.lt_trichotomy v 0 with negative | rfl | positive
  · obtain ⟨n, rfl⟩ : ∃ n : Nat, v = -n := ⟨v.natAbs, by omega⟩
    obtain ⟨first, rest, text, digit, loop⟩ := read n (by omega) (by rw [ullongMax]; omega)
    rw [decimalText_neg (by omega), text, string2ll_minus, if_pos digit, loop, Option.bind_some,
      if_neg (by rw [llongMax]; omega)]
  · rfl
  · obtain ⟨n, rfl⟩ : ∃ n : Nat, v = n := ⟨v.natAbs, by omega⟩
    obtain ⟨first, rest, text, digit, loop⟩ := read n (by omega) (by rw [ullongMax]; omega)
    have plain : first ≠ 45 := by
      rintro rfl
      exact absurd digit.1 (by decide)
    have notZero : ¬ (first = 48 ∧ rest = []) := by
      rintro ⟨rfl, -⟩
      exact absurd digit.1 (by decide)
    rw [decimalText_natCast, text, string2ll_plain plain, if_neg notZero, if_pos digit, loop,
      Option.bind_some, if_neg (by rw [llongMax]; omega)]

/-- A text that is read is the text of a 64-bit integer. -/
theorem decimalText_of_string2ll {s : List UInt8} {v : Int} (read : string2ll s = some v) :
    s = decimalText v ∧ -2 ^ 63 ≤ v ∧ v < 2 ^ 63 := by
  cases s with
  | nil => cases read
  | cons first rest =>
      by_cases minus : first = 45
      · subst minus
        cases rest with
        | nil => cases read
        | cons first rest =>
            rw [string2ll_minus] at read
            split_ifs at read with digit
            obtain ⟨n, loop, bound⟩ := Option.bind_eq_some_iff.mp read
            split_ifs at bound with large
            cases bound
            obtain ⟨text, -⟩ := (digitsLoop_numeral digit.1 digit.2).mp loop
            have positive := value_pos digit.1 rest
            rw [text, value_numeral] at positive
            rw [text, decimalText_neg positive]
            rw [llongMax] at large
            exact ⟨rfl, by omega, by omega⟩
      · rw [string2ll_plain minus] at read
        split_ifs at read with zero digit
        · cases read
          obtain ⟨rfl, rfl⟩ := zero
          exact ⟨rfl, by decide, by decide⟩
        · obtain ⟨n, loop, bound⟩ := Option.bind_eq_some_iff.mp read
          split_ifs at bound with large
          cases bound
          obtain ⟨text, -⟩ := (digitsLoop_numeral digit.1 digit.2).mp loop
          rw [text, decimalText_natCast]
          rw [llongMax] at large
          exact ⟨rfl, by omega, by omega⟩

/-- **Numbers and their texts.** `string2ll` accepts exactly the decimal texts of the 64-bit
integers, and reads each as its integer. `ll2string` writes the decimal text and its NUL whenever
they fit the buffer, and then nothing else; when they do not fit it writes nothing and tells so. -/
theorem ll2string_string2ll :
    (∀ (text : List UInt8) (v : Int),
      string2ll text = some v ↔ text = decimalText v ∧ -2 ^ 63 ≤ v ∧ v < 2 ^ 63) ∧
    ∀ (dst : Buffer UInt8) (dstlen : Nat) (v : Int), -2 ^ 63 ≤ v → v < 2 ^ 63 →
      if (decimalText v).length < dstlen then
        ∃ dst', ll2string dst dstlen v = (dst', (decimalText v).length) ∧
          Buffer.Fills 0 (decimalText v ++ [0]) dst dst'
      else ll2string dst dstlen v = (dst, 0) := by
  constructor
  · intro text v
    constructor
    · exact decimalText_of_string2ll
    · rintro ⟨rfl, low, high⟩
      exact string2ll_decimalText low high
  · intro dst dstlen v low high
    have spec := ll2string_spec dst dstlen low
    split_ifs at spec ⊢ with fits
    · exact ⟨_, Prod.ext rfl spec.1, spec.2⟩
    · exact spec

/-- The number -12 and its text: it fits a buffer of four bytes, and no buffer of three. -/
theorem ll2string_string2ll_sample :
    string2ll [45, 49, 50] = some (-12) ∧
      (∃ dst', ll2string (Buffer.fresh fun _ => 0) 4 (-12) = (dst', 3) ∧
        Buffer.Fills 0 [45, 49, 50, 0] (Buffer.fresh fun _ => 0) dst') ∧
      ll2string (Buffer.fresh fun _ => 0) 3 (-12) = (Buffer.fresh fun _ => 0, 0) := by
  have text : decimalText (-12) = [45, 49, 50] := by decide +kernel
  refine ⟨(ll2string_string2ll.1 _ _).mpr ⟨text.symm, by decide, by decide⟩, ?_, ?_⟩
  · have writes := ll2string_string2ll.2 (Buffer.fresh fun _ => 0) 4 (-12) (by decide) (by decide)
    rwa [text] at writes
  · have refuses := ll2string_string2ll.2 (Buffer.fresh fun _ => 0) 3 (-12) (by decide) (by decide)
    rwa [text] at refuses

end CPrograms.Redis
