import Mathlib.Data.Nat.Digits.Lemmas

/-!
# Decimal numerals in ASCII

Numerals as byte strings, most significant digit first. Reading a numeral back
recovers the number, and a proper prefix of the numeral of a positive number
denotes a smaller number.
-/

namespace CPrograms.Library.Decimal

/-- The bytes `'0'` to `'9'`. -/
def isDigit (byte : UInt8) : Bool :=
  48 ≤ byte && byte ≤ 57

/-- The number denoted by a string of digits. -/
def value (digits : List UInt8) : Nat :=
  digits.foldl (fun total byte => total * 10 + (byte.toNat - 48)) 0

/-- The decimal numeral of a number, without leading zeros. -/
def numeral (n : Nat) : List UInt8 :=
  if n = 0 then [48] else (Nat.digits 10 n).reverse.map fun digit => UInt8.ofNat (48 + digit)

private theorem foldl_value (digits : List UInt8) (start : Nat) :
    digits.foldl (fun total byte => total * 10 + (byte.toNat - 48)) start =
      start * 10 ^ digits.length + value digits := by
  unfold value
  induction digits generalizing start with
  | nil => simp
  | cons byte rest ih =>
      simp only [List.foldl_cons, List.length_cons]
      rw [ih, ih (0 * 10 + (byte.toNat - 48))]
      ring

/-- Appending digits shifts the number before them. -/
theorem value_append (front back : List UInt8) :
    value (front ++ back) = value front * 10 ^ back.length + value back := by
  rw [value, List.foldl_append, foldl_value]
  rfl

private theorem toNat_digit {digit : Nat} (small : digit < 10) :
    (UInt8.ofNat (48 + digit)).toNat = 48 + digit :=
  UInt8.toNat_ofNat_of_lt (by simp only [UInt8.size]; omega)

private theorem value_reverse_map (digits : List Nat) (small : ∀ digit ∈ digits, digit < 10) :
    value (digits.reverse.map fun digit => UInt8.ofNat (48 + digit)) = Nat.ofDigits 10 digits := by
  induction digits with
  | nil => rfl
  | cons digit rest ih =>
      have head := small digit List.mem_cons_self
      rw [List.reverse_cons, List.map_append, value_append,
        ih fun other member => small other (List.mem_cons_of_mem _ member), Nat.ofDigits_cons]
      simp only [value, List.map_cons, List.map_nil, List.foldl_cons, List.foldl_nil,
        List.length_singleton, toNat_digit head]
      push_cast
      omega

/-- Reading a numeral back gives the number it was printed from. -/
@[simp] theorem value_numeral (n : Nat) : value (numeral n) = n := by
  unfold numeral
  split
  · next zero => simp [value, zero]
  · rw [value_reverse_map _ fun digit member => Nat.digits_lt_base (by decide) member,
      Nat.ofDigits_digits]

/-- A numeral consists of digits. -/
theorem isDigit_of_mem_numeral {n : Nat} {byte : UInt8} (member : byte ∈ numeral n) :
    isDigit byte = true := by
  unfold numeral at member
  split at member
  · rw [List.mem_singleton.mp member]
    decide
  · obtain ⟨digit, inside, rfl⟩ := List.mem_map.mp member
    have small : digit < 10 := Nat.digits_lt_base (by decide) (List.mem_reverse.mp inside)
    simp only [isDigit, Bool.and_eq_true, decide_eq_true_eq, UInt8.le_iff_toNat_le,
      toNat_digit small]
    constructor
    · exact Nat.le_add_right 48 digit
    · change 48 + digit ≤ 57
      omega

/-- Cutting digits off the numeral of a positive number makes it smaller. -/
theorem value_take_lt {digits : List UInt8} (count : Nat) (positive : 0 < value digits)
    (shorter : count < digits.length) : value (digits.take count) < value digits := by
  have split := value_append (digits.take count) (digits.drop count)
  rw [List.take_append_drop] at split
  have shift : 10 ≤ 10 ^ (digits.drop count).length :=
    Nat.le_self_pow (by rw [List.length_drop]; omega) 10
  rcases Nat.eq_zero_or_pos (value (digits.take count)) with zero | some
  · rw [zero]
    exact positive
  · calc value (digits.take count)
        < value (digits.take count) * 10 := by omega
      _ ≤ value (digits.take count) * 10 ^ (digits.drop count).length :=
          Nat.mul_le_mul_left _ shift
      _ ≤ value digits := by omega

/-! ## Digit by digit -/

/-- A number below ten has one digit. -/
theorem numeral_of_lt {n : Nat} (small : n < 10) : numeral n = [UInt8.ofNat (48 + n)] := by
  rw [numeral]
  split
  · next zero => rw [zero]; rfl
  · next some => rw [Nat.digits_of_lt 10 n some small]; rfl

/-- The last digit of a larger number stands behind the numeral of its tenth part. -/
theorem numeral_append {n : Nat} (large : 10 ≤ n) :
    numeral n = numeral (n / 10) ++ [UInt8.ofNat (48 + n % 10)] := by
  have positive : n ≠ 0 := by omega
  have more : n / 10 ≠ 0 := by omega
  rw [numeral, numeral, if_neg positive, if_neg more,
    Nat.digits_def' (by decide) (Nat.pos_of_ne_zero positive), List.reverse_cons, List.map_append]
  rfl

/-- No numeral is empty. -/
theorem numeral_ne_nil (n : Nat) : numeral n ≠ [] := by
  rcases Nat.lt_or_ge n 10 with small | large
  · rw [numeral_of_lt small]
    exact List.cons_ne_nil _ _
  · rw [numeral_append large]
    exact List.append_ne_nil_of_right_ne_nil _ (List.cons_ne_nil _ _)

/-- A numeral has as many digits as the number needs. -/
theorem length_numeral_le_iff {n k : Nat} (positive : 0 < k) :
    (numeral n).length ≤ k ↔ n < 10 ^ k := by
  induction n using Nat.strong_induction_on generalizing k with
  | _ n ih =>
      obtain ⟨k, rfl⟩ := Nat.exists_eq_succ_of_ne_zero positive.ne'
      rcases Nat.lt_or_ge n 10 with small | large
      · rw [numeral_of_lt small, List.length_singleton]
        have enough : 10 ^ 1 ≤ 10 ^ (k + 1) := Nat.pow_le_pow_right (by decide) (by omega)
        exact ⟨fun _ => by omega, fun _ => by omega⟩
      · rw [numeral_append large, List.length_append, List.length_singleton,
          Nat.succ_le_succ_iff]
        cases k with
        | zero =>
            have some := List.length_pos_iff.mpr (numeral_ne_nil (n / 10))
            change _ ↔ n < 10
            omega
        | succ k =>
            rw [ih (n / 10) (by omega) (Nat.succ_pos k), Nat.div_lt_iff_lt_mul (by decide),
              ← Nat.pow_succ]

/-- A number between two powers of ten has as many digits as the larger one has zeros. -/
theorem length_numeral_eq {n k : Nat} (positive : 0 < k) (low : 10 ^ k ≤ n)
    (high : n < 10 ^ (k + 1)) : (numeral n).length = k + 1 := by
  have most := (length_numeral_le_iff (Nat.succ_pos k)).mpr high
  have least := mt (length_numeral_le_iff positive).mp (Nat.not_lt.mpr low)
  omega

/-- Dividing by a power of ten takes away that many digits. -/
theorem length_numeral_div {n k : Nat} (large : 10 ^ k ≤ n) :
    (numeral n).length = k + (numeral (n / 10 ^ k)).length := by
  induction k generalizing n with
  | zero => rw [Nat.pow_zero, Nat.div_one, Nat.zero_add]
  | succ k ih =>
      have most : 10 ^ k * 10 ≤ n := by
        rw [← Nat.pow_succ]
        exact large
      have positive := Nat.pow_pos (n := k) (show 0 < 10 by decide)
      have rest := ih (n := n / 10) (by omega)
      rw [numeral_append (by omega), List.length_append, List.length_singleton, rest,
        Nat.div_div_eq_div_mul, Nat.pow_succ']
      omega

/-- The first digit of a positive number is not 0. -/
theorem head_numeral {n : Nat} (positive : 0 < n) :
    ∃ first rest, numeral n = first :: rest ∧ 49 ≤ first ∧ first ≤ 57 := by
  induction n using Nat.strong_induction_on with
  | _ n ih =>
      rcases Nat.lt_or_ge n 10 with small | large
      · refine ⟨_, [], numeral_of_lt small, ?_⟩
        rw [UInt8.le_iff_toNat_le, UInt8.le_iff_toNat_le, toNat_digit small]
        change 49 ≤ _ ∧ _ ≤ 57
        omega
      · obtain ⟨first, rest, equal, low, high⟩ := ih (n / 10) (by omega) (by omega)
        exact ⟨first, _, by rw [numeral_append large, equal]; rfl, low, high⟩

private theorem value_singleton (byte : UInt8) : value [byte] = byte.toNat - 48 := by
  simp [value]

private theorem ofNat_digit {byte : UInt8} (low : 48 ≤ byte) :
    UInt8.ofNat (48 + (byte.toNat - 48)) = byte := by
  have bound : 48 ≤ byte.toNat := UInt8.le_iff_toNat_le.mp low
  rw [Nat.add_sub_cancel' bound, UInt8.ofNat_toNat]

/-- Digits that do not start with zero stand for a positive number. -/
theorem value_pos {first : UInt8} (low : 49 ≤ first) (rest : List UInt8) :
    0 < value (first :: rest) := by
  have bound : 49 ≤ first.toNat := UInt8.le_iff_toNat_le.mp low
  have shifted := value_append [first] rest
  rw [List.singleton_append, value_singleton] at shifted
  rw [shifted]
  exact Nat.add_pos_left (Nat.mul_pos (by omega) (Nat.pow_pos (by decide))) _

/-- A string of digits that does not start with 0 is the numeral of its value. -/
theorem numeral_value {first : UInt8} (low : 49 ≤ first) (high : first ≤ 57) {rest : List UInt8}
    (digits : ∀ byte ∈ rest, isDigit byte = true) :
    numeral (value (first :: rest)) = first :: rest := by
  have bound : 49 ≤ first.toNat := UInt8.le_iff_toNat_le.mp low
  have bound' : first.toNat ≤ 57 := UInt8.le_iff_toNat_le.mp high
  induction rest using List.reverseRecOn with
  | nil =>
      rw [value_singleton, numeral_of_lt (by omega),
        ofNat_digit (UInt8.le_iff_toNat_le.mpr (Nat.le_of_succ_le bound))]
  | append_singleton rest last ih =>
      have before := ih fun byte member => digits byte (List.mem_append_left _ member)
      have digit := digits last (List.mem_append_right _ List.mem_cons_self)
      rw [isDigit, Bool.and_eq_true, decide_eq_true_eq, decide_eq_true_eq] at digit
      have small : last.toNat ≤ 57 := UInt8.le_iff_toNat_le.mp digit.2
      have positive := value_pos low rest
      have split := value_append (first :: rest) [last]
      rw [value_singleton, List.length_singleton, Nat.pow_one] at split
      have front : value (first :: rest ++ [last]) / 10 = value (first :: rest) := by omega
      have back : value (first :: rest ++ [last]) % 10 = last.toNat - 48 := by omega
      rw [← List.cons_append, numeral_append (by omega), front, back, before, ofNat_digit digit.1]

end CPrograms.Library.Decimal
