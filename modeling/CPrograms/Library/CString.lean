import CPrograms.Library.Buffer
import CPrograms.Library.Decimal
import Mathlib.Data.List.Lex
import Mathlib.Data.List.TakeWhile

/-!
# C strings

NUL-terminated strings with `strcmp`, `strncmp`, `strcpy`, `strdup`, `atoi`, `sscanf` of a word
and the `"%d"` conversion. Of the result of `strcmp` only the sign is specified; that sign is a
linear order on strings.

The C standard leaves some results open: what `double` is and how it is printed
and read, and what `atoi` returns on a number that does not fit an `int`. They
are the fields of `Libc`, and every statement holds for all of them.
-/

namespace CPrograms.Library

/-- A NUL-terminated string, given by the bytes before its NUL. -/
@[ext] structure CString where
  bytes : List UInt8
  nulFree : 0 ∉ bytes

namespace CString

/-- The string that starts a run of bytes. -/
def ofBytes (bytes : List UInt8) : CString where
  bytes := bytes.takeWhile (· ≠ 0)
  nulFree := by
    intro member
    simpa using List.mem_takeWhile_imp member

/-- Bytes without a NUL are all in the string that starts there. -/
theorem bytes_ofBytes {bytes : List UInt8} (nulFree : 0 ∉ bytes) :
    (ofBytes bytes).bytes = bytes := by
  rw [ofBytes, List.takeWhile_eq_self_iff]
  intro byte member
  rw [decide_eq_true_eq]
  rintro rfl
  exact nulFree member

/-- `strlen`. -/
def length (s : CString) : Nat :=
  s.bytes.length

/-- The bytes of a string read as numbers, the form in which strings are ordered. -/
def weights (s : CString) : List Nat :=
  s.bytes.map UInt8.toNat

/-- A string is known from the numbers of its bytes. -/
theorem weights_injective : Function.Injective weights := by
  intro s t same
  exact CString.ext (List.map_injective_iff.mpr (fun _ _ => UInt8.toNat_inj.mp) same)

instance : LinearOrder CString :=
  LinearOrder.lift' weights weights_injective

end CString

/-- The comparison loop of `strcmp`, over the bytes up to the terminating NULs. -/
def compareBytes : List UInt8 → List UInt8 → Int
  | [], [] => 0
  | [], b :: _ => -b.toNat
  | a :: _, [] => a.toNat
  | a :: as, b :: bs => if a = b then compareBytes as bs else (a.toNat : Int) - b.toNat

/-- `strcmp`: the difference of the first two bytes that differ. -/
def strcmp (s t : CString) : Int :=
  compareBytes s.bytes t.bytes

/-- `strncmp`: the same comparison, of the first `n` bytes only. -/
def strncmp (s t : CString) (n : Nat) : Int :=
  compareBytes (s.bytes.take n) (t.bytes.take n)

private theorem toNat_pos_of_mem {bytes : List UInt8} {byte : UInt8} (nulFree : 0 ∉ bytes)
    (member : byte ∈ bytes) : 0 < byte.toNat := by
  rcases Nat.eq_zero_or_pos byte.toNat with zero | positive
  · have nul : byte = 0 := UInt8.toNat_inj.mp zero
    exact absurd (nul ▸ member) nulFree
  · exact positive

private theorem compareBytes_sign (as bs : List UInt8) (left : 0 ∉ as) (right : 0 ∉ bs) :
    (compareBytes as bs = 0 ↔ as = bs) ∧
      (compareBytes as bs < 0 ↔ as.map UInt8.toNat < bs.map UInt8.toNat) := by
  induction as generalizing bs with
  | nil =>
      cases bs with
      | nil => simp [compareBytes]
      | cons b bs =>
          have positive := toNat_pos_of_mem right (List.mem_cons_self (a := b))
          simp only [compareBytes, reduceCtorEq, iff_false, List.map_nil, List.map_cons,
            List.nil_lt_cons, iff_true]
          omega
  | cons a as ih =>
      cases bs with
      | nil =>
          have positive := toNat_pos_of_mem left (List.mem_cons_self (a := a))
          simp only [compareBytes, reduceCtorEq, iff_false, List.map_nil, List.map_cons,
            List.not_lt_nil]
          omega
      | cons b bs =>
          simp only [compareBytes, List.map_cons, List.cons_lt_cons_iff, List.cons.injEq]
          by_cases same : a = b
          · subst same
            simpa using ih bs (fun member => left (List.mem_cons_of_mem _ member))
              (fun member => right (List.mem_cons_of_mem _ member))
          · have different : a.toNat ≠ b.toNat := fun equal => same (UInt8.toNat_inj.mp equal)
            simp only [same, ↓reduceIte, false_and, iff_false, different, or_false]
            omega

/-- `strcmp` answers 0 exactly on equal strings. -/
@[simp] theorem strcmp_eq_zero_iff (s t : CString) : strcmp s t = 0 ↔ s = t := by
  rw [CString.ext_iff]
  exact (compareBytes_sign s.bytes t.bytes s.nulFree t.nulFree).1

/-- `strcmp` answers a negative number exactly on the smaller string. -/
@[simp] theorem strcmp_neg_iff (s t : CString) : strcmp s t < 0 ↔ s < t :=
  (compareBytes_sign s.bytes t.bytes s.nulFree t.nulFree).2

/-- `strncmp` of a string's own length answers 0 exactly on the strings it starts. -/
theorem strncmp_eq_zero_iff (s t : CString) :
    strncmp s t t.length = 0 ↔ t.bytes <+: s.bytes := by
  have equal := compareBytes_sign (s.bytes.take t.length) (t.bytes.take t.length)
    (fun member => s.nulFree (List.mem_of_mem_take member))
    (fun member => t.nulFree (List.mem_of_mem_take member))
  rw [strncmp, equal.1, CString.length, List.take_length, List.prefix_iff_eq_take]
  exact eq_comm

/-- Copy a string with its NUL to an index of a buffer. -/
def strcpy (buffer : Buffer UInt8) (index : Nat) (s : CString) : Buffer UInt8 :=
  buffer.storeAll index (s.bytes ++ [0])

/-- The string at the start of a buffer, as `strdup` copies it. There is none when
no byte up to the last one written is a NUL: the copy would read on into memory
that was never written. -/
def strdup (buffer : Buffer UInt8) : Option CString :=
  let bytes := (List.range buffer.extent).map buffer.read
  if 0 ∈ bytes then some (.ofBytes bytes) else none

private theorem takeWhile_append_nul (bytes rest : List UInt8) (nulFree : 0 ∉ bytes) :
    (bytes ++ 0 :: rest).takeWhile (· ≠ 0) = bytes := by
  rw [List.takeWhile_append_of_pos]
  · simp
  · intro byte member
    simp only [ne_eq, decide_not, Bool.not_eq_eq_eq_not, Bool.not_true, decide_eq_false_iff_not]
    rintro rfl
    exact nulFree member

/-- A string whose NUL has been written is duplicated as it is. -/
theorem strdup_of_holds {buffer : Buffer UInt8} (s : CString)
    (held : buffer.Holds 0 (s.bytes ++ [0])) (stored : s.length ∈ buffer.written) :
    strdup buffer = some s := by
  obtain ⟨rest, reach⟩ := Nat.exists_eq_add_of_lt (Buffer.lt_extent_of_mem stored)
  have front := held.map_range
  have bytes : (List.range buffer.extent).map buffer.read =
      s.bytes ++ 0 :: (List.range rest).map fun k => buffer.read (s.bytes.length + 1 + k) := by
    rw [reach, show s.length + rest + 1 = (s.bytes ++ [0]).length + rest by
      simp [CString.length]; omega, List.range_add, List.map_append, front]
    simp [Function.comp_def]
  unfold strdup
  simp only [bytes, List.mem_append, List.mem_cons, true_or, or_true, ↓reduceIte]
  congr 1
  exact CString.ext (takeWhile_append_nul s.bytes _ s.nulFree)

/-- What the C implementation decides. -/
structure Libc where
  /-- The type `double`. -/
  Double : Type
  /-- The text of the `"%f"` conversion. -/
  printF : Double → CString
  /-- `atof`. -/
  atof : CString → Double
  /-- The result of `atoi` on a number outside the range of `int`. -/
  atoiOutOfRange : Int → Int32

/-- A C library without floating point, whose `atoi` casts a 64-bit `strtol`. -/
def integerLibc : Libc where
  Double := Unit
  printF _ := ⟨[], List.not_mem_nil⟩
  atof _ := ()
  atoiOutOfRange n := Int32.ofInt (max (-2 ^ 63) (min n (2 ^ 63 - 1)))

private theorem nul_notMem_digits {digits : List UInt8}
    (all : ∀ byte ∈ digits, Decimal.isDigit byte = true) : 0 ∉ digits := by
  intro member
  exact absurd (all 0 member) (by decide)

/-- The text of the `"%d"` conversion. -/
def printD (v : Int32) : CString :=
  if v.toInt < 0 then
    ⟨45 :: Decimal.numeral v.toInt.natAbs, by
      simp only [List.mem_cons, not_or]
      exact ⟨by decide, nul_notMem_digits fun _ => Decimal.isDigit_of_mem_numeral⟩⟩
  else
    ⟨Decimal.numeral v.toInt.natAbs, nul_notMem_digits fun _ => Decimal.isDigit_of_mem_numeral⟩

/-- The bytes of an ASCII text. -/
def ascii (text : String) : List UInt8 := text.toList.map fun c => UInt8.ofNat c.toNat

/-- `isspace` in the C locale. -/
def isSpace (byte : UInt8) : Bool :=
  byte = 32 || (9 ≤ byte && byte ≤ 13)

/-- `sscanf` of a word with `"%s"` into an array of `size` bytes that holds a string, or nothing
yet. Without a word in the text the array stays as it is; a word that is too long is undefined. -/
def scanWord (size : Nat) (text : CString) (held : Option CString) : Option CString :=
  let word := (text.bytes.dropWhile isSpace).takeWhile (!isSpace ·)
  if word = [] then held else if word.length < size then some (.ofBytes word) else none

/-- A word that fits an array of `size` bytes. -/
def CString.IsWord (size : Nat) (text : CString) : Prop :=
  text.bytes ≠ [] ∧ text.length < size ∧ text.bytes.any isSpace = false

/-- A word is read as it is. -/
theorem scanWord_of_isWord {size : Nat} {text : CString} (word : text.IsWord size)
    (held : Option CString) : scanWord size text held = some text := by
  obtain ⟨nonempty, fits, solid⟩ := word
  have solid : ∀ byte ∈ text.bytes, isSpace byte = false := fun byte member =>
    Bool.eq_false_iff.mpr (List.any_eq_false.mp solid byte member)
  have kept : text.bytes.dropWhile isSpace = text.bytes :=
    List.dropWhile_eq_self_iff.mpr fun positive => by
      rw [solid _ (List.getElem_mem positive)]
      exact Bool.false_ne_true
  have whole : text.bytes.takeWhile (!isSpace ·) = text.bytes :=
    List.takeWhile_eq_self_iff.mpr fun byte member => by rw [solid byte member, Bool.not_false]
  rw [scanWord, kept]
  simp only [whole]
  rw [if_neg nonempty, if_pos (show text.bytes.length < size from fits)]
  exact congrArg some (CString.ext (CString.bytes_ofBytes text.nulFree))

/-- The number at the start of a text: leading white space, one sign, digits. -/
def leadingNumber (bytes : List UInt8) : Int :=
  match bytes.dropWhile isSpace with
  | 45 :: rest => -(Decimal.value (rest.takeWhile Decimal.isDigit) : Int)
  | 43 :: rest => Decimal.value (rest.takeWhile Decimal.isDigit)
  | rest => Decimal.value (rest.takeWhile Decimal.isDigit)

/-- `atoi`. -/
def atoi (libc : Libc) (s : CString) : Int32 :=
  let n := leadingNumber s.bytes
  if -2 ^ 31 ≤ n ∧ n < 2 ^ 31 then Int32.ofInt n else libc.atoiOutOfRange n

/-- A minus sign and digits are read as a negative number. -/
theorem leadingNumber_minus {digits : List UInt8}
    (all : ∀ byte ∈ digits, Decimal.isDigit byte = true) :
    leadingNumber (45 :: digits) = -(Decimal.value digits : Int) := by
  simp only [leadingNumber, List.dropWhile_cons, show isSpace 45 = false by decide,
    Bool.false_eq_true, ↓reduceIte]
  rw [List.takeWhile_eq_self_iff.mpr all]

/-- Digits alone are read as a number. -/
theorem leadingNumber_digits {digits : List UInt8}
    (all : ∀ byte ∈ digits, Decimal.isDigit byte = true) :
    leadingNumber digits = Decimal.value digits := by
  cases digits with
  | nil => rfl
  | cons digit rest =>
      have head := all digit List.mem_cons_self
      have space : isSpace digit = false := by
        simp only [Decimal.isDigit, Bool.and_eq_true, decide_eq_true_eq,
          UInt8.le_iff_toNat_le] at head
        simp only [isSpace, Bool.or_eq_false_iff, Bool.and_eq_false_iff, decide_eq_false_iff_not,
          UInt8.le_iff_toNat_le, ← UInt8.toNat_inj]
        have low : (48 : UInt8).toNat = 48 := rfl
        have blank : (32 : UInt8).toNat = 32 := rfl
        have return13 : (13 : UInt8).toNat = 13 := rfl
        omega
      simp only [leadingNumber, List.dropWhile_cons, space, Bool.false_eq_true, ↓reduceIte]
      split
      · next rest' same =>
          obtain ⟨rfl, rfl⟩ := List.cons.inj same
          exact absurd head (by decide)
      · next rest' same =>
          obtain ⟨rfl, rfl⟩ := List.cons.inj same
          exact absurd head (by decide)
      · rw [List.takeWhile_eq_self_iff.mpr all]

/-- A text that denotes a 32-bit number is read as that number. -/
theorem atoi_eq_of_leadingNumber (libc : Libc) {s : CString} {v : Int32}
    (denotes : leadingNumber s.bytes = v.toInt) : atoi libc s = v := by
  unfold atoi
  rw [denotes]
  simp only [Int32.le_toInt, Int32.toInt_lt, and_self, ↓reduceIte, Int32.ofInt_toInt]

private theorem bytes_printD (v : Int32) :
    (printD v).bytes = if v.toInt < 0 then 45 :: Decimal.numeral v.toInt.natAbs
      else Decimal.numeral v.toInt.natAbs := by
  unfold printD
  split <;> rfl

/-- Printing a 32-bit number and reading it back gives the number. -/
@[simp] theorem atoi_printD (libc : Libc) (v : Int32) : atoi libc (printD v) = v := by
  apply atoi_eq_of_leadingNumber
  rw [bytes_printD]
  split
  · next negative =>
      rw [leadingNumber_minus fun _ => Decimal.isDigit_of_mem_numeral, Decimal.value_numeral]
      omega
  · next nonnegative =>
      rw [leadingNumber_digits fun _ => Decimal.isDigit_of_mem_numeral, Decimal.value_numeral]
      omega

private theorem leadingNumber_take_printD (v : Int32) {count : Nat} (some : 0 < count)
    (shorter : count < (printD v).length) :
    (leadingNumber ((printD v).bytes.take count)).natAbs < v.toInt.natAbs := by
  unfold CString.length at shorter
  rw [bytes_printD] at shorter ⊢
  have digit : ∀ k, ∀ byte ∈ (Decimal.numeral v.toInt.natAbs).take k,
      Decimal.isDigit byte = true :=
    fun k byte member => Decimal.isDigit_of_mem_numeral (List.mem_of_mem_take member)
  have smaller : ∀ k, 0 < v.toInt.natAbs → k < (Decimal.numeral v.toInt.natAbs).length →
      Decimal.value ((Decimal.numeral v.toInt.natAbs).take k) < v.toInt.natAbs := by
    intro k positive below
    have cut := Decimal.value_take_lt k (by simpa using positive) below
    simpa using cut
  split at shorter
  · next negative =>
      obtain ⟨k, rfl⟩ := Nat.exists_eq_succ_of_ne_zero (Nat.pos_iff_ne_zero.mp some)
      simp only [negative, ↓reduceIte, List.take_succ_cons]
      rw [leadingNumber_minus (digit k), Int.natAbs_neg, Int.natAbs_natCast]
      exact smaller k (by omega) (by simpa using shorter)
  · next nonnegative =>
      simp only [nonnegative, ↓reduceIte]
      rw [leadingNumber_digits (digit count), Int.natAbs_natCast]
      apply smaller count _ shorter
      rcases Nat.eq_zero_or_pos v.toInt.natAbs with zero | positive
      · rw [zero, show Decimal.numeral 0 = [48] from rfl] at shorter
        simp only [List.length_singleton] at shorter
        omega
      · exact positive

/-- A printed number that has lost digits is read as another number. -/
theorem atoi_take_printD_ne (libc : Libc) (v : Int32) (s : CString) {count : Nat}
    (some : 0 < count) (shorter : count < (printD v).length)
    (cut : s.bytes = (printD v).bytes.take count) : atoi libc s ≠ v := by
  have smaller := leadingNumber_take_printD v some shorter
  have low := v.le_toInt
  have high := v.toInt_lt
  unfold atoi
  rw [cut]
  rw [if_pos (by omega)]
  intro same
  have back := congrArg Int32.toInt same
  rw [Int32.toInt_ofInt, show Int32.size = 2 ^ 32 from rfl,
    Int.bmod_eq_of_le (by omega) (by omega)] at back
  omega

end CPrograms.Library
