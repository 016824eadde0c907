import CPrograms.Library.InputStream
import Mathlib.Algebra.Ring.Int.Parity
import Mathlib.Data.List.TakeWhile

/-!
# Formatted extraction of integers

`in >> n` for an `int`: skip whitespace, take an optional sign and as many digits as
follow, and store the number. Without digits it stores 0, outside the range of `int` the
nearest number of the range, and sets `failbit` in both cases. On a stream that is not good
it extracts nothing and leaves the variable alone, whatever that held.

The words of a text are what stands between its whitespace. A word need not be a number:
extraction stops at the first character that does not belong to one and leaves the rest.
-/

namespace CPrograms.Library

/-- The characters `isspace` answers true on. -/
def isSpaceChar (c : Char) : Bool :=
  [' ', '\t', '\n', '\x0b', '\x0c', '\r'].contains c

/-- The words of a text. -/
def words (text : List Char) : List (List Char) :=
  (text.splitOnP isSpaceChar).filter (· ≠ [])

/-- Whether a minus sign starts a number, and what stands behind its sign. -/
def takeSign : List Char → Bool × List Char
  | '-' :: rest => (true, rest)
  | '+' :: rest => (false, rest)
  | text => (false, text)

/-- The number a text starts with, if it has any digits, and the rest of the text. -/
def scanInt (text : List Char) : Option Int × List Char :=
  let (negative, body) := takeSign text
  let digits := body.takeWhile Char.isDigit
  let size : Int := Nat.ofDigitChars 10 digits 0
  (if digits = [] then none else some (if negative then -size else size),
    body.dropWhile Char.isDigit)

/-- The number fits an `int` of 32 bits. -/
def FitsInt (n : Int) : Prop :=
  -2 ^ 31 ≤ n ∧ n < 2 ^ 31

instance decidableFitsInt : DecidablePred FitsInt := fun _ => inferInstanceAs (Decidable (_ ∧ _))

namespace InputStream

/-- What is stored for a scanned number, and whether that sets `failbit`. -/
def storedInt : Option Int → Int × Bool
  | none => (0, true)
  | some n => if FitsInt n then (n, false) else (if n < 0 then -2 ^ 31 else 2 ^ 31 - 1, true)

/-- `in >> n`: what is stored, if anything is, and the stream. -/
def extractInt (stream : InputStream Char) : Option Int × InputStream Char :=
  if stream.eof ∨ stream.fail then (none, { stream with fail := true })
  else
    let text := stream.rest.dropWhile isSpaceChar
    if text = [] then (none, ⟨[], true, true⟩)
    else
      let (scanned, rest) := scanInt text
      let (stored, failed) := storedInt scanned
      (some stored, ⟨rest, rest.isEmpty, failed⟩)

end InputStream

/-- A stream, and what the variables hold that are declared without a value one after the
other and read from it. -/
structure Cin where
  stream : InputStream Char
  held : Nat → Int

namespace Cin

/-- `int n; cin >> n;` and the value of `n` behind it. -/
def read (cin : Cin) : Option (Int × Cin) :=
  let (stored, stream) := cin.stream.extractInt
  some (stored.getD (cin.held 0), ⟨stream, fun i => cin.held (i + 1)⟩)

/-- A stream on which nothing has gone wrong yet. -/
def good (text : List Char) (held : Nat → Int) : Cin :=
  ⟨⟨text, false, false⟩, held⟩

end Cin

/-! ## Words -/

/-- There are no words in nothing. -/
theorem words_nil : words [] = [] := rfl

/-- White space separates words. -/
theorem words_append_cons (front : List Char) {c : Char} (space : isSpaceChar c = true)
    (back : List Char) : words (front ++ c :: back) = words front ++ words back := by
  rw [words, List.splitOnP_append_cons _ _ space, List.filter_append]
  rfl

/-- White space in front does not matter. -/
theorem words_cons {c : Char} (space : isSpaceChar c = true) (text : List Char) :
    words (c :: text) = words text :=
  words_append_cons [] space text

/-- A text without whitespace is one word. -/
theorem words_of_solid {word : List Char} (solid : ∀ c ∈ word, isSpaceChar c = false) :
    words word = if word = [] then [] else [word] := by
  rw [words, List.splitOnP_eq_singleton solid]
  by_cases empty : word = []
  · simp [empty]
  · simp [empty]

/-- What stands before whitespace, or before the end. -/
theorem words_append {front back : List Char} (ended : ∀ c ∈ back.head?, isSpaceChar c = true) :
    words (front ++ back) = words front ++ words back := by
  cases back with
  | nil => rw [List.append_nil, words_nil, List.append_nil]
  | cons c back =>
      have space := ended c rfl
      rw [words_append_cons front space, words_cons space]

/-- The first word of a text, with what stands around it. -/
theorem exists_of_words {text word : List Char} {later : List (List Char)}
    (split : words text = word :: later) :
    ∃ blank back, text = blank ++ (word ++ back) ∧ (∀ c ∈ blank, isSpaceChar c = true) ∧
      word ≠ [] ∧ (∀ c ∈ word, isSpaceChar c = false) ∧ (∀ c ∈ back.head?, isSpaceChar c = true) ∧
      words back = later := by
  induction text with
  | nil => cases split
  | cons c text ih =>
      by_cases space : isSpaceChar c = true
      · rw [words_cons space] at split
        obtain ⟨blank, back, rfl, blanks, rest⟩ := ih split
        exact ⟨c :: blank, back, rfl, List.forall_mem_cons.mpr ⟨space, blanks⟩, rest⟩
      · -- The word is everything up to the next whitespace.
        have parts :=
          List.takeWhile_append_dropWhile (p := fun d => !isSpaceChar d) (l := c :: text)
        have solid : ∀ d ∈ (c :: text).takeWhile fun d => !isSpaceChar d,
            isSpaceChar d = false := by
          intro d member
          simpa using List.mem_takeWhile_imp member
        have ended : ∀ d ∈ ((c :: text).dropWhile fun d => !isSpaceChar d).head?,
            isSpaceChar d = true := by
          intro d first
          have stop := List.head?_dropWhile_not (fun d => !isSpaceChar d) (c :: text)
          rw [Option.mem_def.mp first] at stop
          simpa using stop
        have nonempty : (c :: text).takeWhile (fun d => !isSpaceChar d) ≠ [] := by
          simp [space]
        generalize (c :: text).takeWhile (fun d => !isSpaceChar d) = front at parts solid nonempty
        generalize (c :: text).dropWhile (fun d => !isSpaceChar d) = back at parts ended
        rw [← parts, words_append ended, words_of_solid solid, if_neg nonempty] at split
        cases split
        exact ⟨[], back, parts.symm, by simp, nonempty, solid, ended, rfl⟩

/-- No word of a text has whitespace in it. -/
theorem solid_of_mem_words {text word : List Char} (member : word ∈ words text) :
    ∀ c ∈ word, isSpaceChar c = false := by
  induction split : words text generalizing text with
  | nil => simp [split] at member
  | cons first later ih =>
      obtain ⟨_, back, -, -, -, solid, -, rest⟩ := exists_of_words split
      rw [split] at member
      rcases List.mem_cons.mp member with rfl | inside
      · exact solid
      · exact ih (rest.symm ▸ inside) rest

/-! ## Numbers -/

/-- White space is not a digit. -/
theorem isDigit_of_isSpace {c : Char} (space : isSpaceChar c = true) : c.isDigit = false := by
  simp only [isSpaceChar, List.contains_eq_mem, decide_eq_true_eq, List.mem_cons, List.not_mem_nil,
    or_false] at space
  rcases space with rfl | rfl | rfl | rfl | rfl | rfl <;> rfl

/-- The sign is at the front of the word. -/
theorem takeSign_append {word : List Char} (nonempty : word ≠ []) (back : List Char) :
    takeSign (word ++ back) = ((takeSign word).1, (takeSign word).2 ++ back) := by
  obtain ⟨c, word, rfl⟩ := List.exists_cons_of_ne_nil nonempty
  by_cases minus : c = '-'
  · subst minus
    rfl
  · by_cases plus : c = '+'
    · subst plus
      rfl
    · simp [takeSign, minus, plus]

/-- Digits end with the word they stand in. -/
private theorem digits_append (body : List Char) {back : List Char}
    (ended : ∀ c ∈ back.head?, isSpaceChar c = true) :
    (body ++ back).takeWhile Char.isDigit = body.takeWhile Char.isDigit ∧
      (body ++ back).dropWhile Char.isDigit = body.dropWhile Char.isDigit ++ back := by
  induction body with
  | nil =>
      cases back with
      | nil => exact ⟨rfl, rfl⟩
      | cons c back => simp [isDigit_of_isSpace (ended c rfl)]
  | cons c body ih =>
      by_cases digit : c.isDigit = true
      · simp [digit, ih]
      · simp [digit]

/-- Scanning stops at the end of a word. -/
theorem scanInt_append {word back : List Char} (nonempty : word ≠ [])
    (ended : ∀ c ∈ back.head?, isSpaceChar c = true) :
    scanInt (word ++ back) = ((scanInt word).1, (scanInt word).2 ++ back) := by
  obtain ⟨taken, dropped⟩ := digits_append (takeSign word).2 ended
  simp only [scanInt, takeSign_append nonempty, taken, dropped]

/-- What scanning leaves of a word is the end of the word. -/
theorem scanInt_suffix (word : List Char) : (scanInt word).2 <:+ word := by
  have signed : (takeSign word).2 <:+ word := by
    unfold takeSign
    split
    · exact List.suffix_cons _ _
    · exact List.suffix_cons _ _
    · exact List.suffix_rfl
  exact (List.dropWhile_suffix _).trans signed

/-- Numerals with their numbers: digits behind at most one sign. -/
def Denotes (word : List Char) (n : Int) : Prop :=
  ∃ digits : List Char, digits ≠ [] ∧ digits.all Char.isDigit = true ∧
    ((word = digits ∨ word = '+' :: digits) ∧ n = Nat.ofDigitChars 10 digits 0 ∨
      word = '-' :: digits ∧ n = -(Nat.ofDigitChars 10 digits 0 : Int))

/-- A numeral is scanned to its end. -/
theorem Denotes.scanInt_eq {word : List Char} {n : Int} (numeral : Denotes word n) :
    scanInt word = (some n, []) := by
  obtain ⟨digits, nonempty, all, signed⟩ := numeral
  rw [List.all_eq_true] at all
  have taken : digits.takeWhile Char.isDigit = digits := List.takeWhile_eq_self_iff.mpr all
  have dropped : digits.dropWhile Char.isDigit = [] := List.dropWhile_eq_nil_iff.mpr all
  have unsigned : takeSign digits = (false, digits) := by
    obtain ⟨c, digits, rfl⟩ := List.exists_cons_of_ne_nil nonempty
    have digit := all c List.mem_cons_self
    unfold takeSign
    split
    · next same =>
        cases same
        cases digit
    · next same =>
        cases same
        cases digit
    · rfl
  rcases signed with ⟨rfl | rfl, rfl⟩ | ⟨rfl, rfl⟩
  · simp only [scanInt, unsigned, taken, dropped, nonempty, ↓reduceIte, Bool.false_eq_true]
  · simp only [scanInt, takeSign, taken, dropped, nonempty, ↓reduceIte, Bool.false_eq_true]
  · simp only [scanInt, takeSign, taken, dropped, nonempty, ↓reduceIte]

/-- Texts that extraction reads to their end as numbers that fit an `int`: one number, or
several with signs between them as in `12-5`. -/
inductive Numbers : List Char → List Int → Prop where
  | nil : Numbers [] []
  | cons {text rest : List Char} {n : Int} {ns : List Int} : scanInt text = (some n, rest) →
      FitsInt n → Numbers rest ns → Numbers text (n :: ns)

/-! ## Reading words -/

namespace InputStream

/-- Extraction from a good stream scans the first word. -/
theorem extractInt_of_words {text word : List Char} {later : List (List Char)}
    (split : words text = word :: later) :
    ∃ rest, words rest = words (scanInt word).2 ++ later ∧
      extractInt ⟨text, false, false⟩ = (some (storedInt (scanInt word).1).1,
        ⟨rest, rest.isEmpty, (storedInt (scanInt word).1).2⟩) := by
  obtain ⟨blank, back, rfl, blanks, nonempty, solid, ended, rfl⟩ := exists_of_words split
  have skipped : (blank ++ (word ++ back)).dropWhile isSpaceChar = word ++ back := by
    obtain ⟨c, word, rfl⟩ := List.exists_cons_of_ne_nil nonempty
    rw [List.dropWhile_append_of_pos blanks, List.cons_append,
      List.dropWhile_cons_of_neg (by simp [solid c List.mem_cons_self])]
  refine ⟨(scanInt word).2 ++ back, words_append ended, ?_⟩
  have some : word ++ back ≠ [] := List.append_ne_nil_of_left_ne_nil nonempty _
  simp only [extractInt, Bool.false_eq_true, or_self, ↓reduceIte, skipped, some,
    scanInt_append nonempty ended]

/-- A stream that failed is not read. -/
theorem extractInt_fail {stream : InputStream Char} (failed : stream.fail = true) :
    stream.extractInt = (none, stream) := by
  obtain ⟨rest, eof, fail⟩ := stream
  cases failed
  simp [extractInt]

end InputStream

namespace Cin

/-- A number that fits an `int` is read and leaves a good stream, if there is a word left. -/
theorem read_of_words {text word : List Char} {later : List (List Char)} {n : Int}
    {left : List Char} (split : words text = word :: later)
    (scanned : scanInt word = (some n, left)) (fits : FitsInt n) (held : Nat → Int) :
    ∃ rest eof, words rest = words left ++ later ∧ (words rest ≠ [] → eof = false) ∧
      (good text held).read = some (n, ⟨⟨rest, eof, false⟩, fun i => held (i + 1)⟩) := by
  obtain ⟨rest, remaining, extracted⟩ := InputStream.extractInt_of_words split
  rw [scanned] at remaining extracted
  have stored : InputStream.storedInt (some n) = (n, false) := if_pos fits
  refine ⟨rest, rest.isEmpty, remaining, ?_, ?_⟩
  · intro more
    cases rest with
    | nil => exact absurd rfl more
    | cons c rest => rfl
  · simp only [read, good, extracted, stored, Option.getD_some]

/-- Where no number that fits is scanned, the stream fails. -/
theorem read_of_not_scanned {text word : List Char} {later : List (List Char)}
    (split : words text = word :: later)
    (bad : ∀ n left, scanInt word = (some n, left) → ¬ FitsInt n) (held : Nat → Int) :
    ∃ stored rest eof, (good text held).read =
      some (stored, ⟨⟨rest, eof, true⟩, fun i => held (i + 1)⟩) := by
  obtain ⟨rest, -, extracted⟩ := InputStream.extractInt_of_words split
  have failed : (InputStream.storedInt (scanInt word).1).2 = true := by
    cases scanned : (scanInt word).1 with
    | none => rfl
    | some n =>
        have unfit := bad n (scanInt word).2 (Prod.ext scanned rfl)
        rw [InputStream.storedInt, if_neg unfit]
  rw [failed] at extracted
  refine ⟨(InputStream.storedInt (scanInt word).1).1, rest, rest.isEmpty, ?_⟩
  simp only [read, good, extracted, Option.getD_some]

/-- Reading from a stream that failed leaves the variable as it is. -/
theorem read_fail {cin : Cin} (failed : cin.stream.fail = true) :
    cin.read = some (cin.held 0, ⟨cin.stream, fun i => cin.held (i + 1)⟩) := by
  simp only [read, InputStream.extractInt_fail failed, Option.getD_none]

end Cin

end CPrograms.Library
