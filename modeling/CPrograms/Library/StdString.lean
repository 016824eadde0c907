import Mathlib.Data.List.TakeWhile

/-!
# Searching and cutting strings

The members of `std::string` over lists of any characters. A search returns a position of
its string, with `none` for `npos`, and a string is cut at positions up to its length only:
the exception that `substr` throws elsewhere cannot arise. Since `npos` is the largest
`size_type`, `npos + 1` is 0 and a count of `npos` takes everything.
-/

namespace CPrograms.Library.StdString

universe u

variable {α : Type u}

/-- A front part is shorter than the text it is in front of. -/
theorem length_lt_append (front : List α) (a : α) (back : List α) :
    front.length < (front ++ a :: back).length := by
  rw [List.length_append, List.length_cons]
  omega

private theorem findFinIdx?_append {p : α → Bool} {front : List α} (a : α) (back : List α)
    (fails : ∀ b ∈ front, p b = false) (holds : p a = true) :
    (front ++ a :: back).findFinIdx? p = some ⟨front.length, length_lt_append ..⟩ := by
  rw [List.findFinIdx?_eq_some_iff]
  constructor
  · simpa using holds
  · rintro ⟨j, bound⟩ before
    have inside : j < front.length := before
    simp [List.getElem_append_left inside, fails _ (List.getElem_mem inside)]

variable [DecidableEq α]

/-- `s.find(c)`. -/
def find (s : List α) (c : α) : Option (Fin s.length) :=
  s.findFinIdx? (· = c)

/-- `s.find_first_not_of(chars)`. -/
def findFirstNotOf (s chars : List α) : Option (Fin s.length) :=
  s.findFinIdx? (· ∉ chars)

/-- One more than the position a search returned. -/
def succ {n : Nat} : Option (Fin n) → Fin (n + 1)
  | none => 0
  | some pos => pos.succ

/-- `s.substr(pos, count)`. -/
def substr (s : List α) (pos : Fin (s.length + 1)) : Option Nat → List α
  | none => s.drop pos
  | some count => (s.drop pos).take count

/-- `s.erase(pos, count)`. -/
def erase (s : List α) (pos : Fin (s.length + 1)) (count : Nat) : List α :=
  s.take pos ++ s.drop (pos + count)

/-- `s.substr(s.find(c) + 1, s.length())`: what stands behind the first `c`, and all of `s`
if there is none. -/
def behind (c : α) (s : List α) : List α :=
  substr s (succ (find s c)) (some s.length)

/-- The first occurrence is behind a front part without one. -/
theorem find_append {c : α} {front : List α} (free : c ∉ front) (back : List α) :
    find (front ++ c :: back) c = some ⟨front.length, length_lt_append ..⟩ := by
  apply findFinIdx?_append
  · intro b member
    rw [decide_eq_false_iff_not]
    rintro rfl
    exact free member
  · exact decide_eq_true rfl

/-- What does not occur is not found. -/
theorem find_of_notMem {c : α} {s : List α} (free : c ∉ s) : find s c = none := by
  rw [find, List.findFinIdx?_eq_none_iff]
  intro b member
  rw [decide_eq_true_eq]
  rintro rfl
  exact free member

/-- A position found cuts the string at the first occurrence. -/
theorem find_eq_some {c : α} {s : List α} {pos : Fin s.length} (found : find s c = some pos) :
    ∃ front back, s = front ++ c :: back ∧ c ∉ front ∧ pos.val = front.length := by
  by_cases member : c ∈ s
  · obtain ⟨front, back, rfl, free⟩ := List.eq_append_cons_of_mem member
    rw [find_append free, Option.some.injEq] at found
    exact ⟨front, back, rfl, free, by rw [← found]⟩
  · rw [find_of_notMem member] at found
    cases found

omit [DecidableEq α] in
/-- The index of the first occurrence is the length of what is before it. -/
theorem idxOf_append_cons [BEq α] [LawfulBEq α] {c : α} {front : List α} (free : c ∉ front)
    (back : List α) : (front ++ c :: back).idxOf c = front.length := by
  rw [List.idxOf_append, if_neg free, List.idxOf_cons_self, Nat.zero_add]

/-- A count that a search returned takes what stands before the first `c`, or everything. -/
theorem substr_find (s : List α) (pos : Fin (s.length + 1)) (c : α) :
    substr s pos ((find s c).map Fin.val) = (s.drop pos).take (s.idxOf c) := by
  by_cases member : c ∈ s
  · obtain ⟨front, back, rfl, free⟩ := List.eq_append_cons_of_mem member
    rw [find_append free, idxOf_append_cons free]
    rfl
  · rw [find_of_notMem member, List.idxOf_eq_length member, List.take_of_length_le (by simp)]
    rfl

omit [DecidableEq α] in
/-- A string consists of the given characters, or there is a first one that is different. -/
theorem all_mem_or_append (chars s : List α) :
    (∀ a ∈ s, a ∈ chars) ∨
      ∃ front a back, s = front ++ a :: back ∧ (∀ b ∈ front, b ∈ chars) ∧ a ∉ chars := by
  induction s with
  | nil => exact .inl fun a member => absurd member List.not_mem_nil
  | cons a s ih =>
      by_cases inside : a ∈ chars
      · rcases ih with all | ⟨front, b, back, rfl, skipped, other⟩
        · exact .inl (List.forall_mem_cons.mpr ⟨inside, all⟩)
        · exact .inr ⟨a :: front, b, back, rfl, List.forall_mem_cons.mpr ⟨inside, skipped⟩, other⟩
      · exact .inr ⟨[], a, s, rfl, fun b member => absurd member List.not_mem_nil, inside⟩

/-- The first other character is behind those that are skipped. -/
theorem findFirstNotOf_append {chars front : List α} {a : α} (skipped : ∀ b ∈ front, b ∈ chars)
    (other : a ∉ chars) (back : List α) :
    findFirstNotOf (front ++ a :: back) chars = some ⟨front.length, length_lt_append ..⟩ := by
  apply findFinIdx?_append
  · intro b member
    simpa using skipped b member
  · simpa using other

/-- Nothing is found exactly if everything is skipped. -/
theorem findFirstNotOf_eq_none_iff {chars s : List α} :
    findFirstNotOf s chars = none ↔ ∀ a ∈ s, a ∈ chars := by
  rw [findFirstNotOf, List.findFinIdx?_eq_none_iff]
  simp only [decide_eq_true_eq, not_not]

/-- The text behind the first occurrence. -/
theorem behind_append {c : α} {front : List α} (free : c ∉ front) (back : List α) :
    behind c (front ++ c :: back) = back := by
  rw [behind, find_append free, substr]
  have cut : (front ++ c :: back).drop (front.length + 1) = back := by
    rw [← List.singleton_append, ← List.append_assoc]
    exact List.drop_left' (by simp)
  simp only [succ, Fin.succ_mk, cut]
  exact List.take_of_length_le (by simp; omega)

/-- The text behind its first character. -/
theorem behind_cons_self (c : α) (s : List α) : behind c (c :: s) = s :=
  @behind_append _ _ c [] List.not_mem_nil s

/-- Without an occurrence the whole text is left. -/
theorem behind_of_notMem {c : α} {s : List α} (free : c ∉ s) : behind c s = s := by
  rw [behind, find_of_notMem free, substr]
  simp [succ]

/-- The whole text is left exactly without an occurrence. -/
theorem behind_eq_self_iff {c : α} {s : List α} : behind c s = s ↔ c ∉ s := by
  constructor
  · intro same member
    obtain ⟨front, back, rfl, free⟩ := List.eq_append_cons_of_mem member
    rw [behind_append free] at same
    have lengths := congrArg List.length same
    simp only [List.length_append, List.length_cons] at lengths
    omega
  · exact behind_of_notMem

/-- Behind the first `c` nothing is lost at the end. -/
theorem behind_append_of_mem {c : α} {s : List α} (member : c ∈ s) (tail : List α) :
    behind c (s ++ tail) = behind c s ++ tail := by
  obtain ⟨front, back, rfl, free⟩ := List.eq_append_cons_of_mem member
  rw [List.append_assoc, List.cons_append, behind_append free, behind_append free]

/-- The text behind the first occurrence, by its index. -/
theorem behind_eq_drop {c : α} {s : List α} (member : c ∈ s) :
    behind c s = s.drop (s.idxOf c + 1) := by
  obtain ⟨front, back, rfl, free⟩ := List.eq_append_cons_of_mem member
  rw [behind_append free, idxOf_append_cons free, ← List.singleton_append, ← List.append_assoc,
    List.drop_left' (by simp)]

/-- What is left is the end of the text. -/
theorem behind_suffix (c : α) (s : List α) : behind c s <:+ s := by
  by_cases member : c ∈ s
  · rw [behind_eq_drop member]
    exact List.drop_suffix ..
  · exact ⟨[], by rw [List.nil_append, behind_of_notMem member]⟩

/-- Without an occurrence the whole text is taken. -/
theorem takeWhile_of_notMem {c : α} {s : List α} (free : c ∉ s) : s.takeWhile (· ≠ c) = s := by
  rw [List.takeWhile_eq_self_iff]
  intro a member
  rw [decide_eq_true_eq]
  rintro rfl
  exact free member

/-- What is taken has no occurrence. -/
theorem notMem_takeWhile (c : α) (s : List α) : c ∉ s.takeWhile (· ≠ c) :=
  fun member => by simpa using List.mem_takeWhile_imp member

/-- The text before the first occurrence. -/
theorem takeWhile_append {c : α} {front : List α} (free : c ∉ front) (back : List α) :
    (front ++ c :: back).takeWhile (· ≠ c) = front := by
  rw [List.takeWhile_append_of_pos (List.takeWhile_eq_self_iff.mp (takeWhile_of_notMem free)),
    List.takeWhile_cons_of_neg (by simp), List.append_nil]

/-- The text from the first occurrence on. -/
theorem dropWhile_append {c : α} {front : List α} (free : c ∉ front) (back : List α) :
    (front ++ c :: back).dropWhile (· ≠ c) = c :: back := by
  have whole := List.takeWhile_append_dropWhile (p := (· ≠ c)) (l := front ++ c :: back)
  rw [takeWhile_append free] at whole
  exact List.append_cancel_left whole

/-- Without an occurrence nothing is left. -/
theorem dropWhile_of_notMem {c : α} {s : List α} (free : c ∉ s) : s.dropWhile (· ≠ c) = [] := by
  have whole := List.takeWhile_append_dropWhile (p := (· ≠ c)) (l := s)
  rw [takeWhile_of_notMem free] at whole
  exact List.append_right_eq_self.mp whole

/-- Text in front changes nothing behind the first `c` if it is empty, if its only `c` ends it
and the rest has none, or if only the rest has one. -/
theorem behind_append_eq_iff {c : α} (front s : List α) :
    behind c (front ++ s) = behind c s ↔
      front = [] ∨ (front.dropWhile (· ≠ c) = [c] ∧ c ∉ s) ∨ (c ∉ front ∧ c ∈ s) := by
  by_cases inFront : c ∈ front
  · obtain ⟨lead, tail, rfl, free⟩ := List.eq_append_cons_of_mem inFront
    rw [List.append_assoc, List.cons_append, behind_append free, dropWhile_append free]
    simp only [List.append_eq_nil_iff, List.cons_ne_nil, and_false, inFront, not_true_eq_false,
      false_and, or_false, false_or, List.cons.injEq, true_and]
    constructor
    · intro same
      have shorter := (behind_suffix c s).length_le
      have lengths := congrArg List.length same
      rw [List.length_append] at lengths
      have none : tail = [] := List.length_eq_zero_iff.mp (by omega)
      rw [none, List.nil_append, eq_comm, behind_eq_self_iff] at same
      exact ⟨none, same⟩
    · rintro ⟨rfl, absent⟩
      rw [behind_of_notMem absent, List.nil_append]
  · rw [dropWhile_of_notMem inFront]
    by_cases inRest : c ∈ s
    · obtain ⟨lead, tail, rfl, free⟩ := List.eq_append_cons_of_mem inRest
      refine iff_of_true ?_ (.inr (.inr ⟨inFront, inRest⟩))
      rw [← List.append_assoc, behind_append (by simp [inFront, free]), behind_append free]
    · rw [behind_of_notMem inRest, behind_of_notMem (by simp [inFront, inRest])]
      simp [inRest]

/-- Blanks at the end leave what stands behind the first `c` alone only if there are none, or
if there is nothing else and their only `c` ends them. -/
theorem behind_append_blank_iff {c : α} {s tail blank : List α}
    (trimmed : ∀ a ∈ s.getLast?, a ∉ blank) (blanks : ∀ a ∈ tail, a ∈ blank) :
    behind c (s ++ tail) = behind c s ↔
      tail = [] ∨ (s = [] ∧ tail.dropWhile (· ≠ c) = [c]) := by
  by_cases inside : c ∈ s
  · have nonempty : s ≠ [] := List.ne_nil_of_mem inside
    rw [behind_append_of_mem inside]
    simp [nonempty]
  · rw [behind_of_notMem inside]
    by_cases inTail : c ∈ tail
    · obtain ⟨lead, rest, rfl, free⟩ := List.eq_append_cons_of_mem inTail
      rw [← List.append_assoc, behind_append (by simp [inside, free]), dropWhile_append free]
      simp only [List.append_eq_nil_iff, List.cons_ne_nil, and_false, false_or, List.cons.injEq,
        true_and]
      constructor
      · rintro rfl
        -- All of `rest` is blank, and its last character is not.
        have none : rest = [] := by
          by_contra some
          have last := List.getLast?_eq_some_getLast some
          exact trimmed _ last (blanks _ (by simp [List.getLast_mem some]))
        exact ⟨none, none⟩
      · rintro ⟨rfl, rfl⟩
        rfl
    · rw [behind_of_notMem (by simp [inside, inTail]), dropWhile_of_notMem inTail]
      simp

/-- Only letters are the lower case of anything else. -/
theorem eq_of_toLower {c d : Char} (same : c.toLower = d) (other : ¬ ('a' ≤ d ∧ d ≤ 'z')) :
    c = d := by
  unfold Char.toLower at same
  split at same
  · next upper =>
      have low : 65 ≤ c.val.toNat := UInt32.le_iff_toNat_le.mp upper.1
      have high : c.val.toNat ≤ 90 := UInt32.le_iff_toNat_le.mp upper.2
      have value : d.val.toNat = c.val.toNat + 32 := by
        rw [← same]
        exact Nat.mod_eq_of_lt (by change c.val.toNat + 32 < 2 ^ 32; omega)
      refine absurd ⟨?_, ?_⟩ other
      · rw [Char.le_def, UInt32.le_iff_toNat_le]
        change 97 ≤ d.val.toNat
        omega
      · rw [Char.le_def, UInt32.le_iff_toNat_le]
        change d.val.toNat ≤ 122
        omega
  · exact same

end CPrograms.Library.StdString
