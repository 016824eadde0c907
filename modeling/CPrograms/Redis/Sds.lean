import CPrograms.Library.CString

/-!
# Quoting in redis

`sdscatrepr` quotes a string, and `sdssplitargs` splits a line into arguments, which may be quoted.
A line of quoted strings is split into the strings, whatever bytes they have.
-/

namespace CPrograms.Redis

open Library

/-- Bytes of a string or a buffer. -/
abbrev Bytes := List UInt8

/-- `isprint` in the C locale. -/
def isPrint (byte : UInt8) : Bool := 32 ≤ byte && byte ≤ 126

/-- A digit of `%02x`. -/
def hexDigit (n : Nat) : UInt8 := if n < 10 then UInt8.ofNat (48 + n) else UInt8.ofNat (87 + n)

/-- The bytes that `sdscatrepr` appends for a byte. -/
def reprByte (byte : UInt8) : Bytes :=
  if byte = 92 ∨ byte = 34 then [92, byte]
  else if byte = 10 then [92, 110]
  else if byte = 13 then [92, 114]
  else if byte = 9 then [92, 116]
  else if byte = 7 then [92, 97]
  else if byte = 8 then [92, 98]
  else if isPrint byte then [byte]
  else [92, 120, hexDigit (byte.toNat / 16), hexDigit (byte.toNat % 16)]

/-- Append to a string an escaped string representation where all the non-printable characters are
turned into escapes. -/
def sdscatrepr (s p : Bytes) : Bytes := s ++ [34] ++ p.flatMap reprByte ++ [34]

/-- Is it a valid hex digit? -/
def isHexDigit (c : UInt8) : Bool := (48 ≤ c && c ≤ 57) || (97 ≤ c && c ≤ 102) || (65 ≤ c && c ≤ 70)

/-- Convert a hex digit into an integer from 0 to 15. -/
def hexDigitToInt (c : UInt8) : Nat :=
  if 48 ≤ c ∧ c ≤ 57 then c.toNat - 48
  else if 97 ≤ c ∧ c ≤ 102 then c.toNat - 87
  else if 65 ≤ c ∧ c ≤ 70 then c.toNat - 55
  else 0

/-- The character that an escape stands for. -/
def unescaped (c : UInt8) : UInt8 :=
  if c = 110 then 10
  else if c = 114 then 13
  else if c = 116 then 9
  else if c = 98 then 8
  else if c = 97 then 7
  else c

/-- Whether a token is in quotes: `inq` and `insq`. -/
inductive Quotes where
  | none
  | double
  | single

/-- A closing quote must be followed by a space or nothing at all. -/
def closes (rest : Bytes) : Bool :=
  match rest with
  | [] => true
  | c :: _ => isSpace c

/-- The loop that gets a token: the token and what is behind it, or `none` for `err`. -/
def getToken : Quotes → Bytes → Bytes → Option (Bytes × Bytes)
  | .double, current, 92 :: 120 :: high :: low :: rest =>
      if isHexDigit high && isHexDigit low then
        let byte := UInt8.ofNat (hexDigitToInt high * 16 + hexDigitToInt low)
        getToken .double (current ++ [byte]) rest
      else getToken .double (current ++ [unescaped 120]) (high :: low :: rest)
  | .double, current, 92 :: c :: rest => getToken .double (current ++ [unescaped c]) rest
  | .double, current, 34 :: rest => if closes rest then some (current, rest) else none
  | .double, _, [] => none
  | .double, current, c :: rest => getToken .double (current ++ [c]) rest
  | .single, current, 92 :: 39 :: rest => getToken .single (current ++ [39]) rest
  | .single, current, 39 :: rest => if closes rest then some (current, rest) else none
  | .single, _, [] => none
  | .single, current, c :: rest => getToken .single (current ++ [c]) rest
  | .none, current, [] => some (current, [])
  | .none, current, c :: rest =>
      if c = 32 ∨ c = 10 ∨ c = 13 ∨ c = 9 then some (current, rest)
      else if c = 34 then getToken .double current rest
      else if c = 39 then getToken .single current rest
      else getToken .none (current ++ [c]) rest

/-- A token uses up some of the line. -/
theorem getToken_shorter {quotes : Quotes} {current p token rest : Bytes}
    (got : getToken quotes current p = some (token, rest)) : rest.length ≤ p.length - 1 := by
  fun_induction getToken quotes current p <;> grind

set_option linter.unusedVariables false in
/-- The loop over the tokens of a line. -/
def splitLoop (p : Bytes) : Option (List Bytes) :=
  match blanks : p.dropWhile isSpace with
  | [] => some []
  | c :: p' =>
      match got : getToken .none [] (c :: p') with
      | none => none
      | some (token, rest) => (splitLoop rest).map (token :: ·)
termination_by p.length
decreasing_by
  have shorter := getToken_shorter got
  have suffix := (List.dropWhile_suffix isSpace (l := p)).length_le
  rw [blanks] at suffix
  simp only [List.length_cons] at shorter suffix
  omega

/-- Split a line into arguments. The line ends at its NUL. -/
def sdssplitargs (line : Bytes) : Option (List Bytes) := splitLoop (line.takeWhile (· ≠ 0))

/-! ## Quoted strings are read back -/

/-- A byte in hexadecimal digits is read as that byte. -/
theorem getToken_hex {high low : UInt8} (digit : isHexDigit high = true)
    (digit' : isHexDigit low = true) (current rest : Bytes) :
    getToken .double current (92 :: 120 :: high :: low :: rest) =
      getToken .double
        (current ++ [UInt8.ofNat (hexDigitToInt high * 16 + hexDigitToInt low)]) rest := by
  rw [getToken, digit, digit']
  rfl

/-- An escaped character is read as the byte it stands for. -/
theorem getToken_escape {c : UInt8} (other : c ≠ 120) (current rest : Bytes) :
    getToken .double current (92 :: c :: rest) =
      getToken .double (current ++ [unescaped c]) rest := by
  rw [getToken]
  simp [other]

/-- Other characters are read as they are. -/
theorem getToken_other {c : UInt8} (notEscape : c ≠ 92) (notQuote : c ≠ 34)
    (current rest : Bytes) :
    getToken .double current (c :: rest) = getToken .double (current ++ [c]) rest := by
  rw [getToken.eq_5]
  · simp [notEscape]
  · simp [notEscape]
  · simp [notQuote]

/-- Two hex digits say what a byte is. -/
theorem hexDigit_spec (byte : UInt8) :
    isHexDigit (hexDigit (byte.toNat / 16)) = true ∧
      isHexDigit (hexDigit (byte.toNat % 16)) = true ∧
      hexDigitToInt (hexDigit (byte.toNat / 16)) * 16 +
        hexDigitToInt (hexDigit (byte.toNat % 16)) = byte.toNat := by
  have all : ∀ n < 256, isHexDigit (hexDigit (n / 16)) = true ∧
      isHexDigit (hexDigit (n % 16)) = true ∧
      hexDigitToInt (hexDigit (n / 16)) * 16 + hexDigitToInt (hexDigit (n % 16)) = n := by
    decide +kernel
  exact all byte.toNat byte.toNat_lt

/-- **One byte.** What is appended for a byte is read as that byte. -/
theorem getToken_reprByte (byte : UInt8) (current rest : Bytes) :
    getToken .double current (reprByte byte ++ rest) =
      getToken .double (current ++ [byte]) rest := by
  rw [reprByte]
  split_ifs with quoted newline carriage tab bell back print
  · have self : unescaped byte = byte := by rcases quoted with rfl | rfl <;> rfl
    have other : byte ≠ 120 := by rcases quoted with rfl | rfl <;> decide
    rw [List.cons_append, List.cons_append, List.nil_append, getToken_escape other, self]
  · exact newline ▸ getToken_escape (by decide) current rest
  · exact carriage ▸ getToken_escape (by decide) current rest
  · exact tab ▸ getToken_escape (by decide) current rest
  · exact bell ▸ getToken_escape (by decide) current rest
  · exact back ▸ getToken_escape (by decide) current rest
  · exact getToken_other (fun same => quoted (.inl same)) (fun same => quoted (.inr same)) _ _
  · obtain ⟨high, low, value⟩ := hexDigit_spec byte
    have read := getToken_hex high low current rest
    rw [value, UInt8.ofNat_toNat] at read
    exact read

/-- The quoted form of some bytes is read as those bytes. -/
theorem getToken_repr (p current rest : Bytes) :
    getToken .double current (p.flatMap reprByte ++ 34 :: rest) =
      if closes rest then some (current ++ p, rest) else none := by
  induction p generalizing current with
  | nil =>
      rw [List.append_nil]
      exact getToken.eq_3 current rest
  | cons byte p ih =>
      rw [List.flatMap_cons, List.append_assoc, getToken_reprByte, ih, List.append_assoc]
      rfl

/-- A quoted string at the start of a line is its first argument. -/
theorem splitLoop_repr (p : Bytes) {rest : Bytes} (closed : closes rest = true) :
    splitLoop (sdscatrepr [] p ++ rest) = (splitLoop rest).map (p :: ·) := by
  have line : sdscatrepr [] p ++ rest = 34 :: (p.flatMap reprByte ++ 34 :: rest) := by
    rw [sdscatrepr, List.append_assoc]
    rfl
  have solid : (34 :: (p.flatMap reprByte ++ 34 :: rest)).dropWhile isSpace =
      34 :: (p.flatMap reprByte ++ 34 :: rest) := rfl
  have got : getToken .none [] (34 :: (p.flatMap reprByte ++ 34 :: rest)) = some (p, rest) := by
    have read := getToken_repr p [] rest
    rwa [closed, if_pos rfl] at read
  rw [line, splitLoop, solid]
  simp only
  split
  · next failed => cases failed.symm.trans got
  · next token rest' got' =>
      cases got'.symm.trans got
      rfl

/-- A blank in front does not matter. -/
theorem splitLoop_blank (p : Bytes) : splitLoop (32 :: p) = splitLoop p := by
  have same : (32 :: p).dropWhile isSpace = p.dropWhile isSpace := rfl
  rw [splitLoop, splitLoop, same]

/-- The line that lists strings as `MONITOR` does. -/
def reprLine (args : List Bytes) : Bytes := List.intercalate [32] (args.map (sdscatrepr []))

/-- The line of one argument. -/
theorem reprLine_singleton (arg : Bytes) : reprLine [arg] = sdscatrepr [] arg := by
  simp [reprLine]

/-- The arguments of a line are separated by blanks. -/
theorem reprLine_cons (arg next : Bytes) (args : List Bytes) :
    reprLine (arg :: next :: args) = sdscatrepr [] arg ++ 32 :: reprLine (next :: args) := by
  simp [reprLine, List.intercalate]

/-- The quoted form of some arguments is split into them. -/
theorem splitLoop_reprLine (args : List Bytes) : splitLoop (reprLine args) = some args := by
  have nothing : splitLoop [] = some [] := by
    rw [splitLoop]
    rfl
  induction args with
  | nil => exact nothing
  | cons arg args ih =>
      cases args with
      | nil =>
          rw [reprLine_singleton, ← List.append_nil (sdscatrepr [] arg), splitLoop_repr arg rfl,
            nothing]
          rfl
      | cons next args =>
          rw [reprLine_cons, splitLoop_repr arg rfl, splitLoop_blank, ih]
          rfl

/-- Everything in a quoted string is printable. -/
theorem isPrint_of_mem_sdscatrepr {p : Bytes} {byte : UInt8} (member : byte ∈ sdscatrepr [] p) :
    isPrint byte = true := by
  have all : ∀ n < 256, (reprByte (UInt8.ofNat n)).all isPrint = true := by decide +kernel
  simp only [sdscatrepr, List.nil_append, List.mem_append, List.mem_flatMap,
    List.mem_singleton] at member
  rcases member with (rfl | ⟨source, -, inside⟩) | rfl
  · rfl
  · have found := all source.toNat source.toNat_lt
    rw [UInt8.ofNat_toNat] at found
    exact List.all_eq_true.mp found byte inside
  · rfl

/-- The quoted form is printable. -/
theorem isPrint_of_mem_reprLine {args : List Bytes} {byte : UInt8}
    (member : byte ∈ reprLine args) : isPrint byte = true := by
  induction args with
  | nil => cases member
  | cons arg args ih =>
      cases args with
      | nil => exact isPrint_of_mem_sdscatrepr (reprLine_singleton arg ▸ member)
      | cons next args =>
          rw [reprLine_cons, List.mem_append, List.mem_cons] at member
          rcases member with inside | rfl | later
          · exact isPrint_of_mem_sdscatrepr inside
          · rfl
          · exact ih later

/-- **Quoted strings are read back.** A line of quoted strings is split into the strings, whatever
bytes they have. -/
theorem sdssplitargs_sdscatrepr (args : List Bytes) : sdssplitargs (reprLine args) = some args := by
  have whole : (reprLine args).takeWhile (· ≠ 0) = reprLine args := by
    rw [List.takeWhile_eq_self_iff]
    intro byte member
    rw [decide_eq_true_eq]
    rintro rfl
    exact absurd (isPrint_of_mem_reprLine member) (by decide)
  rw [sdssplitargs, whole, splitLoop_reprLine]

end CPrograms.Redis
