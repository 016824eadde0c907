import CPrograms.Redis.Networking

/-!
# Requests to redis

The text of requests, and how much of it a client can use when only a part has arrived: the text is
made of units, and a unit is used when all of it is there. The arguments of a command are read
here; lines and whole requests follow in `Protocol`.
-/

namespace CPrograms.Redis

open Library Library.Decimal

/-! ## Units of the text -/

/-- A buffer at the start of a text holds less than the first unit of it, or the unit. -/
theorem unit_cases {α : Type*} {buffer unread unit rest : List α}
    (text : buffer ++ unread = unit ++ rest) :
    (buffer.length < unit.length ∧ buffer <+: unit) ∨
      ∃ more, buffer = unit ++ more ∧ more ++ unread = rest := by
  rcases List.append_eq_append_iff.mp text with ⟨missing, whole, -⟩ | ⟨more, whole, tail⟩
  · cases missing with
    | nil => exact .inr ⟨[], by rw [whole, List.append_nil, List.append_nil], by simp_all⟩
    | cons byte missing =>
        refine .inl ⟨?_, ⟨_, whole.symm⟩⟩
        rw [whole, List.length_append, List.length_cons]
        omega
  · exact .inr ⟨more, whole, tail.symm⟩

/-- A character that does not occur is not found. -/
theorem strchr_eq_none {character : UInt8} {s : Bytes} (absent : character ∉ s) :
    strchr character s = none := by
  induction s with
  | nil => rfl
  | cons byte s ih =>
      rw [List.mem_cons, not_or] at absent
      rw [strchr, if_neg (Ne.symm absent.1), ih absent.2]
      exact ite_self none

/-- A character is found behind a text without it. -/
theorem strchr_append {character : UInt8} {line : Bytes} (absent : character ∉ line)
    (text : 0 ∉ line) (rest : Bytes) :
    strchr character (line ++ character :: rest) = some line.length := by
  induction line with
  | nil => rw [List.nil_append, strchr, if_pos rfl, List.length_nil]
  | cons byte line ih =>
      rw [List.mem_cons, not_or] at absent text
      rw [List.cons_append, strchr, if_neg (Ne.symm absent.1), if_neg (Ne.symm text.1),
        ih absent.2 text.2]
      rfl

/-- The end of a line. -/
def crlf : Bytes := [13, 10]

/-- In a line that is not complete there is no `\r`, or it is the last byte. -/
theorem strchr_of_prefix {line buffer : Bytes} (absent : 13 ∉ line) (text : 0 ∉ line)
    (part : buffer <+: line ++ crlf) (short : buffer.length < (line ++ crlf).length) :
    strchr 13 buffer = none ∨
      strchr 13 buffer = some line.length ∧ buffer.length = line.length + 1 := by
  have part' : buffer <+: line ++ [13] := by
    rw [crlf, List.append_cons] at part
    rcases List.prefix_concat_iff.mp part with whole | shorter
    · rw [whole] at short
      simp [crlf] at short
    · exact shorter
  rcases List.prefix_concat_iff.mp part' with rfl | shorter
  · exact .inr ⟨strchr_append absent text [], by simp⟩
  · exact .inl (strchr_eq_none fun member => absent (shorter.subset member))

/-- The line that says how many arguments, or bytes, there are. -/
def countLine (sign : UInt8) (count : Nat) : Bytes := sign :: numeral count ++ crlf

/-- Only digits stand behind the sign of a count. -/
theorem not_mem_count {sign character : UInt8} {count : Nat} (other : character ≠ sign)
    (notDigit : isDigit character = false) : character ∉ sign :: numeral count := by
  rintro member
  rcases List.mem_cons.mp member with same | digit
  · exact other same
  · rw [isDigit_of_mem_numeral digit] at notDigit
    cases notDigit

/-- A count is read as the number it is. -/
theorem string2ll_numeral {count : Nat} (small : count < 2 ^ 63) :
    string2ll (numeral count) = some (count : Int) := by
  have read := string2ll_decimalText (v := count) (by omega) (by omega)
  rwa [decimalText_natCast] at read

/-- **Requests**: lines, and commands with their arguments. -/
inductive Request where
  | line (text : Bytes)
  | command (args : List Bytes)

/-- An argument, behind its length. -/
def bulk (arg : Bytes) : Bytes := countLine 36 arg.length ++ (arg ++ crlf)

/-- The bytes of a request. -/
def Request.encode : Request → Bytes
  | line text => text ++ crlf
  | command args => countLine 42 args.length ++ args.flatMap bulk

/-- The arguments of a request; an empty line and an empty command have none. -/
def Request.args : Request → List Bytes
  | line text => ((sdssplitargs text).getD []).filter (· ≠ [])
  | command args => args

/-- The requests the server accepts. -/
def Request.Valid : Request → Prop
  | line text => text.length < protoInlineMaxSize ∧ 10 ∉ text ∧ 0 ∉ text ∧
      text.head? ≠ some 42 ∧ (sdssplitargs text).isSome
  | command args => args.length ≤ 1024 * 1024 ∧ ∀ arg ∈ args, arg.length ≤ 512 * 1024 * 1024

instance Request.decidableValid : (request : Request) → Decidable request.Valid
  | line _ => inferInstanceAs (Decidable (_ < _ ∧ _ ∉ _ ∧ _ ∉ _ ∧ _ ≠ _ ∧ _))
  | command _ => inferInstanceAs (Decidable (_ ≤ _ ∧ ∀ arg ∈ _, _))

/-- The type a request is found to have. -/
def Request.reqtype : Request → ReqType
  | line _ => .inline
  | command _ => .multibulk

/-- The commands of requests. -/
def commands (requests : List Request) : List (List Bytes) :=
  (requests.map Request.args).filter (· ≠ [])

/-- The bytes of requests, one behind the other. -/
def encode (requests : List Request) : Bytes := requests.flatMap Request.encode

/-! ## Arguments -/

/-- The length of an argument is awaited until its line is complete. -/
theorem readBulkLength_wait {c : Client} {pos count : Nat} (unknown : c.bulklen = none)
    (part : c.querybuf.drop pos <+: countLine 36 count)
    (short : (c.querybuf.drop pos).length < (countLine 36 count).length)
    (small : c.querybuf.length ≤ protoInlineMaxSize) : readBulkLength c pos = .wait := by
  rw [readBulkLength, unknown]
  simp only
  rcases strchr_of_prefix (not_mem_count (by decide) (by decide))
    (not_mem_count (by decide) (by decide)) part short with none | ⟨found, last⟩
  · rw [none]
    exact if_neg (Nat.not_lt.mpr small)
  · rw [found]
    rw [List.length_drop] at last
    exact if_pos (by omega)

/-- The length of an argument is read, and what is behind it is at the new position. -/
theorem readBulkLength_line {c : Client} {pos count : Nat} {more : Bytes}
    (unknown : c.bulklen = none) (text : c.querybuf.drop pos = countLine 36 count ++ more)
    (small : count ≤ 512 * 1024 * 1024) :
    ∃ trimmed pos', readBulkLength c pos =
        .ready { c with querybuf := c.querybuf.drop trimmed, bulklen := some count } pos' count ∧
      (c.querybuf.drop trimmed).drop pos' = more := by
  have line : c.querybuf.drop pos = 36 :: (numeral count ++ 13 :: 10 :: more) := by
    rw [text]
    simp [countLine, crlf]
  have found : strchr 13 ((36 :: numeral count) ++ 13 :: 10 :: more) =
      some (36 :: numeral count).length :=
    strchr_append (not_mem_count (by decide) (by decide)) (not_mem_count (by decide) (by decide)) _
  have behind : c.querybuf.drop (pos + (36 :: numeral count).length + 2) = more := by
    rw [Nat.add_assoc, ← List.drop_drop, line]
    simp
  have long : ¬ c.querybuf.length < pos + (36 :: numeral count).length + 2 := by
    have length := congrArg List.length line
    simp only [List.length_drop, List.length_cons, List.length_append] at length ⊢
    omega
  have digits : (numeral count ++ 13 :: 10 :: more).take ((36 :: numeral count).length - 1) =
      numeral count := by simp
  have fits : ¬ ((count : Int) < 0 ∨ 512 * 1024 * 1024 < (count : Int)) := by omega
  rw [readBulkLength, unknown]
  simp only
  rw [line, ← List.cons_append, found]
  simp only [if_neg long, List.cons_append, digits,
    string2ll_numeral (show count < 2 ^ 63 by omega), if_neg fits, Int.toNat_natCast]
  split
  · exact ⟨_, 0, rfl, by rw [List.drop_zero, behind]⟩
  · exact ⟨0, _, rfl, by rw [List.drop_zero, behind]⟩

/-- An argument whose length is known is awaited, or taken. -/
theorem readArguments_body (left : Nat) {pos pos' : Nat} {c c' : Client} {arg unread rest : Bytes}
    (ready : readBulkLength c pos = .ready c' pos' arg.length)
    (text : c'.querybuf.drop pos' ++ unread = (arg ++ crlf) ++ rest)
    (small : c'.querybuf.length ≤ protoInlineMaxSize ∨
      pos' = 0 ∧ protoMbulkBigArg ≤ arg.length ∧ c'.querybuf.length ≤ arg.length + 2) :
    ((c'.querybuf.drop pos').length < (arg ++ crlf).length ∧
      readArguments (left + 1) c pos =
        ({ c' with querybuf := c'.querybuf.drop pos', multibulklen := left + 1 }, false)) ∨
    ∃ querybuf pos'', querybuf.drop pos'' ++ unread = rest ∧
      querybuf.length ≤ protoInlineMaxSize ∧
      readArguments (left + 1) c pos =
        readArguments left
          { c' with argv := c'.argv ++ [arg], querybuf := querybuf, bulklen := none } pos'' := by
  have length : (arg ++ crlf).length = arg.length + 2 := by rw [List.length_append]; rfl
  rw [readArguments, ready]
  simp only [← List.length_drop, length]
  rcases unit_cases text with ⟨short, -⟩ | ⟨more, whole, tail⟩
  · rw [length] at short
    exact .inl ⟨short, if_pos short⟩
  · right
    have bytes : (c'.querybuf.drop pos').length = arg.length + 2 + more.length := by
      rw [whole, List.length_append, length]
    have taken : (c'.querybuf.drop pos').take arg.length = arg := by
      rw [whole, List.append_assoc, List.take_left]
    rw [if_neg (by omega)]
    split_ifs with just
    · obtain ⟨rfl, -, exactly⟩ := just
      rw [List.drop_zero] at bytes taken
      have nothing : more = [] := List.length_eq_zero_iff.mp (by omega)
      subst nothing
      rw [taken]
      exact ⟨[], 0, tail, Nat.zero_le _, rfl⟩
    · rw [taken]
      refine ⟨c'.querybuf, pos' + arg.length + 2, ?_, ?_, rfl⟩
      · rw [Nat.add_assoc, ← List.drop_drop, whole, ← length, List.drop_left, tail]
      · rcases small with small | ⟨rfl, big, within⟩
        · exact small
        · rw [List.drop_zero] at bytes
          exact absurd ⟨rfl, big, by omega⟩ just

/-- **What is owed** of a command in the middle of it: the length of an argument or the rest of it,
and the arguments behind. `need` is the number of bytes with which the client can go on. -/
inductive Owes (rest : Bytes) (command : List Bytes) (c : Client) (text : Bytes) :
    (need : Nat) → Prop where
  | length (arg : Bytes) (args : List Bytes) (split : command = c.argv ++ arg :: args)
      (left : c.multibulklen = args.length + 1) (unknown : c.bulklen = none)
      (owed : text = (arg :: args).flatMap bulk ++ rest) :
      Owes rest command c text (countLine 36 arg.length).length
  | body (arg : Bytes) (args : List Bytes) (split : command = c.argv ++ arg :: args)
      (left : c.multibulklen = args.length + 1) (known : c.bulklen = some arg.length)
      (owed : text = (arg ++ crlf) ++ (args.flatMap bulk ++ rest)) :
      Owes rest command c text (arg ++ crlf).length

/-- What comes of reading arguments: the command, or the client waits for more of it. -/
def Outcome (unread rest : Bytes) (command : List Bytes) (c : Client) (result : Client × Bool) :
    Prop :=
  ∃ querybuf argv left bulklen,
    result.1 = { c with querybuf := querybuf, argv := argv, multibulklen := left,
                        bulklen := bulklen } ∧
    if result.2 then
      argv = command ∧ querybuf ++ unread = rest ∧ querybuf.length ≤ protoInlineMaxSize
    else ∃ need, Owes rest command result.1 (querybuf ++ unread) need ∧ querybuf.length < need

/-- The outcome depends only on the other fields. -/
theorem Outcome.of_update {unread rest : Bytes} {command : List Bytes} {c c' : Client}
    {result : Client × Bool}
    (same : ∃ querybuf argv bulklen, c' = { c with querybuf := querybuf, argv := argv,
                                                   bulklen := bulklen })
    (outcome : Outcome unread rest command c' result) : Outcome unread rest command c result := by
  obtain ⟨_, _, _, rfl⟩ := same
  exact outcome

/-- **Arguments are read** as far as they have arrived. -/
theorem readArguments_length {unread rest : Bytes} {command : List Bytes}
    (small : ∀ arg ∈ command, arg.length ≤ 512 * 1024 * 1024) (args : List Bytes) {c : Client}
    {pos : Nat} (split : command = c.argv ++ args) (unknown : c.bulklen = none)
    (text : c.querybuf.drop pos ++ unread = args.flatMap bulk ++ rest)
    (bound : c.querybuf.length ≤ protoInlineMaxSize) :
    Outcome unread rest command c (readArguments args.length c pos) := by
  induction args generalizing c pos with
  | nil =>
      rw [List.append_nil] at split
      refine ⟨c.querybuf.drop pos, c.argv, 0, none, ?_, split.symm, text, ?_⟩
      · rw [← unknown]
        rfl
      · exact (List.drop_sublist ..).length_le.trans bound
  | cons arg args ih =>
      have text' : c.querybuf.drop pos ++ unread =
          countLine 36 arg.length ++ ((arg ++ crlf) ++ (args.flatMap bulk ++ rest)) := by
        rw [text, List.flatMap_cons, bulk]
        simp only [List.append_assoc]
      rcases unit_cases text' with ⟨short, part⟩ | ⟨more, line, tail⟩
      · have waits := readBulkLength_wait unknown part short bound
        rw [List.length_cons, readArguments, waits]
        exact ⟨c.querybuf.drop pos, c.argv, args.length + 1, c.bulklen, rfl, _,
          .length arg args split rfl unknown text, short⟩
      · obtain ⟨trimmed, pos', ready, behind⟩ := readBulkLength_line unknown line
          (small arg (by rw [split]; simp))
        have bound' : (c.querybuf.drop trimmed).length ≤ protoInlineMaxSize :=
          (List.drop_sublist ..).length_le.trans bound
        rw [← behind] at tail
        rcases readArguments_body args.length ready tail (.inl bound') with
          ⟨short, waits⟩ | ⟨querybuf, pos'', text'', bound'', goes⟩
        · rw [List.length_cons, waits]
          exact ⟨_, c.argv, args.length + 1, some arg.length, rfl, _,
            .body arg args split rfl rfl tail, short⟩
        · rw [List.length_cons, goes]
          refine (ih ?_ rfl text'' bound'').of_update ⟨_, _, _, rfl⟩
          rw [split, List.append_assoc]
          rfl

/-- The client goes on in the middle of a command. -/
theorem readArguments_owes {unread rest : Bytes} {command : List Bytes} {c : Client} {need : Nat}
    (small : ∀ arg ∈ command, arg.length ≤ 512 * 1024 * 1024)
    (owes : Owes rest command c (c.querybuf ++ unread) need)
    (bound : c.querybuf.length ≤ protoInlineMaxSize ∨
      ∃ bulklen, c.bulklen = some bulklen ∧ protoMbulkBigArg ≤ bulklen ∧
        c.querybuf.length ≤ bulklen + 2) :
    Outcome unread rest command c (readArguments c.multibulklen c 0) := by
  cases owes with
  | length arg args split left unknown owed =>
      rw [left]
      refine readArguments_length small (arg :: args) split unknown ?_ ?_
      · rwa [List.drop_zero]
      · rcases bound with bound | ⟨_, known, -⟩
        · exact bound
        · rw [unknown] at known
          cases known
  | body arg args split left known owed =>
      have ready : readBulkLength c 0 = .ready c 0 arg.length := by rw [readBulkLength, known]
      have bound' : c.querybuf.length ≤ protoInlineMaxSize ∨
          0 = 0 ∧ protoMbulkBigArg ≤ arg.length ∧ c.querybuf.length ≤ arg.length + 2 := by
        rcases bound with bound | ⟨bulklen, known', big⟩
        · exact .inl bound
        · rw [known] at known'
          cases known'
          exact .inr ⟨rfl, big⟩
      have text : c.querybuf.drop 0 ++ unread = (arg ++ crlf) ++ (args.flatMap bulk ++ rest) := by
        rwa [List.drop_zero]
      rw [left]
      rcases readArguments_body args.length ready text bound' with
        ⟨short, waits⟩ | ⟨querybuf, pos, text', bound'', goes⟩
      · rw [waits]
        exact ⟨_, c.argv, args.length + 1, some arg.length, by rw [← known], _,
          .body arg args split rfl known text, short⟩
      · rw [goes]
        refine (readArguments_length small args ?_ rfl text' bound'').of_update ⟨_, _, _, rfl⟩
        rw [split, List.append_assoc]
        rfl

end CPrograms.Redis
