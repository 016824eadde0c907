import CPrograms.Library.Runs
import CPrograms.Redis.Requests

/-!
# The request protocol of redis

A client sends requests one behind the other. However the bytes are cut into reads, the commands
are executed in their order, and each as soon as its last byte was read, provided that they leave
the client open and unblocked and that clients are not paused.
-/

namespace CPrograms.Redis

open Library Library.Decimal

variable {σ : Type} {server : Server σ}

/-! ## The server -/

/-- A command that leaves the client open and unblocked: it is not `QUIT`, and the flags stay as
they are. -/
def Server.Keeps (server : Server σ) (argv : List Bytes) : Prop :=
  isQuit argv = false ∧
    ∀ s, ∃ s' replies, server.call s .initial argv = (s', .done .initial replies)

/-- A server that serves requests without interruption. -/
structure Server.Serves (server : Server σ) (requests : List Request) : Prop where
  unpaused : server.Unpaused
  keeps : ∀ argv ∈ commands requests, server.Keeps argv

/-- A command that leaves the client open is executed, whether the server knows it or not. -/
theorem Server.Keeps.processCommand {c : Client} (keeps : server.Keeps c.argv)
    (flags : c.flags = .initial) (s : σ) :
    ∃ s' replies, processCommand server s c =
      (s', { c with executed := c.executed ++ [c.argv], replies := replies }, true) := by
  obtain ⟨notQuit, called⟩ := keeps
  obtain ⟨s', replies, called⟩ := called s
  rw [Redis.processCommand]
  simp only [notQuit, Bool.false_eq_true, if_false]
  split
  · exact ⟨s, _, rfl⟩
  · split
    · exact ⟨s, _, rfl⟩
    · rw [flags, called, ← flags]
      exact ⟨s', _, rfl⟩

/-- And the client awaits the next request. -/
theorem Server.Keeps.executeRequest {c : Client} (keeps : server.Keeps c.argv)
    (flags : c.flags = .initial) (connected : c.freed = none) (args : c.argv ≠ []) (s : σ) :
    ∃ s' replies, executeRequest server s c =
      (s', { resetClient c with executed := c.executed ++ [c.argv], replies := replies },
        true) := by
  obtain ⟨s', replies, processed⟩ := keeps.processCommand flags s
  have unblocked : c.flags.blocked ≠ some .module := by
    rw [flags]
    exact (Option.some_ne_none _).symm
  refine ⟨s', replies, ?_⟩
  rw [Redis.executeRequest, if_neg args, processed]
  simp only
  rw [if_pos ⟨trivial, unblocked⟩]
  exact Prod.ext rfl (Prod.ext rfl (by rw [connected]; rfl))

/-- A client with no flags set is suspended only by a pause. -/
theorem Server.Unpaused.suspended (unpaused : server.Unpaused) (s : σ) {c : Client}
    (flags : c.flags = .initial) : ∃ s', suspended server s c.flags = (s', false) := by
  refine ⟨(server.clientsArePaused s).1, ?_⟩
  rw [flags, Redis.suspended]
  simp [Flags.initial, unpaused s]

/-! ## Requests -/

/-- The first bytes of requests, without which nothing can be done. -/
def firstUnit : List Request → Bytes
  | [] => []
  | .line text :: _ => text ++ crlf
  | .command args :: _ => countLine 42 args.length

/-- **What a client awaits**: the `text` that is left of its requests. It goes on when it has `need`
bytes. -/
inductive Awaits (c : Client) (text : Bytes) : (need : Nat) → (current : List Request) → Prop where
  | request (requests : List Request) (valid : ∀ request ∈ requests, request.Valid)
      (owed : text = encode requests) (left : c.multibulklen = 0) (unknown : c.bulklen = none)
      (fresh : c.argv = [])
      (kind : c.reqtype = .unknown ∨ requests.head?.map Request.reqtype = some c.reqtype) :
      Awaits c text (firstUnit requests).length requests
  | arguments (command : List Bytes) (requests : List Request) {need : Nat}
      (small : ∀ arg ∈ command, arg.length ≤ 512 * 1024 * 1024)
      (valid : ∀ request ∈ requests, request.Valid) (kind : c.reqtype = .multibulk)
      (owes : Owes (encode requests) command c text need) :
      Awaits c text need (.command command :: requests)

/-- A client without errors that has executed the requests `done` and awaits the others. -/
structure Standing (unread : Bytes) (requests : List Request) (c : Client) (need : Nat) : Prop where
  awaits : ∃ done current, requests = done ++ current ∧ c.executed = commands done ∧
    Awaits c (c.querybuf ++ unread) need current
  flags : c.flags = .initial
  connected : c.freed = none
  quiet : c.errors = []

/-- How much there can be in the buffer: a line, or a big argument, may be longer than the
limit for lines without their end. -/
def Room (c : Client) (need : Nat) : Prop :=
  c.querybuf.length ≤ protoInlineMaxSize ∨
    (c.reqtype = .inline ∧ c.querybuf.length ≤ need + protoIobufLen) ∨
    ∃ bulklen, c.bulklen = some bulklen ∧ protoMbulkBigArg ≤ bulklen ∧
      c.querybuf.length ≤ bulklen + 2

/-- A type that is known stays as it is. -/
theorem determineType_of_known {c : Client} (known : c.reqtype ≠ .unknown) :
    determineType c = c := if_neg known

/-- A line is made a command and executed. -/
theorem processRequest_of_inline (s : σ) {c : Client} (kind : c.reqtype = .inline) :
    processRequest server s c = some (if (processInlineBuffer c).2 then
        executeRequest server s (processInlineBuffer c).1
      else (s, (processInlineBuffer c).1, false)) := by
  have known : c.reqtype ≠ .unknown := by
    rw [kind]
    decide
  rw [processRequest, parseRequest, determineType_of_known known]
  simp only [kind, reduceCtorEq, if_false, Option.map_some]

/-- Arguments are made a command and executed. -/
theorem processRequest_of_multibulk (s : σ) {c : Client} (kind : c.reqtype = .multibulk) :
    processRequest server s c = (processMultibulkBuffer c).map fun result =>
      if result.2 then executeRequest server s result.1 else (s, result.1, false) := by
  have known : c.reqtype ≠ .unknown := by
    rw [kind]
    decide
  rw [processRequest, parseRequest, determineType_of_known known]
  simp only [kind, if_true]

/-- What is done with a request. -/
def Processed (unread : Bytes) (requests : List Request) (result : Option (σ × Client × Bool)) :
    Prop :=
  ∃ s c more need, result = some (s, c, more) ∧ Standing unread requests c need ∧
    if more then c.querybuf.length ≤ protoInlineMaxSize
    else c.reqtype ≠ .unknown ∧ c.querybuf.length < need

/-- The commands of requests with one more behind. -/
theorem commands_concat (done : List Request) (request : Request) :
    commands (done ++ [request]) =
      if request.args = [] then commands done else commands done ++ [request.args] := by
  rw [commands, commands, List.map_append, List.filter_append]
  by_cases empty : request.args = [] <;> simp [empty]

/-- The command of a request is executed, if there is one, and the next request awaited. -/
theorem processed_command {unread : Bytes} (request : Request) {done requests : List Request}
    (serves : server.Serves (done ++ request :: requests))
    (valid : ∀ request ∈ requests, request.Valid) {c : Client} (args : c.argv = request.args)
    (text : c.querybuf ++ unread = encode requests) (executed : c.executed = commands done)
    (flags : c.flags = .initial) (connected : c.freed = none) (quiet : c.errors = [])
    (bound : c.querybuf.length ≤ protoInlineMaxSize) {s : σ} :
    Processed unread (done ++ request :: requests) (some (executeRequest server s c)) := by
  have next : ∀ executed' replies, executed' = commands (done ++ [request]) →
      Standing unread (done ++ request :: requests)
        { resetClient c with executed := executed', replies := replies }
        (firstUnit requests).length := fun executed' replies same =>
    ⟨⟨_, requests, List.append_cons .., same, .request requests valid text rfl rfl rfl (.inl rfl)⟩,
      flags, connected, quiet⟩
  have now := commands_concat done request
  rw [← args, ← executed] at now
  by_cases empty : c.argv = []
  · rw [executeRequest, if_pos empty]
    exact ⟨s, _, true, _, rfl, next c.executed c.replies (by rw [now, if_pos empty]), bound⟩
  · have sent : c.argv ∈ commands (done ++ request :: requests) := by
      rw [commands, List.mem_filter]
      exact ⟨List.mem_map.mpr ⟨request, by simp, args.symm⟩, by simpa using empty⟩
    obtain ⟨s', replies, result⟩ :=
      (serves.keeps c.argv sent).executeRequest flags connected empty s
    rw [result]
    exact ⟨s', _, true, _, rfl, next _ replies (by rw [now, if_neg empty]), bound⟩

/-- What the body of the loop does with the outcome of reading arguments. -/
theorem processed_outcome {unread : Bytes} {command : List Bytes} {done requests : List Request}
    (serves : server.Serves (done ++ .command command :: requests))
    (small : ∀ arg ∈ command, arg.length ≤ 512 * 1024 * 1024)
    (valid : ∀ request ∈ requests, request.Valid) {c : Client} {result : Client × Bool}
    (outcome : Outcome unread (encode requests) command c result) (kind : c.reqtype = .multibulk)
    (executed : c.executed = commands done) (flags : c.flags = .initial)
    (connected : c.freed = none) (quiet : c.errors = []) (s : σ) :
    Processed unread (done ++ .command command :: requests)
      (some (if result.2 then executeRequest server s result.1 else (s, result.1, false))) := by
  obtain ⟨c', ok⟩ := result
  obtain ⟨querybuf, argv, left, bulklen, rfl, outcome⟩ := outcome
  cases ok with
  | true =>
      obtain ⟨rfl, text, bound⟩ := outcome
      exact processed_command (.command argv) serves valid
        (c := { c with querybuf := querybuf, argv := argv, multibulklen := left,
                       bulklen := bulklen })
        rfl text executed flags connected quiet bound
  | false =>
      obtain ⟨need, owes, short⟩ := outcome
      refine ⟨s, _, false, need, rfl, ⟨⟨done, _, rfl, executed,
        .arguments command requests small valid kind owes⟩, flags, connected, quiet⟩, ?_, short⟩
      change c.reqtype ≠ .unknown
      rw [kind]
      exact ReqType.noConfusion

/-- A line that is not complete is awaited. -/
theorem processInlineBuffer_short {c : Client} {text : Bytes} (noNewline : 10 ∉ text)
    (part : c.querybuf <+: text ++ crlf) (short : c.querybuf.length < (text ++ crlf).length)
    (bound : text.length < protoInlineMaxSize) : processInlineBuffer c = (c, false) := by
  have absent : 10 ∉ c.querybuf := by
    rw [crlf, List.append_cons] at part
    rcases List.prefix_concat_iff.mp part with whole | shorter
    · rw [whole] at short
      simp [crlf] at short
    · intro member
      rcases List.mem_append.mp (shorter.subset member) with inText | last
      · exact noNewline inText
      · revert last
        decide
  rw [List.length_append] at short
  change c.querybuf.length < text.length + 2 at short
  rw [processInlineBuffer, strchr_eq_none absent]
  exact if_neg (by omega)

/-- A line that is complete is taken. -/
theorem processInlineBuffer_line {c : Client} {text more : Bytes} {args : List Bytes}
    (noNewline : 10 ∉ text) (noNul : 0 ∉ text) (splits : sdssplitargs text = some args)
    (whole : c.querybuf = (text ++ crlf) ++ more) :
    processInlineBuffer c = ({ c with querybuf := more, argv := args.filter (· ≠ []) }, true) := by
  have split : c.querybuf = (text ++ [13]) ++ 10 :: more := by
    rw [whole]
    simp [crlf]
  have found : strchr 10 c.querybuf = some (text.length + 1) := by
    rw [split, strchr_append (by simp [noNewline]) (by simp [noNul]), List.length_append]
    rfl
  have before : c.querybuf[text.length]? = some 13 := by
    rw [split]
    simp
  have line : c.querybuf.take text.length = text := by
    rw [whole, List.append_assoc, List.take_left]
  have behind : c.querybuf.drop (text.length + 2) = more := by
    rw [whole, show text.length + 2 = (text ++ crlf).length by simp [crlf], List.drop_left]
  simp only [processInlineBuffer, found, Nat.add_sub_cancel, before, ne_eq, Nat.succ_ne_zero,
    not_false_eq_true, and_self, if_true, line, splits, behind]

/-- A line is awaited, or taken. -/
theorem processRequest_line {unread text : Bytes} {done requests : List Request}
    (serves : server.Serves (done ++ .line text :: requests))
    (valid : ∀ request ∈ Request.line text :: requests, request.Valid) {c : Client}
    (owed : c.querybuf ++ unread = encode (.line text :: requests)) (left : c.multibulklen = 0)
    (unknown : c.bulklen = none) (fresh : c.argv = []) (kind : c.reqtype = .inline)
    (room : Room c (text ++ crlf).length) (executed : c.executed = commands done)
    (flags : c.flags = .initial) (connected : c.freed = none) (quiet : c.errors = []) (s : σ) :
    Processed unread (done ++ .line text :: requests) (processRequest server s c) := by
  obtain ⟨⟨bound, noNewline, noNul, -, splits⟩, valid'⟩ := List.forall_mem_cons.mp valid
  obtain ⟨args, splits⟩ := Option.isSome_iff_exists.mp splits
  have text' : c.querybuf ++ unread = (text ++ crlf) ++ encode requests := owed
  rw [processRequest_of_inline s kind]
  rcases unit_cases text' with ⟨short, part⟩ | ⟨more, whole, tail⟩
  · rw [processInlineBuffer_short noNewline part short bound]
    refine ⟨s, c, false, _, rfl, ⟨⟨done, _, rfl, executed,
      .request _ valid owed left unknown fresh (.inr ?_)⟩, flags, connected, quiet⟩, ?_, short⟩
    · rw [kind]
      rfl
    · rw [kind]
      decide
  · rw [processInlineBuffer_line noNewline noNul splits whole]
    refine processed_command (.line text) serves valid'
      (c := { c with querybuf := more, argv := args.filter (· ≠ []) }) ?_ tail executed flags
      connected quiet ?_
    · simp only [Request.args, splits, Option.getD_some]
    · have length := congrArg List.length whole
      rw [List.length_append] at length
      change more.length ≤ _
      rcases room with bound' | ⟨-, bound'⟩ | ⟨_, known, -⟩
      · omega
      · have buffers : protoIobufLen ≤ protoInlineMaxSize := by decide
        omega
      · rw [unknown] at known
        cases known

/-- A count that is not complete is awaited. -/
theorem processMultibulkBuffer_short {c : Client} {count : Nat} (left : c.multibulklen = 0)
    (fresh : c.argv = []) (part : c.querybuf <+: countLine 42 count)
    (short : c.querybuf.length < (countLine 42 count).length)
    (bound : c.querybuf.length ≤ protoInlineMaxSize) :
    processMultibulkBuffer c = some (c, false) := by
  rw [processMultibulkBuffer, if_pos left, if_neg (not_not.mpr fresh)]
  rcases strchr_of_prefix (not_mem_count (by decide) (by decide))
    (not_mem_count (by decide) (by decide)) part short with none | ⟨found, last⟩
  · rw [none]
    exact if_neg (Nat.not_lt.mpr bound)
  · rw [found]
    exact if_pos (by omega)

/-- A count that is complete is taken. -/
theorem processMultibulkBuffer_line {c : Client} {count : Nat} {more : Bytes}
    (left : c.multibulklen = 0) (fresh : c.argv = []) (small : count ≤ 1024 * 1024)
    (whole : c.querybuf = countLine 42 count ++ more) :
    processMultibulkBuffer c =
      some (readArguments count c (countLine 42 count).length) := by
  have line : c.querybuf = 42 :: (numeral count ++ 13 :: 10 :: more) := by
    rw [whole]
    simp [countLine, crlf]
  have found : strchr 13 ((42 :: numeral count) ++ 13 :: 10 :: more) =
      some (42 :: numeral count).length :=
    strchr_append (not_mem_count (by decide) (by decide)) (not_mem_count (by decide) (by decide)) _
  rw [List.cons_append] at found
  have long : ¬ (42 :: (numeral count ++ 13 :: 10 :: more)).length <
      (42 :: numeral count).length + 2 := by
    simp only [List.length_cons, List.length_append]
    omega
  have digits : (numeral count ++ 13 :: 10 :: more).take ((42 :: numeral count).length - 1) =
      numeral count := by simp
  have length : (countLine 42 count).length = (42 :: numeral count).length + 2 := by
    simp [countLine, crlf]
  rw [processMultibulkBuffer, if_pos left, if_neg (not_not.mpr fresh), length]
  simp only [line, found, if_neg long, digits,
    string2ll_numeral (show count < 2 ^ 63 by omega)]
  rw [if_neg (by omega), Int.toNat_natCast]
  split_ifs with zero
  · obtain rfl : count = 0 := by omega
    rw [readArguments, line, ← left]
  · rfl

/-- A command is awaited, or its arguments are read. -/
theorem processRequest_command {unread : Bytes} {args : List Bytes} {done requests : List Request}
    (serves : server.Serves (done ++ .command args :: requests))
    (valid : ∀ request ∈ Request.command args :: requests, request.Valid) {c : Client}
    (owed : c.querybuf ++ unread = encode (.command args :: requests)) (left : c.multibulklen = 0)
    (unknown : c.bulklen = none) (fresh : c.argv = []) (kind : c.reqtype = .multibulk)
    (bound : c.querybuf.length ≤ protoInlineMaxSize) (executed : c.executed = commands done)
    (flags : c.flags = .initial) (connected : c.freed = none) (quiet : c.errors = []) (s : σ) :
    Processed unread (done ++ .command args :: requests) (processRequest server s c) := by
  obtain ⟨⟨few, small⟩, valid'⟩ := List.forall_mem_cons.mp valid
  have text : c.querybuf ++ unread =
      countLine 42 args.length ++ (args.flatMap bulk ++ encode requests) := by
    rw [owed, encode, List.flatMap_cons, Request.encode, List.append_assoc]
    rfl
  rw [processRequest_of_multibulk s kind]
  rcases unit_cases text with ⟨short, part⟩ | ⟨more, whole, tail⟩
  · rw [processMultibulkBuffer_short left fresh part short bound]
    refine ⟨s, c, false, _, rfl, ⟨⟨done, _, rfl, executed,
      .request _ valid owed left unknown fresh (.inr ?_)⟩, flags, connected, quiet⟩, ?_, short⟩
    · rw [kind]
      rfl
    · rw [kind]
      decide
  · rw [processMultibulkBuffer_line left fresh few whole]
    refine processed_outcome serves small valid'
      (readArguments_length small args ?_ unknown ?_ bound) kind executed flags connected quiet s
    · rw [fresh]
      rfl
    · rw [whole, List.drop_left, tail]

/-- The type of a request is determined by its first byte. -/
theorem Awaits.determined {c : Client} {unread : Bytes} {need : Nat} {current : List Request}
    (awaits : Awaits c (c.querybuf ++ unread) need current) (nonempty : c.querybuf ≠ []) :
    Awaits (determineType c) (c.querybuf ++ unread) need current ∧
      (determineType c).reqtype ≠ .unknown := by
  by_cases known : c.reqtype = .unknown
  · have star : ∀ {request requests}, (∀ other ∈ request :: requests, other.Valid) →
        c.querybuf ++ unread = encode (request :: requests) →
        (if c.querybuf.head? = some 42 then ReqType.multibulk else .inline) = request.reqtype := by
      intro request requests valid owed
      rw [← List.head?_append_of_ne_nil _ nonempty, owed]
      cases request with
      | line text =>
          obtain ⟨-, -, -, notStar, -⟩ := (List.forall_mem_cons.mp valid).1
          cases text with
          | nil => rfl
          | cons byte text => exact if_neg notStar
      | command args => rfl
    rw [determineType, if_pos known]
    refine ⟨?_, ?_⟩
    · cases awaits with
      | request requests valid owed left unknown fresh kind =>
          refine .request _ valid owed left unknown fresh (.inr ?_)
          cases current with
          | nil => exact absurd (List.append_eq_nil_iff.mp owed).1 nonempty
          | cons request requests => exact congrArg some (star valid owed).symm
      | arguments command requests small valid kind owes =>
          rw [known] at kind
          cases kind
    · change (if _ then _ else _) ≠ _
      split_ifs <;> decide
  · rw [determineType, if_neg known]
    exact ⟨awaits, known⟩

/-- In the middle of a command some arguments are left. -/
theorem Owes.left_ne_zero {rest text : Bytes} {command : List Bytes} {c : Client} {need : Nat}
    (owes : Owes rest command c text need) : c.multibulklen ≠ 0 := by
  cases owes <;> omega

/-- A request whose type is known. -/
theorem Standing.processed_known {unread : Bytes} {requests : List Request} {c : Client}
    {need : Nat} (standing : Standing unread requests c need) (serves : server.Serves requests)
    (room : Room c need) (known : c.reqtype ≠ .unknown) {s : σ} :
    Processed unread requests (processRequest server s c) := by
  obtain ⟨⟨done, current, rfl, executed, awaits⟩, flags, connected, quiet⟩ := standing
  have bound : c.reqtype = .multibulk → c.querybuf.length ≤ protoInlineMaxSize ∨
      ∃ bulklen, c.bulklen = some bulklen ∧ protoMbulkBigArg ≤ bulklen ∧
        c.querybuf.length ≤ bulklen + 2 := by
    intro multibulk
    rcases room with small | ⟨inline, -⟩ | big
    · exact .inl small
    · rw [multibulk] at inline
      cases inline
    · exact .inr big
  cases awaits with
  | request requests valid owed left unknown fresh kind =>
      have kind := kind.resolve_left known
      cases current with
      | nil => cases kind
      | cons request current =>
          have kind := Option.some.inj kind.symm
          cases request with
          | line text =>
              exact processRequest_line serves valid owed left unknown fresh kind room executed
                flags connected quiet s
          | command args =>
              refine processRequest_command serves valid owed left unknown fresh kind ?_ executed
                flags connected quiet s
              rcases bound kind with small | ⟨_, known', -⟩
              · exact small
              · rw [unknown] at known'
                cases known'
  | arguments command requests small valid kind owes =>
      rw [processRequest_of_multibulk s kind, processMultibulkBuffer, if_neg owes.left_ne_zero]
      exact processed_outcome serves small valid (readArguments_owes small owes (bound kind)) kind
        executed flags connected quiet s

/-- **One request.** The client goes on with what it has, without an error. -/
theorem Standing.processed {unread : Bytes} {requests : List Request} {c : Client} {need : Nat}
    (standing : Standing unread requests c need) (serves : server.Serves requests)
    (nonempty : c.querybuf ≠ []) (room : Room c need) (s : σ) :
    Processed unread requests (processRequest server s c) := by
  by_cases unknown : c.reqtype = .unknown
  · obtain ⟨⟨done, current, split, executed, awaits⟩, flags, connected, quiet⟩ := standing
    obtain ⟨awaits, known⟩ := awaits.determined nonempty
    have same : processRequest server s c = processRequest server s (determineType c) := by
      rw [processRequest, processRequest, parseRequest, parseRequest, determineType_of_known known]
    rw [determineType, if_pos unknown] at same awaits known
    generalize (if c.querybuf.head? = some 42 then ReqType.multibulk else .inline) = kind
      at same awaits known
    rw [same]
    refine Standing.processed_known (c := { c with reqtype := kind })
      ⟨⟨done, current, split, executed, awaits⟩, flags, connected, quiet⟩ serves ?_ known
    rcases room with small | ⟨inline, -⟩ | big
    · exact .inl small
    · rw [unknown] at inline
      cases inline
    · exact .inr (.inr big)
  · exact standing.processed_known serves room unknown

/-- The client has nothing in its buffer, or it needs more than what is there. -/
def Idle (c : Client) (need : Nat) : Prop :=
  c.querybuf = [] ∨ c.reqtype ≠ .unknown ∧ c.querybuf.length < need

/-- **The loop.** All that can be done with the buffer is done. -/
theorem Standing.loop {unread : Bytes} {requests : List Request} {c : Client}
    {need : Nat} (standing : Standing unread requests c need) (serves : server.Serves requests)
    (room : Room c need) (s : σ) :
    ∃ s' c' need', processInputBuffer server s c = some (s', c') ∧
      Standing unread requests c' need' ∧ Idle c' need' := by
  induction size : c.querybuf.length using Nat.strong_induction_on generalizing c need s with
  | _ size ih =>
      subst size
      by_cases empty : c.querybuf = []
      · exact ⟨s, c, need, processInputBuffer_empty s empty, standing, .inl empty⟩
      · obtain ⟨s₁, active⟩ := serves.unpaused.suspended s standing.flags
        obtain ⟨s₂, c₂, more, need₂, processed, standing₂, result⟩ :=
          standing.processed serves empty room s₁
        cases more with
        | false =>
            exact ⟨s₂, c₂, need₂, processInputBuffer_last empty active processed, standing₂,
              .inr result⟩
        | true =>
            rw [processInputBuffer_next empty active processed]
            exact ih _ (processRequest_shorter empty processed) standing₂ (.inl result) s₂ rfl

/-! ## Reads -/

/-- What is awaited does not depend on the buffer itself. -/
theorem Awaits.with_querybuf {c : Client} {text : Bytes} {need : Nat} {current : List Request}
    (awaits : Awaits c text need current) (querybuf : Bytes) :
    Awaits { c with querybuf := querybuf } text need current := by
  cases awaits with
  | request _ valid owed left unknown fresh kind =>
      exact .request _ valid owed left unknown fresh kind
  | arguments command requests small valid kind owes =>
      refine .arguments command requests small valid kind ?_
      cases owes with
      | length arg args split left unknown owed => exact .length arg args split left unknown owed
      | body arg args split left known owed => exact .body arg args split left known owed

/-- A line with a count is short. -/
theorem length_countLine {sign : UInt8} {count k : Nat} (positive : 0 < k)
    (small : count < 10 ^ k) : (countLine sign count).length ≤ k + 3 := by
  have digits := (length_numeral_le_iff positive).mpr small
  rw [countLine, List.length_append, List.length_cons]
  change _ + 2 ≤ _
  omega

/-- What is awaited is the rest of an argument, or short, or a line. -/
theorem Awaits.need_cases {c : Client} {text : Bytes} {need : Nat} {current : List Request}
    (awaits : Awaits c text need current) :
    (∃ bulklen, c.bulklen = some bulklen ∧ c.reqtype = .multibulk ∧ c.multibulklen ≠ 0 ∧
      need = bulklen + 2 ∧ bulklen ≤ 512 * 1024 * 1024) ∨
    c.bulklen = none ∧ (need ≤ 12 ∨ (c.reqtype = .unknown ∨ c.reqtype = .inline) ∧
      need ≤ protoInlineMaxSize + 1) := by
  cases awaits with
  | request _ valid owed left unknown fresh kind =>
      refine .inr ⟨unknown, ?_⟩
      cases current with
      | nil => exact .inl (Nat.zero_le _)
      | cons request current =>
          cases request with
          | line text =>
              refine .inr ⟨kind.imp_right fun same => (Option.some.inj same).symm, ?_⟩
              have short : text.length < _ := (List.forall_mem_cons.mp valid).1.1
              rw [firstUnit, List.length_append]
              change text.length + 2 ≤ _
              omega
          | command args =>
              have few : args.length ≤ _ := (List.forall_mem_cons.mp valid).1.1
              have line : (countLine 42 args.length).length ≤ 7 + 3 :=
                length_countLine (by decide) (by omega)
              exact .inl (by rw [firstUnit]; omega)
  | arguments command requests small valid kind owes =>
      cases owes with
      | length arg args split left unknown owed =>
          have short := small arg (by rw [split]; simp)
          exact .inr ⟨unknown, .inl (length_countLine (k := 9) (by decide) (by omega))⟩
      | body arg args split left known owed =>
          have short := small arg (by rw [split]; simp)
          exact .inl ⟨arg.length, known, kind, by omega, by rw [List.length_append]; rfl, short⟩

/-- A read is no longer than the buffer for it. -/
theorem readLength_le (c : Client) : readLength c ≤ protoIobufLen := by
  rw [readLength]
  split
  · exact le_rfl
  · split_ifs
    · exact min_le_left _ _
    · exact le_rfl

/-- A read in the middle of a big argument. -/
theorem readLength_big {c : Client} {bulklen : Nat} (known : c.bulklen = some bulklen)
    (kind : c.reqtype = .multibulk) (left : c.multibulklen ≠ 0)
    (big : protoMbulkBigArg ≤ bulklen) :
    readLength c = min (protoIobufLen : Int) ((bulklen : Int) + 2 - c.querybuf.length) := by
  rw [readLength, known]
  exact if_pos ⟨kind, left, big⟩

/-- A client never reads nothing. -/
theorem Awaits.readLength_pos {c : Client} {text : Bytes} {need : Nat} {current : List Request}
    (awaits : Awaits c text need current) (idle : Idle c need) : 0 < readLength c := by
  have full : (0 : Int) < protoIobufLen := by decide
  rcases awaits.need_cases with ⟨bulklen, known, kind, left, need, -⟩ | ⟨unknown, -⟩
  · by_cases big : protoMbulkBigArg ≤ bulklen
    · rw [readLength_big known kind left big]
      refine lt_min full ?_
      rcases idle with empty | ⟨-, short⟩
      · rw [empty, List.length_nil]
        omega
      · omega
    · rw [readLength, known]
      simp only
      rwa [if_neg fun conditions => big conditions.2.2]
  · rwa [readLength, unknown]

/-- What is read fits: it is no more than the client can take. -/
theorem Awaits.room {c : Client} {text chunk : Bytes} {need : Nat} {current : List Request}
    (awaits : Awaits c text need current) (idle : Idle c need)
    (short : (chunk.length : Int) ≤ readLength c) :
    Room { c with querybuf := c.querybuf ++ chunk } need ∧
      (c.querybuf ++ chunk).length ≤ protoMaxQuerybufLen := by
  have limit := readLength_le c
  simp only [Room, List.length_append, protoMaxQuerybufLen, protoIobufLen,
    protoInlineMaxSize, protoMbulkBigArg] at limit ⊢
  rcases idle with empty | ⟨typed, few⟩
  · rw [empty, List.length_nil]
    exact ⟨.inl (by omega), by omega⟩
  · rcases awaits.need_cases with ⟨bulklen, known, kind, left, need, small⟩ | ⟨unknown, need⟩
    · refine ⟨?_, by omega⟩
      by_cases big : protoMbulkBigArg ≤ bulklen
      · rw [readLength_big known kind left big] at short
        exact .inr (.inr ⟨bulklen, known, big, by omega⟩)
      · rw [protoMbulkBigArg] at big
        exact .inl (by omega)
    · rcases need with small | ⟨kind, small⟩
      · exact ⟨.inl (by omega), by omega⟩
      · rw [protoInlineMaxSize] at small
        exact ⟨.inr (.inl ⟨kind.resolve_left typed, by omega⟩), by omega⟩

/-- A client without errors that has done all it can, with what it was sent. -/
def Steady (requests : List Request) (connection : Connection σ) : Prop :=
  ∃ need, Standing connection.unread requests connection.client need ∧ Idle connection.client need

/-- The loop leaves a client steady. -/
theorem Standing.processInput {requests : List Request} (connection : Connection σ) {need : Nat}
    (standing : Standing connection.unread requests connection.client need)
    (serves : server.Serves requests) (room : Room connection.client need) :
    ∃ next, connection.processInput server = some next ∧ Steady requests next ∧
      next.unread = connection.unread := by
  obtain ⟨s', c', need', looped, standing', idle'⟩ := standing.loop serves room connection.server
  refine ⟨⟨s', c', connection.unread⟩, ?_, ⟨need', standing', idle'⟩, rfl⟩
  rw [Connection.processInput, looped]
  rfl

/-- **One read** keeps the client without errors, and is not in vain. -/
theorem Steady.read {requests : List Request} {connection : Connection σ}
    (steady : Steady requests connection) (serves : server.Serves requests) (n : Nat) :
    ∃ next, readQueryFromClient server connection n = some next ∧ Steady requests next ∧
      next.unread.length ≤ connection.unread.length - (if n = 0 then 0 else 1) := by
  obtain ⟨s, c, unread⟩ := connection
  obtain ⟨need, ⟨⟨done, current, split, executed, awaits⟩, flags, connected, quiet⟩, idle⟩ := steady
  rw [readQueryFromClient]
  simp only
  by_cases nothing : unread = [] ∨ n = 0
  · rw [if_pos nothing]
    refine ⟨⟨s, c, unread⟩, rfl, ⟨need, ⟨⟨done, current, split, executed, awaits⟩, flags, connected,
      quiet⟩, idle⟩, ?_⟩
    rcases nothing with rfl | rfl
    · exact Nat.zero_le _
    · exact le_rfl
  · have positive : 0 < readLength c := awaits.readLength_pos idle
    have taken : ((unread.take (min n (readLength c).toNat)).length : Int) ≤ readLength c := by
      rw [List.length_take]
      omega
    obtain ⟨room, fits⟩ := awaits.room idle taken
    have text : (c.querybuf ++ unread.take (min n (readLength c).toNat)) ++
        unread.drop (min n (readLength c).toNat) = c.querybuf ++ unread := by
      rw [List.append_assoc, List.take_append_drop]
    have standing : Standing (unread.drop (min n (readLength c).toNat)) requests
        { c with querybuf := c.querybuf ++ unread.take (min n (readLength c).toNat) } need := by
      refine ⟨⟨done, current, split, executed, ?_⟩, flags, connected, quiet⟩
      rw [text]
      exact awaits.with_querybuf _
    obtain ⟨next, processed, steady, same⟩ := Standing.processInput
      ⟨s, { c with querybuf := c.querybuf ++ unread.take (min n (readLength c).toNat) },
        unread.drop (min n (readLength c).toNat)⟩ standing serves room
    refine ⟨next, ?_, steady, ?_⟩
    · rw [if_neg nothing, if_neg (by omega), if_neg (by omega)]
      simp only [if_neg (Nat.not_lt.mpr fits), processed]
    · rw [same, List.length_drop]
      rw [not_or] at nothing
      rw [if_neg nothing.2]
      omega

/-- An event that does not close the client. -/
def Event.Harmless : Event σ → Prop
  | .closeAsap | .free => False
  | _ => True

/-- An event with which bytes arrive. -/
def Event.arrives : Event σ → Bool
  | .readable n => n ≠ 0
  | _ => false

/-- **One event** keeps the client without errors. -/
theorem Steady.step {requests : List Request} {connection : Connection σ}
    (steady : Steady requests connection) (serves : server.Serves requests) {event : Event σ}
    (harmless : event.Harmless) :
    ∃ next, clientStep server connection event = some next ∧ Steady requests next ∧
      next.unread.length ≤ connection.unread.length - (if event.arrives then 1 else 0) := by
  obtain ⟨need, standing, idle⟩ := steady
  have connected : ¬ connection.client.freed.isSome = true := by
    rw [standing.connected]
    exact Bool.false_ne_true
  rw [clientStep, if_neg connected]
  cases event with
  | readable n =>
      obtain ⟨next, read, steady, shorter⟩ := Steady.read ⟨need, standing, idle⟩ serves n
      refine ⟨next, read, steady, shorter.trans_eq ?_⟩
      by_cases none : n = 0 <;> simp [Event.arrives, none]
  | elsewhere state => exact ⟨_, rfl, ⟨need, standing, idle⟩, le_rfl⟩
  | unblock =>
      have same : unblockClient connection.client = connection.client := by
        have flags := standing.flags
        rw [unblockClient, flags, if_neg (by decide)]
        simp only
        rw [flags]
        change { connection.client with flags := .initial } = connection.client
        rw [← flags]
      rw [handleEvent, same]
      exact ⟨_, rfl, ⟨need, standing, idle⟩, le_rfl⟩
  | resume =>
      have unblocked : ¬ connection.client.flags.blocked.isSome = true := by
        rw [standing.flags]
        exact Bool.false_ne_true
      obtain ⟨⟨done, current, split, executed, awaits⟩, -⟩ := id standing
      have nothing : (([] : Bytes).length : Int) ≤ readLength connection.client :=
        (awaits.readLength_pos idle).le
      obtain ⟨room, -⟩ := awaits.room idle nothing
      rw [List.append_nil] at room
      obtain ⟨next, processed, steady, same⟩ := standing.processInput connection serves room
      rw [handleEvent, if_neg unblocked]
      exact ⟨next, processed, steady, by rw [same]; exact le_rfl⟩
  | closeAsap => exact harmless.elim
  | free => exact harmless.elim

/-! ## The requests that have arrived -/

/-- The requests all of whose bytes were read, when so many bytes were not. -/
def arrived : List Request → (unread : Nat) → List Request
  | [], _ => []
  | request :: requests, unread =>
      if unread ≤ (encode requests).length then request :: arrived requests unread else []

/-- **Events** keep the client without errors, and reads are not in vain. -/
theorem Steady.run {requests : List Request} {connection : Connection σ}
    (steady : Steady requests connection) (serves : server.Serves requests)
    {events : List (Event σ)} (harmless : ∀ event ∈ events, event.Harmless) :
    ∃ final, run (clientStep server) connection events = some final ∧ Steady requests final ∧
      final.unread.length ≤ connection.unread.length - events.countP Event.arrives := by
  induction events generalizing connection with
  | nil => exact ⟨connection, rfl, steady, le_rfl⟩
  | cons event events ih =>
      obtain ⟨first, later⟩ := List.forall_mem_cons.mp harmless
      obtain ⟨next, stepped, steady', shorter⟩ := steady.step serves first
      obtain ⟨final, ran, steady'', shorter'⟩ := ih steady' later
      refine ⟨final, ?_, steady'', ?_⟩
      · rw [run_cons, stepped]
        exact ran
      · rw [List.countP_cons]
        omega

/-- A server that knows every command and replies OK to it. -/
def okServer : Server Unit :=
  ⟨fun s => (s, false), fun _ name => some ⟨name, -1⟩, fun s flags _ =>
    (s, .done flags [ascii "+OK\r\n"])⟩

/-- A line that ends with a newline alone is taken with the byte behind it. -/
theorem processInlineBuffer_bare {c : Client} {text more : Bytes} {byte : UInt8} {args : List Bytes}
    (noNewline : 10 ∉ text) (noNul : 0 ∉ text) (noReturn : text.getLast? ≠ some 13)
    (splits : sdssplitargs text = some args) (whole : c.querybuf = text ++ 10 :: byte :: more) :
    processInlineBuffer c = ({ c with querybuf := more, argv := args.filter (· ≠ []) }, true) := by
  have found : strchr 10 c.querybuf = some text.length := by
    rw [whole, strchr_append noNewline noNul]
  have before : ¬ (text.length ≠ 0 ∧ c.querybuf[text.length - 1]? = some 13) := by
    rintro ⟨nonempty, last⟩
    rw [whole, List.getElem?_append_left (by omega), ← List.getLast?_eq_getElem?] at last
    exact noReturn last
  have line : c.querybuf.take text.length = text := by rw [whole, List.take_left]
  have behind : c.querybuf.drop (text.length + 2) = more := by
    rw [whole, ← List.drop_drop, List.drop_left]
    rfl
  simp only [processInlineBuffer, found, if_neg before, line, splits, behind]

/-- A line is executed, and the loop goes on behind it. -/
theorem processInputBuffer_line (server : Server σ) (s : σ) {c c' : Client} {querybuf : Bytes}
    (kind : c.reqtype = .unknown ∧ querybuf.head? ≠ some 42 ∨ c.reqtype = .inline)
    (active : (suspended server s c.flags).2 = false) (nonempty : querybuf ≠ [])
    (made : processInlineBuffer { c with querybuf := querybuf, reqtype := .inline } =
      (c', true)) :
    processInputBuffer server s { c with querybuf := querybuf } =
      let (s', c', more) := executeRequest server (suspended server s c.flags).1 c'
      if more then processInputBuffer server s' c' else some (s', c') := by
  have active : suspended server s c.flags = ((suspended server s c.flags).1, false) :=
    Prod.ext rfl active
  have typed : determineType { c with querybuf := querybuf } =
      { c with querybuf := querybuf, reqtype := .inline } := by
    rw [determineType]
    rcases kind with ⟨unknown, notStar⟩ | inline
    · rw [if_pos unknown, if_neg notStar]
    · rw [if_neg (by rw [inline]; decide), ← inline]
  have processed : processRequest server (suspended server s c.flags).1
      { c with querybuf := querybuf } =
        some (executeRequest server (suspended server s c.flags).1 c') := by
    rw [processRequest, parseRequest, typed]
    simp only [reduceCtorEq, if_false, made, Option.map_some, if_true]
  generalize executeRequest server (suspended server s c.flags).1 c' = outcome at processed ⊢
  obtain ⟨s', c'', more⟩ := outcome
  cases more with
  | true => exact processInputBuffer_next nonempty active processed
  | false => exact processInputBuffer_last nonempty active processed

/-- **A newline alone takes the next byte with it.** A line that ends with a newline and no `\r` is
executed, but the byte behind it, if it was read already, is lost: the server goes on as if the line
had ended with both and that byte had not been sent. -/
theorem bare_newline_swallows (server : Server σ) (s : σ) {c : Client} {text more : Bytes}
    (byte : UInt8) {args : List Bytes} (noNewline : 10 ∉ text) (noNul : 0 ∉ text)
    (noReturn : text.getLast? ≠ some 13) (splits : sdssplitargs text = some args)
    (kind : c.reqtype = .unknown ∧ text.head? ≠ some 42 ∨ c.reqtype = .inline)
    (active : (suspended server s c.flags).2 = false) :
    processInputBuffer server s { c with querybuf := text ++ 10 :: byte :: more } =
      processInputBuffer server s { c with querybuf := (text ++ crlf) ++ more } := by
  have inline : ∀ (first : UInt8) (rest : Bytes), first ≠ 42 →
      c.reqtype = .unknown ∧ (text ++ first :: rest).head? ≠ some 42 ∨ c.reqtype = .inline := by
    intro first rest other
    refine kind.imp_left (And.imp_right fun notStar => ?_)
    cases text with
    | nil => exact fun same => other (Option.some.inj same)
    | cons first text => exact notStar
  have bare := inline 10 (byte :: more) (by decide)
  have both := inline 13 (10 :: more) (by decide)
  rw [show text ++ 13 :: 10 :: more = (text ++ crlf) ++ more from
    (List.append_assoc text crlf more).symm] at both
  rw [processInputBuffer_line server s bare active (by simp)
      (processInlineBuffer_bare noNewline noNul noReturn splits rfl),
    processInputBuffer_line server s both active (by simp [crlf])
      (processInlineBuffer_line noNewline noNul splits rfl)]

/-- The star of a command behind the line is lost, and the command is taken for a line. -/
theorem bare_newline_swallows_sample :
    (processInputBuffer okServer () { createClient with
        querybuf := ascii "PING\n*1\r\n$4\r\nPING\r\n" }).map (Client.executed ∘ Prod.snd) =
      some [[ascii "PING"], [ascii "1"], [ascii "$4"], [ascii "PING"]] := by
  have splits : sdssplitargs (ascii "PING") = some [ascii "PING"] := by decide +kernel
  have swallowed : processInputBuffer okServer () { createClient with
        querybuf := ascii "PING" ++ 10 :: 42 :: ascii "1\r\n$4\r\nPING\r\n" } =
      processInputBuffer okServer () { createClient with
        querybuf := (ascii "PING" ++ crlf) ++ ascii "1\r\n$4\r\nPING\r\n" } :=
    bare_newline_swallows okServer () 42 (by decide +kernel) (by decide +kernel) (by decide +kernel)
      splits (.inl ⟨rfl, by decide +kernel⟩) rfl
  exact (congrArg (Option.map (Client.executed ∘ Prod.snd)) swallowed).trans (by decide +kernel)

end CPrograms.Redis
