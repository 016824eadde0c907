import CPrograms.Redis.Sds
import CPrograms.Redis.Util

/-!
# Reading requests in redis

The part of `networking.c` that turns the bytes a client sends into commands. A request is a line,
or a count of arguments and the arguments with their lengths. The bytes come in reads of any size;
what cannot be used yet stays in the query buffer of the client. A result `none` of a function here
is an assertion that fails, or a read of a negative number of bytes.

What the commands do is a parameter, `Server`, as far as the reader of requests sees it: a command
may block the client, close it or pause all clients. The client is not the master of a replication,
and does not hang up. Replies are recorded when they are added, and logs are left out.
-/

namespace CPrograms.Redis

open Library

/-- The default of `client_max_querybuf_len`. -/
def protoMaxQuerybufLen : Nat := 1024 * 1024 * 1024

/-- The length of a read, `PROTO_IOBUF_LEN`. -/
def protoIobufLen : Nat := 1024 * 16

/-- The longest line, `PROTO_INLINE_MAX_SIZE`. -/
def protoInlineMaxSize : Nat := 1024 * 64

/-- From this length on an argument is big, `PROTO_MBULK_BIG_ARG`. -/
def protoMbulkBigArg : Nat := 1024 * 32

/-- The kind of a request; it is unknown before the first byte. -/
inductive ReqType where
  | unknown
  | inline
  | multibulk
  deriving DecidableEq

/-- What a client is blocked on: a command of a module, or something else. -/
inductive Blocked where
  | module
  | other
  deriving DecidableEq

/-- The flags of a client that are looked at here; `blocked` is `CLIENT_BLOCKED` with `btype`. -/
structure Flags where
  slave : Bool
  blocked : Option Blocked
  closeAfterReply : Bool
  closeAsap : Bool
  deriving DecidableEq

/-- The flags of a new client. -/
def Flags.initial : Flags := ⟨false, none, false, false⟩

/-- Why a client was freed: a read of no bytes, a query buffer that is too long,
`freeMemoryIfNeeded` during a command, or something elsewhere in the server. -/
inductive Freed where
  | emptyRead
  | fullBuffer
  | evicted
  | elsewhere
  deriving DecidableEq

/-- The protocol errors. -/
inductive ProtocolError where
  | tooBigInline
  | unbalancedQuotes
  | tooBigMbulkCount
  | invalidMbulkLength
  | tooBigBulkCount
  | expectedDollar (got : UInt8)
  | invalidBulkLength

/-- A text that was formatted ends at its first NUL, and newlines in it become blanks. -/
def formatted (text : Bytes) : Bytes :=
  (text.takeWhile (· ≠ 0)).map fun byte => if byte = 13 ∨ byte = 10 then 32 else byte

/-- What the client is told. The text with a byte of the request is a formatted one. -/
def ProtocolError.message : ProtocolError → Bytes
  | tooBigInline => ascii "Protocol error: too big inline request"
  | unbalancedQuotes => ascii "Protocol error: unbalanced quotes in request"
  | tooBigMbulkCount => ascii "Protocol error: too big mbulk count string"
  | invalidMbulkLength => ascii "Protocol error: invalid multibulk length"
  | tooBigBulkCount => ascii "Protocol error: too big bulk count string"
  | expectedDollar got =>
      formatted (ascii "Protocol error: expected '$', got '" ++ [got] ++ ascii "'")
  | invalidBulkLength => ascii "Protocol error: invalid bulk length"

/-- A client: `bulklen` is the length of the argument to be read (-1 in the source when it is
unknown). `replies`, `errors` and `executed` record the replies, the protocol errors among them, and
the arguments of the commands, and `freed` that the client is no more. -/
structure Client where
  querybuf : Bytes
  reqtype : ReqType
  multibulklen : Nat
  bulklen : Option Nat
  argv : List Bytes
  flags : Flags
  freed : Option Freed
  replies : List Bytes
  errors : List ProtocolError
  executed : List (List Bytes)

/-- `createClient`. -/
def createClient : Client := ⟨[], .unknown, 0, none, [], .initial, none, [], [], []⟩

/-- Add a reply to the output of the client. -/
def addReply (c : Client) (reply : Bytes) : Client := { c with replies := c.replies ++ [reply] }

/-- The reply that tells of an error. -/
def errorReply (err : Bytes) : Bytes := ascii "-ERR " ++ err ++ [13, 10]

/-- Reply an error. -/
def addReplyError (c : Client) (err : Bytes) : Client := addReply c (errorReply err)

/-- Reply an error with a formatted text. -/
def addReplyErrorFormat (c : Client) (text : Bytes) : Client := addReplyError c (formatted text)

/-- The client is closed once the reply is written, and the buffer trimmed. -/
def setProtocolError (c : Client) (pos : Nat) : Client :=
  { c with flags.closeAfterReply := true, querybuf := c.querybuf.drop pos }

/-- An error is replied and set. -/
def protocolError (c : Client) (error : ProtocolError) (pos : Nat) : Client :=
  setProtocolError { addReplyError c error.message with errors := c.errors ++ [error] } pos

/-- The index of a character in a string, which ends at its NUL. -/
def strchr (character : UInt8) : Bytes → Option Nat
  | [] => none
  | byte :: rest =>
      if byte = character then some 0
      else if byte = 0 then none
      else (strchr character rest).map (· + 1)

/-- Prepare the client for the next request. -/
def resetClient (c : Client) : Client :=
  { c with argv := [], reqtype := .unknown, multibulklen := 0, bulklen := none }

/-- Make a command of the first line in the buffer; `false` is `C_ERR`. -/
def processInlineBuffer (c : Client) : Client × Bool :=
  match strchr 10 c.querybuf with
  | none =>
      if protoInlineMaxSize < c.querybuf.length then (protocolError c .tooBigInline 0, false)
      else (c, false)
  | some newline =>
      let querylen :=
        if newline ≠ 0 ∧ c.querybuf[newline - 1]? = some 13 then newline - 1 else newline
      match sdssplitargs (c.querybuf.take querylen) with
      | none => (protocolError c .unbalancedQuotes 0, false)
      | some argv =>
          -- two bytes are dropped behind the line, even if it ended with a newline alone
          ({ c with querybuf := c.querybuf.drop (querylen + 2), argv := argv.filter (· ≠ []) },
            true)

/-- What reading the length of an argument gives: more bytes are needed, an error, or the length,
with the position behind it. -/
inductive BulkLength where
  | wait
  | error (c : Client)
  | ready (c : Client) (pos bulklen : Nat)

/-- Read the bulk length if it is unknown. A big argument is moved to the start of the buffer. -/
def readBulkLength (c : Client) (pos : Nat) : BulkLength :=
  match c.bulklen with
  | some bulklen => .ready c pos bulklen
  | none =>
      match strchr 13 (c.querybuf.drop pos) with
      | none =>
          if protoInlineMaxSize < c.querybuf.length then
            .error (protocolError c .tooBigBulkCount 0)
          else .wait
      | some newline =>
          if c.querybuf.length < pos + newline + 2 then .wait
          else
            match c.querybuf.drop pos with
            | 36 :: count =>
                match string2ll (count.take (newline - 1)) with
                | none => .error (protocolError c .invalidBulkLength pos)
                | some ll =>
                    if ll < 0 ∨ 512 * 1024 * 1024 < ll then
                      .error (protocolError c .invalidBulkLength pos)
                    else if protoMbulkBigArg ≤ ll then
                      .ready { c with querybuf := c.querybuf.drop (pos + newline + 2)
                                      bulklen := some ll.toNat } 0 ll.toNat
                    else .ready { c with bulklen := some ll.toNat } (pos + newline + 2) ll.toNat
            | got => .error (protocolError c (.expectedDollar (got.headD 0)) pos)

/-- The loop over the arguments, `multibulklen` of which are still to be read; `false` is
`C_ERR`. -/
def readArguments : (multibulklen : Nat) → Client → (pos : Nat) → Client × Bool
  | 0, c, pos => ({ c with querybuf := c.querybuf.drop pos, multibulklen := 0 }, true)
  | left + 1, c, pos =>
      match readBulkLength c pos with
      | .wait => ({ c with querybuf := c.querybuf.drop pos, multibulklen := left + 1 }, false)
      | .error c => ({ c with multibulklen := left + 1 }, false)
      | .ready c pos bulklen =>
          if c.querybuf.length - pos < bulklen + 2 then
            ({ c with querybuf := c.querybuf.drop pos, multibulklen := left + 1 }, false)
          else if pos = 0 ∧ protoMbulkBigArg ≤ bulklen ∧ c.querybuf.length = bulklen + 2 then
            -- the buffer is just the argument, and is used for it
            readArguments left
              { c with argv := c.argv ++ [c.querybuf.take bulklen], querybuf := [],
                       bulklen := none } 0
          else
            readArguments left
              { c with argv := c.argv ++ [(c.querybuf.drop pos).take bulklen], bulklen := none }
              (pos + bulklen + 2)

/-- Make a command of a count and as many arguments; `false` is `C_ERR`. -/
def processMultibulkBuffer (c : Client) : Option (Client × Bool) :=
  if c.multibulklen = 0 then
    if c.argv ≠ [] then none
    else
      match strchr 13 c.querybuf with
      | none =>
          if protoInlineMaxSize < c.querybuf.length then
            some (protocolError c .tooBigMbulkCount 0, false)
          else some (c, false)
      | some newline =>
          if c.querybuf.length < newline + 2 then some (c, false)
          else
            match c.querybuf with
            | 42 :: count =>
                match string2ll (count.take (newline - 1)) with
                | none => some (protocolError c .invalidMbulkLength 0, false)
                | some ll =>
                    if 1024 * 1024 < ll then some (protocolError c .invalidMbulkLength 0, false)
                    else if ll ≤ 0 then
                      some ({ c with querybuf := c.querybuf.drop (newline + 2) }, true)
                    else some (readArguments ll.toNat c (newline + 2))
            | _ => none
  else some (readArguments c.multibulklen c 0)

/-- Determine the request type when unknown. -/
def determineType (c : Client) : Client :=
  if c.reqtype = .unknown then
    { c with reqtype := if c.querybuf.head? = some 42 then .multibulk else .inline }
  else c

/-- The first part of the body of the loop in `processInputBuffer`: make a command; `false` is
`C_ERR`. -/
def parseRequest (c : Client) : Option (Client × Bool) :=
  let c := determineType c
  if c.reqtype = .multibulk then processMultibulkBuffer c else some (processInlineBuffer c)

/-! ## Commands -/

/-- A command that is known: its name and how many arguments it has, or at least has if the number
is negative. -/
structure RedisCommand where
  name : Bytes
  arity : Int

/-- What `processCommand` comes to behind its first tests: the client was freed, or it has other
flags and some replies. -/
inductive Called where
  | freed
  | done (flags : Flags) (replies : List Bytes)

/-- **The rest of the server**, over its states: whether clients are paused (and the pause may end
when that is asked), the table of commands, and what `processCommand` does behind its first tests,
with the flags and the arguments of the client. -/
structure Server (σ : Type) where
  clientsArePaused : σ → σ × Bool
  lookupCommand : σ → Bytes → Option RedisCommand
  call : σ → Flags → List Bytes → σ × Called

/-- Clients are never paused. -/
def Server.Unpaused {σ : Type} (server : Server σ) : Prop :=
  ∀ s, (server.clientsArePaused s).2 = false

/-- `tolower` in the C locale. -/
def tolower (byte : UInt8) : UInt8 := if 65 ≤ byte ∧ byte ≤ 90 then byte + 32 else byte

/-- The name of a command as a C string. -/
def commandName (argv : List Bytes) : Bytes := (argv.headD []).takeWhile (· ≠ 0)

/-- The test for `QUIT` with `strcasecmp`. -/
def isQuit (argv : List Bytes) : Bool := (commandName argv).map tolower = ascii "quit"

section Loop

variable {σ : Type} (server : Server σ)

/-- Execute a command; `false` is `C_ERR`. -/
def processCommand (s : σ) (c : Client) : σ × Client × Bool :=
  let c := { c with executed := c.executed ++ [c.argv] }
  if isQuit c.argv then
    (s, { addReply c (ascii "+OK\r\n") with flags.closeAfterReply := true }, false)
  else
    match server.lookupCommand s (c.argv.headD []) with
    | none =>
        (s, addReplyErrorFormat c (ascii "unknown command '" ++ commandName c.argv ++ ascii "'"),
          true)
    | some cmd =>
        if (0 < cmd.arity ∧ cmd.arity ≠ c.argv.length) ∨ (c.argv.length : Int) < -cmd.arity then
          (s, addReplyErrorFormat c
            (ascii "wrong number of arguments for '" ++ cmd.name ++ ascii "' command"), true)
        else
          match server.call s c.flags c.argv with
          | (s, .freed) => (s, { c with freed := some .evicted }, false)
          | (s, .done flags replies) =>
              (s, { c with flags := flags, replies := c.replies ++ replies }, true)

/-- The second part of the loop's body: execute the command, if there is one; `false` ends the loop.
The client is not reset when it was blocked by a module, or the command was not executed. -/
def executeRequest (s : σ) (c : Client) : σ × Client × Bool :=
  if c.argv = [] then (s, resetClient c, true)
  else
    let (s, c, ok) := processCommand server s c
    (s, if ok ∧ c.flags.blocked ≠ some .module then resetClient c else c, c.freed.isNone)

/-- The body of the loop in `processInputBuffer`; `false` ends the loop. -/
def processRequest (s : σ) (c : Client) : Option (σ × Client × Bool) :=
  (parseRequest c).map fun (c, ok) => if ok then executeRequest server s c else (s, c, false)

/-- The tests at the head of the loop, with something in the buffer: whether clients are paused, or
the client is in the middle of something or about to be closed. -/
def suspended (s : σ) (flags : Flags) : σ × Bool :=
  let (s, paused) := if flags.slave then (s, false) else server.clientsArePaused s
  (s, paused || flags.blocked.isSome || flags.closeAfterReply || flags.closeAsap)

end Loop

/-! ## The loop -/

/-- A length that is read takes up some of the buffer, and nothing else changes. -/
theorem readBulkLength_ready {c c' : Client} {pos pos' bulklen : Nat}
    (read : readBulkLength c pos = .ready c' pos' bulklen) :
    ∃ trimmed, c' = { c with querybuf := c.querybuf.drop trimmed, bulklen := some bulklen } ∧
      pos ≤ pos' + trimmed := by
  rw [readBulkLength] at read
  split at read
  · next known =>
      cases read
      exact ⟨0, by rw [← known]; rfl, le_rfl⟩
  · split at read
    · split at read <;> cases read
    · split at read
      · cases read
      · split at read
        · split at read
          · cases read
          · split_ifs at read
            · cases read
              exact ⟨_, rfl, by omega⟩
            · cases read
              exact ⟨0, rfl, by omega⟩
        · cases read

/-- Arguments that are read are taken from the buffer. -/
theorem readArguments_shorter {left pos : Nat} {c c' : Client}
    (read : readArguments left c pos = (c', true)) :
    c'.querybuf.length + left ≤ c.querybuf.length - pos := by
  induction left generalizing c pos with
  | zero =>
      cases read
      exact (List.length_drop ..).le
  | succ left ih =>
      rw [readArguments] at read
      split at read
      · cases read
      · cases read
      · next c₁ pos₁ bulklen ready =>
          obtain ⟨trimmed, rfl, moved⟩ := readBulkLength_ready ready
          simp only [List.length_drop] at read
          split_ifs at read with short whole
          · cases read
          · have used := ih read
            simp only [List.length_nil] at used
            omega
          · have used := ih read
            simp only [List.length_drop] at used
            omega

/-- A line that is taken makes the buffer shorter. -/
theorem processInlineBuffer_shorter {c c' : Client} (nonempty : c.querybuf ≠ [])
    (made : processInlineBuffer c = (c', true)) : c'.querybuf.length < c.querybuf.length := by
  have positive := List.length_pos_iff.mpr nonempty
  rw [processInlineBuffer] at made
  split at made
  · split at made <;> cases made
  · simp only at made
    split at made
    · cases made
    · cases made
      simp only [List.length_drop]
      omega

/-- Arguments that are taken make the buffer shorter. -/
theorem processMultibulkBuffer_shorter {c c' : Client} (nonempty : c.querybuf ≠ [])
    (made : processMultibulkBuffer c = some (c', true)) :
    c'.querybuf.length < c.querybuf.length := by
  have positive := List.length_pos_iff.mpr nonempty
  rw [processMultibulkBuffer] at made
  split at made
  · split at made
    · cases made
    · split at made
      · split at made <;> cases made
      · split at made
        · cases made
        · split at made
          · split at made
            · cases made
            · split_ifs at made
              · cases made
              · cases made
                simp only [List.length_drop]
                omega
              · have used := readArguments_shorter (Option.some.inj made)
                omega
          · cases made
  · have used := readArguments_shorter (Option.some.inj made)
    omega

/-- The buffer stays as it is while the type is determined. -/
@[simp]
theorem determineType_querybuf (c : Client) : (determineType c).querybuf = c.querybuf := by
  rw [determineType]
  split <;> rfl

/-- A request that is made is taken from the buffer. -/
theorem parseRequest_shorter {c c' : Client} (nonempty : c.querybuf ≠ [])
    (made : parseRequest c = some (c', true)) : c'.querybuf.length < c.querybuf.length := by
  rw [← determineType_querybuf c]
  rw [← determineType_querybuf c] at nonempty
  rw [parseRequest] at made
  split at made
  · exact processMultibulkBuffer_shorter nonempty made
  · exact processInlineBuffer_shorter nonempty (Option.some.inj made)

section Loop

variable {σ : Type} (server : Server σ)

/-- A command leaves the buffer alone. -/
@[simp]
theorem processCommand_querybuf (s : σ) (c : Client) :
    (processCommand server s c).2.1.querybuf = c.querybuf := by
  rw [processCommand]
  simp only
  split
  · rfl
  · split
    · rfl
    · split
      · rfl
      · split <;> rfl

/-- Executing a request leaves the buffer alone. -/
@[simp]
theorem executeRequest_querybuf (s : σ) (c : Client) :
    (executeRequest server s c).2.1.querybuf = c.querybuf := by
  rw [executeRequest]
  split
  · rfl
  · simp only
    split
    · exact processCommand_querybuf server s c
    · exact processCommand_querybuf server s c

variable {server}

/-- A request that is processed is taken from the buffer. -/
theorem processRequest_shorter {s s' : σ} {c c' : Client} (nonempty : c.querybuf ≠ [])
    (processed : processRequest server s c = some (s', c', true)) :
    c'.querybuf.length < c.querybuf.length := by
  obtain ⟨⟨made, ok⟩, step, result⟩ := Option.map_eq_some_iff.mp processed
  cases ok with
  | false => cases result
  | true =>
      have kept : c'.querybuf = made.querybuf := by
        rw [← executeRequest_querybuf server s made]
        exact congrArg (fun result : σ × Client × Bool => result.2.1.querybuf) result.symm
      rw [kept]
      exact parseRequest_shorter nonempty step

variable (server) in
set_option linter.unusedVariables false in
/-- Keep processing while there is something in the input buffer. -/
def processInputBuffer (s : σ) (c : Client) : Option (σ × Client) :=
  if nothing : c.querybuf = [] then some (s, c)
  else
    match suspended server s c.flags with
    | (s, true) => some (s, c)
    | (s, false) =>
        match processed : processRequest server s c with
        | none => none
        | some (s, c, false) => some (s, c)
        | some (s, c, true) => processInputBuffer s c
termination_by c.querybuf.length
decreasing_by exact processRequest_shorter nothing processed

/-- Nothing is done with an empty buffer. -/
theorem processInputBuffer_empty (s : σ) {c : Client} (nothing : c.querybuf = []) :
    processInputBuffer server s c = some (s, c) := by
  rw [processInputBuffer, dif_pos nothing]

/-- Nothing is done with the buffer of a client that is suspended. -/
theorem processInputBuffer_suspended {s s' : σ} {c : Client} (something : c.querybuf ≠ [])
    (suspends : suspended server s c.flags = (s', true)) :
    processInputBuffer server s c = some (s', c) := by
  rw [processInputBuffer, dif_neg something, suspends]

/-- The loop ends when a request is not complete, wrong, or the last one of the client. -/
theorem processInputBuffer_last {s s' s'' : σ} {c c' : Client} (something : c.querybuf ≠ [])
    (active : suspended server s c.flags = (s', false))
    (processed : processRequest server s' c = some (s'', c', false)) :
    processInputBuffer server s c = some (s'', c') := by
  rw [processInputBuffer, dif_neg something, active]
  simp only
  split
  · next failed => cases failed.symm.trans processed
  · next stopped =>
      cases stopped.symm.trans processed
      rfl
  · next goes => cases goes.symm.trans processed

/-- The loop goes on behind a request. -/
theorem processInputBuffer_next {s s' s'' : σ} {c c' : Client} (something : c.querybuf ≠ [])
    (active : suspended server s c.flags = (s', false))
    (processed : processRequest server s' c = some (s'', c', true)) :
    processInputBuffer server s c = processInputBuffer server s'' c' := by
  rw [processInputBuffer, dif_neg something, active]
  simp only
  split
  · next failed => cases failed.symm.trans processed
  · next stopped => cases stopped.symm.trans processed
  · next goes =>
      cases goes.symm.trans processed
      rfl

end Loop

/-! ## Events -/

/-- How much is read at most: no more than what is missing of a big argument. It is an `int`. -/
def readLength (c : Client) : Int :=
  match c.bulklen with
  | none => protoIobufLen
  | some bulklen =>
      if c.reqtype = .multibulk ∧ c.multibulklen ≠ 0 ∧ protoMbulkBigArg ≤ bulklen then
        min (protoIobufLen : Int) ((bulklen : Int) + 2 - c.querybuf.length)
      else protoIobufLen

/-- The server, a client, and the bytes that the client sent and that were not read yet. -/
structure Connection (σ : Type) where
  server : σ
  client : Client
  unread : Bytes

/-- What happens to a client. -/
inductive Event (σ : Type) where
  /-- Its socket is readable: some bytes have arrived, at most `n`. -/
  | readable (n : Nat)
  /-- The server did something else, such as pausing clients, or not pausing them any more. -/
  | elsewhere (state : σ)
  /-- `unblockClient`. -/
  | unblock
  /-- `processUnblockedClients`. -/
  | resume
  /-- `freeClientAsync`. -/
  | closeAsap
  /-- `freeClient`. -/
  | free

section Events

variable {σ : Type} (server : Server σ)

/-- Process the buffer of the client. -/
def Connection.processInput (connection : Connection σ) : Option (Connection σ) :=
  (processInputBuffer server connection.server connection.client).map fun (s, c) =>
    { connection with server := s, client := c }

/-- Read from the client. A read of no bytes is taken for the end of the connection. -/
def readQueryFromClient (connection : Connection σ) (n : Nat) : Option (Connection σ) :=
  let c := connection.client
  if connection.unread = [] ∨ n = 0 then some connection
  else if readLength c < 0 then none
  else if readLength c = 0 then
    some { connection with client := { c with freed := some .emptyRead } }
  else
    let nread := min n (readLength c).toNat
    let c := { c with querybuf := c.querybuf ++ connection.unread.take nread }
    let unread := connection.unread.drop nread
    if protoMaxQuerybufLen < c.querybuf.length then
      some { connection with client := { c with freed := some .fullBuffer }, unread := unread }
    else Connection.processInput server { connection with client := c, unread := unread }

/-- A client that was blocked by a module is reset only now. -/
def unblockClient (c : Client) : Client :=
  let c := if c.flags.blocked = some .module then resetClient c else c
  { c with flags.blocked := none }

/-- What an event does to a client that is there. -/
def handleEvent (connection : Connection σ) : Event σ → Option (Connection σ)
  | .readable n => readQueryFromClient server connection n
  | .elsewhere state => some { connection with server := state }
  | .unblock => some { connection with client := unblockClient connection.client }
  | .resume =>
      if connection.client.flags.blocked.isSome then some connection
      else connection.processInput server
  | .closeAsap =>
      some { connection with client := { connection.client with flags.closeAsap := true } }
  | .free => some { connection with client := { connection.client with freed := some .elsewhere } }

/-- One event. Nothing happens to a client that was freed. -/
def clientStep (connection : Connection σ) (event : Event σ) : Option (Connection σ) :=
  if connection.client.freed.isSome then some connection else handleEvent server connection event

end Events

end CPrograms.Redis
