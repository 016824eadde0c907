import CPrograms.Library.Runs
import CPrograms.Redis.Networking

/-!
# What a client can do to redis

The bytes of a client may be anything, and so may be what the commands do. No assertion of the
reader of requests fails, and no read is of a negative length. A client that does not keep to the
protocol gets one error reply for it, and none of its bytes is used after that.
-/

namespace CPrograms.Redis

open Library

/-- Nothing is done with the requests of a client that is to be closed, is blocked by a module, or
was freed. -/
def Halted (c : Client) : Prop :=
  c.flags.closeAfterReply = true ∨ c.flags.blocked = some .module ∨ c.freed ≠ none

/-- A client that is blocked or to be closed. -/
def Stopped (flags : Flags) : Prop := flags.blocked ≠ none ∨ flags.closeAfterReply = true

/-- **What holds of every client.** Between requests there are no arguments, unless nothing is done
with them any more; a count begins with a star; of a big argument there is no more than all of it;
and a protocol error is the last thing that a client is told. -/
structure Sound (c : Client) : Prop where
  fresh : c.multibulklen = 0 → c.bulklen = none ∧ (c.argv = [] ∨ Halted c)
  started : c.multibulklen ≠ 0 → c.reqtype = .multibulk
  star : c.reqtype = .multibulk → c.multibulklen = 0 → c.argv = [] → c.querybuf.head? = some 42
  big : ∀ bulklen, c.bulklen = some bulklen → protoMbulkBigArg ≤ bulklen →
    c.querybuf.length ≤ bulklen + 2
  unasked : Stopped c.flags → c.bulklen = none
  named : ∀ command ∈ c.executed, command ≠ []
  errors : c.errors = [] ∨ c.flags.closeAfterReply = true ∧ ∃ error : ProtocolError,
    c.errors = [error] ∧ c.replies.getLast? = some (errorReply error.message)

/-- A client without a request in the making is sound, whatever its flags and its buffer are. -/
theorem sound_of_reset {c : Client} (kind : c.reqtype = .unknown) (left : c.multibulklen = 0)
    (unknown : c.bulklen = none) (fresh : c.argv = [])
    (named : ∀ command ∈ c.executed, command ≠ [])
    (quiet : c.errors = []) : Sound c where
  fresh _ := ⟨unknown, .inl fresh⟩
  started more := absurd left more
  star multibulk := by cases kind.symm.trans multibulk
  big bulklen known := by cases unknown.symm.trans known
  unasked _ := unknown
  named := named
  errors := .inl quiet

/-- Of the argument that is read something is missing. -/
def Short (c : Client) : Prop :=
  ∀ bulklen, c.bulklen = some bulklen → c.querybuf.length < bulklen + 2

/-- Without an argument nothing is missing. -/
theorem short_of_unknown {c : Client} (unknown : c.bulklen = none) : Short c := by
  intro bulklen known
  cases unknown.symm.trans known

/-! ## Making a command -/

/-- What a function that makes a command can come to: a command, or a client that waits or is told
of an error. -/
def Parsed (c : Client) (result : Client × Bool) : Prop :=
  result.1.executed = c.executed ∧ result.1.freed = c.freed ∧
    if result.2 then result.1.multibulklen = 0 ∧ result.1.bulklen = none ∧ result.1.errors = []
    else Sound result.1 ∧ Short result.1

/-- A client that is told of its first error is sound. -/
theorem Sound.protocolError {c : Client} (sound : Sound c) (quiet : c.errors = [])
    (unknown : c.bulklen = none) (error : ProtocolError) (pos : Nat)
    (kept : c.multibulklen = 0 → pos = 0) :
    Sound (protocolError c error pos) ∧ Short (protocolError c error pos) where
  left :=
    { fresh := fun _ => ⟨unknown, .inr (.inl rfl)⟩
      started := sound.started
      star := by
        intro kind left fresh
        change (c.querybuf.drop pos).head? = _
        rw [kept left]
        exact sound.star kind left fresh
      big := by
        intro bulklen known
        cases unknown.symm.trans known
      unasked := fun _ => unknown
      named := sound.named
      errors := by
        refine .inr ⟨rfl, error, ?_, List.getLast?_concat⟩
        change c.errors ++ [error] = _
        rw [quiet]
        rfl }
  right := short_of_unknown unknown

/-- An error in the length of an argument is a protocol error. -/
theorem readBulkLength_error {c c' : Client} {pos : Nat}
    (read : readBulkLength c pos = .error c') :
    ∃ error pos', c' = protocolError c error pos' ∧ c.bulklen = none := by
  rw [readBulkLength] at read
  split at read
  · cases read
  · next unknown =>
      split at read
      · split at read <;> cases read
        exact ⟨_, _, rfl, unknown⟩
      · split at read
        · cases read
        · split at read
          · split at read
            · cases read
              exact ⟨_, _, rfl, unknown⟩
            · split_ifs at read
              cases read
              exact ⟨_, _, rfl, unknown⟩
          · cases read
            exact ⟨_, _, rfl, unknown⟩

/-- A client that waits for a length does not know it. -/
theorem readBulkLength_unknown {c : Client} {pos : Nat} (read : readBulkLength c pos = .wait) :
    c.bulklen = none := by
  cases known : c.bulklen with
  | none => rfl
  | some bulklen =>
      rw [readBulkLength, known] at read
      cases read

/-- A client in the middle of a command, with what it has of it, is sound. -/
theorem Sound.reading {c : Client} (sound : Sound c) (quiet : c.errors = [])
    (kind : c.reqtype = .multibulk) (active : ¬ Stopped c.flags) {querybuf : Bytes}
    (argv : List Bytes) (left : Nat) {bulklen : Option Nat}
    (short : ∀ length, bulklen = some length → querybuf.length < length + 2) :
    Sound { c with querybuf := querybuf, argv := argv, multibulklen := left + 1,
                   bulklen := bulklen } where
  fresh none := absurd none (Nat.succ_ne_zero left)
  started _ := kind
  star _ none := absurd none (Nat.succ_ne_zero left)
  big length known _ := (short length known).le
  unasked stopped := absurd stopped active
  named := sound.named
  errors := .inl quiet

/-- **Arguments** are read, whatever the bytes are. -/
theorem Sound.readArguments {c : Client} (sound : Sound c) (quiet : c.errors = [])
    (kind : c.reqtype = .multibulk) (active : ¬ Stopped c.flags) (left : Nat) {querybuf : Bytes}
    {argv : List Bytes} {bulklen : Option Nat} (last : left = 0 → bulklen = none) (pos : Nat) :
    Parsed c (readArguments left { c with querybuf := querybuf, argv := argv,
                                          bulklen := bulklen } pos) := by
  induction left generalizing querybuf argv bulklen pos with
  | zero => exact ⟨rfl, rfl, rfl, last rfl, quiet⟩
  | succ left ih =>
      rw [Redis.readArguments]
      split
      · next waits =>
          have unknown : bulklen = none := readBulkLength_unknown waits
          have short : ∀ length, bulklen = some length →
              (querybuf.drop pos).length < length + 2 := by
            intro length known
            cases unknown.symm.trans known
          exact ⟨rfl, rfl, sound.reading quiet kind active argv left short, short⟩
      · next failed =>
          obtain ⟨error, pos', rfl, unknown⟩ := readBulkLength_error failed
          have reading : Sound { c with querybuf := querybuf, argv := argv,
                                        multibulklen := left + 1, bulklen := bulklen } :=
            sound.reading quiet kind active argv left fun length known => by
              cases unknown.symm.trans known
          have told := reading.protocolError quiet unknown error pos'
            fun none => absurd none (Nat.succ_ne_zero left)
          exact ⟨rfl, rfl, told⟩
      · next c' pos' length ready =>
          obtain ⟨trimmed, rfl, -⟩ := readBulkLength_ready ready
          split_ifs with missing just
          · have short : ∀ length', some length = some length' →
                ((querybuf.drop trimmed).drop pos').length < length' + 2 := by
              rintro length' ⟨⟩
              rw [List.length_drop]
              exact missing
            exact ⟨rfl, rfl, sound.reading quiet kind active argv left short, short⟩
          · exact ih (fun _ => rfl) 0
          · exact ih (fun _ => rfl) _

/-- **A line**, whatever the bytes are. -/
theorem Sound.processInlineBuffer {c : Client} (sound : Sound c) (quiet : c.errors = [])
    (kind : c.reqtype = .inline) : Parsed c (processInlineBuffer c) := by
  have left : c.multibulklen = 0 := by
    by_contra more
    cases kind.symm.trans (sound.started more)
  have unknown := (sound.fresh left).1
  rw [Redis.processInlineBuffer]
  split
  · split_ifs
    · exact ⟨rfl, rfl, sound.protocolError quiet unknown _ 0 fun _ => rfl⟩
    · exact ⟨rfl, rfl, sound, short_of_unknown unknown⟩
  · simp only
    split
    · exact ⟨rfl, rfl, sound.protocolError quiet unknown _ 0 fun _ => rfl⟩
    · exact ⟨rfl, rfl, left, unknown, quiet⟩

/-- **A command**, whatever the bytes are: the assertions hold. -/
theorem Sound.processMultibulkBuffer {c : Client} (sound : Sound c) (quiet : c.errors = [])
    (kind : c.reqtype = .multibulk) (active : ¬ Stopped c.flags)
    (fresh : c.multibulklen = 0 → c.argv = []) :
    ∃ result, processMultibulkBuffer c = some result ∧ Parsed c result := by
  rw [Redis.processMultibulkBuffer]
  by_cases left : c.multibulklen = 0
  · have unknown := (sound.fresh left).1
    have failed : ∀ error, Parsed c (Redis.protocolError c error 0, false) := fun error =>
      ⟨rfl, rfl, sound.protocolError quiet unknown error 0 fun _ => rfl⟩
    have waits : Parsed c (c, false) := ⟨rfl, rfl, sound, short_of_unknown unknown⟩
    obtain ⟨count, text⟩ : ∃ count, c.querybuf = 42 :: count :=
      List.head?_eq_some_iff.mp (sound.star kind left (fresh left))
    rw [if_pos left, if_neg (Classical.not_not.mpr (fresh left))]
    split
    · split_ifs
      · exact ⟨_, rfl, failed _⟩
      · exact ⟨_, rfl, waits⟩
    · split_ifs
      · exact ⟨_, rfl, waits⟩
      · rw [text]
        simp only
        split
        · exact ⟨_, rfl, failed _⟩
        · split_ifs
          · exact ⟨_, rfl, failed _⟩
          · exact ⟨_, rfl, rfl, rfl, left, unknown, quiet⟩
          · exact ⟨_, rfl, sound.readArguments quiet kind active _ (fun _ => unknown) _⟩
  · rw [if_neg left]
    exact ⟨_, rfl, sound.readArguments quiet kind active _ (fun none => absurd none left) _⟩

/-- Once its type is determined, a request has a known one. -/
theorem Sound.determined {c : Client} (sound : Sound c) :
    Sound (determineType c) ∧ (determineType c).reqtype ≠ .unknown := by
  rw [determineType]
  split_ifs with unknown star
  · exact ⟨⟨sound.fresh, fun _ => rfl, fun _ _ _ => star, sound.big, sound.unasked, sound.named,
      sound.errors⟩, ReqType.noConfusion⟩
  · refine ⟨⟨sound.fresh, fun left => ?_, ReqType.noConfusion, sound.big, sound.unasked,
      sound.named, sound.errors⟩, ReqType.noConfusion⟩
    cases unknown.symm.trans (sound.started left)
  · exact ⟨sound, unknown⟩

/-- The type of the request is all that is determined. -/
theorem determineType_same (c : Client) : ∃ kind, determineType c = { c with reqtype := kind } := by
  rw [determineType]
  split
  · exact ⟨_, rfl⟩
  · exact ⟨c.reqtype, rfl⟩

/-- A client whose requests are processed: it is not blocked, closed or freed. -/
structure Active (c : Client) : Prop where
  unblocked : c.flags.blocked = none
  going : c.flags.closeAfterReply = false
  connected : c.freed = none

/-- An active client is not stopped. -/
theorem Active.not_stopped {c : Client} (active : Active c) : ¬ Stopped c.flags := by
  rw [Stopped, active.unblocked, active.going]
  simp

/-- An active client is not halted. -/
theorem Active.not_halted {c : Client} (active : Active c) : ¬ Halted c := by
  rw [Halted, active.unblocked, active.going, active.connected]
  simp

/-- **The first part of a round**, whatever the bytes are. -/
theorem Sound.parseRequest {c : Client} (sound : Sound c) (active : Active c) :
    ∃ result, parseRequest c = some result ∧ Parsed c result := by
  have quiet : c.errors = [] := by
    rcases sound.errors with quiet | ⟨closing, -⟩
    · exact quiet
    · cases active.going.symm.trans closing
  obtain ⟨kind, same⟩ := determineType_same c
  obtain ⟨sound', known⟩ := sound.determined
  rw [Redis.parseRequest]
  rw [same] at sound' known ⊢
  have result : ∃ result, (if kind = .multibulk then
        Redis.processMultibulkBuffer { c with reqtype := kind }
      else some (Redis.processInlineBuffer { c with reqtype := kind })) = some result ∧
      Parsed { c with reqtype := kind } result := by
    split_ifs with multibulk
    · exact sound'.processMultibulkBuffer quiet multibulk active.not_stopped fun left =>
        (sound.fresh left).2.resolve_right active.not_halted
    · refine ⟨_, rfl, sound'.processInlineBuffer quiet ?_⟩
      cases kind with
      | unknown => exact absurd rfl known
      | inline => rfl
      | multibulk => exact absurd rfl multibulk
  exact result

/-! ## Executing it -/

section Loop

variable {σ : Type} (server : Server σ)

/-- What a command does to a client that has no request in the making. -/
theorem processCommand_sound (s : σ) {c : Client} (left : c.multibulklen = 0)
    (unknown : c.bulklen = none) (quiet : c.errors = []) (args : c.argv ≠ [])
    (named : ∀ command ∈ c.executed, command ≠ []) {c' : Client} {s' : σ} {ok : Bool}
    (executed : processCommand server s c = (s', c', ok)) :
    c'.multibulklen = 0 ∧ c'.bulklen = none ∧ c'.errors = [] ∧ c'.argv ≠ [] ∧
      (∀ command ∈ c'.executed, command ≠ []) ∧ (ok = false → Halted c') ∧
      (c'.freed = c.freed ∨ c'.freed = some .evicted) := by
  have named' : ∀ command ∈ c.executed ++ [c.argv], command ≠ [] := by
    intro command member
    rcases List.mem_append.mp member with before | now
    · exact named command before
    · rw [List.mem_singleton.mp now]
      exact args
  rw [processCommand] at executed
  simp only at executed
  split at executed
  · cases executed
    exact ⟨left, unknown, quiet, args, named', fun _ => .inl rfl, .inl rfl⟩
  · split at executed
    · cases executed
      exact ⟨left, unknown, quiet, args, named', Bool.noConfusion, .inl rfl⟩
    · split at executed
      · cases executed
        exact ⟨left, unknown, quiet, args, named', Bool.noConfusion, .inl rfl⟩
      · split at executed
        · cases executed
          exact ⟨left, unknown, quiet, args, named', fun _ => .inr (.inr (Option.some_ne_none _)),
            .inr rfl⟩
        · cases executed
          exact ⟨left, unknown, quiet, args, named', Bool.noConfusion, .inl rfl⟩

/-- After a round the client is connected, or was freed by a command, and then the loop ends. -/
def Continues (c : Client) (more : Bool) : Prop :=
  (more = true → c.freed = none) ∧ (c.freed = none ∨ c.freed = some .evicted)

/-- **The second part of a round**: whatever the command does, the client is sound. -/
theorem executeRequest_sound (s : σ) {c : Client} (left : c.multibulklen = 0)
    (unknown : c.bulklen = none) (quiet : c.errors = [])
    (named : ∀ command ∈ c.executed, command ≠ []) {c' : Client} {s' : σ} {more : Bool}
    (connected : c.freed = none) (executed : executeRequest server s c = (s', c', more)) :
    Sound c' ∧ Short c' ∧ Continues c' more := by
  rw [executeRequest] at executed
  split at executed
  · cases executed
    exact ⟨sound_of_reset rfl rfl rfl rfl named quiet, short_of_unknown rfl, fun _ => connected,
      .inl connected⟩
  · next args =>
      generalize result : processCommand server s c = outcome at executed
      obtain ⟨s₁, c₁, ok⟩ := outcome
      obtain ⟨left', unknown', quiet', args', named', failed, freed⟩ :=
        processCommand_sound server s left unknown quiet args named result
      cases executed
      refine ⟨?_, ?_, fun goes => ?_, ?_⟩
      · split_ifs with reset
        · exact sound_of_reset rfl rfl rfl rfl named' quiet'
        · have halted : Halted c₁ := by
            rw [not_and_or, Classical.not_not] at reset
            rcases reset with wrong | blocked
            · exact failed (Bool.not_eq_true _ ▸ wrong)
            · exact .inr (.inl blocked)
          refine ⟨fun _ => ⟨unknown', .inr halted⟩, fun some => absurd left' some,
            fun _ _ none => absurd none args', fun length known => ?_, fun _ => unknown', named',
            .inl quiet'⟩
          cases unknown'.symm.trans known
      · split_ifs
        · exact short_of_unknown rfl
        · exact short_of_unknown unknown'
      · have connected' : c₁.freed = none := Option.isNone_iff_eq_none.mp goes
        split_ifs
        · exact connected'
        · exact connected'
      · rw [connected] at freed
        split_ifs
        · exact freed
        · exact freed

variable {server}

/-- **One round of the loop**, whatever the bytes are and whatever the command does. -/
theorem Sound.processRequest {c : Client} (sound : Sound c) (active : Active c) (s : σ) :
    ∃ s' c' more, processRequest server s c = some (s', c', more) ∧ Sound c' ∧ Short c' ∧
      Continues c' more := by
  obtain ⟨⟨made, ok⟩, parsed, executed, freed, result⟩ := sound.parseRequest active
  rw [Redis.processRequest, parsed, Option.map_some]
  cases ok with
  | false =>
      exact ⟨s, made, false, rfl, result.1, result.2, fun _ => freed.trans active.connected,
        .inl (freed.trans active.connected)⟩
  | true =>
      obtain ⟨left, unknown, quiet⟩ := result
      have named : ∀ command ∈ made.executed, command ≠ [] := executed.symm ▸ sound.named
      generalize done : executeRequest server s made = outcome
      obtain ⟨s', c', more⟩ := outcome
      obtain ⟨sound', short, goes⟩ :=
        executeRequest_sound server s left unknown quiet named (freed.trans active.connected) done
      exact ⟨s', c', more, congrArg some done, sound', short, goes⟩

/-- A client that is not suspended is active. -/
theorem active_of_suspended {s s' : σ} {c : Client} (connected : c.freed = none)
    (goes : suspended server s c.flags = (s', false)) : Active c := by
  have tests := congrArg Prod.snd goes
  simp only [suspended, Bool.or_eq_false_iff] at tests
  exact ⟨Option.isSome_eq_false_iff.mp tests.1.1.2 |> Option.isNone_iff_eq_none.mp, tests.1.2,
    connected⟩

/-- A client that is suspended, but not by a pause and not because it is to be closed at once, is
not in the middle of an argument. -/
theorem Sound.short_of_suspended {s s' : σ} {c : Client} (sound : Sound c)
    (unpaused : server.Unpaused) (kept : c.flags.closeAsap = false)
    (stops : suspended server s c.flags = (s', true)) : Short c := by
  refine short_of_unknown (sound.unasked ?_)
  have tests := congrArg Prod.snd stops
  simp only [suspended, Bool.or_eq_true, kept, Bool.false_eq_true, or_false] at tests
  rcases tests with (paused | blocked) | closing
  · split at paused
    · cases paused
    · cases (unpaused s).symm.trans paused
  · exact .inl (Option.isSome_iff_ne_none.mp blocked)
  · exact .inr closing

/-- **The loop**, whatever the bytes are and whatever the commands do. -/
theorem Sound.loop {c : Client} (sound : Sound c) (connected : c.freed = none) (s : σ) :
    ∃ s' c', processInputBuffer server s c = some (s', c') ∧ Sound c' ∧
      c'.freed ≠ some .emptyRead ∧
      (server.Unpaused → (c.querybuf = [] → c.flags.closeAsap = false → Short c) →
        c'.flags.closeAsap = false → Short c') := by
  induction size : c.querybuf.length using Nat.strong_induction_on generalizing c s with
  | _ size ih =>
      subst size
      have open' : c.freed ≠ some .emptyRead := by
        rw [connected]
        exact (Option.some_ne_none _).symm
      by_cases empty : c.querybuf = []
      · exact ⟨s, c, processInputBuffer_empty s empty, sound, open', fun _ short => short empty⟩
      · generalize tests : suspended server s c.flags = outcome
        obtain ⟨s₁, stops⟩ := outcome
        cases stops with
        | true =>
            exact ⟨s₁, c, processInputBuffer_suspended empty tests, sound, open',
              fun unpaused _ kept => sound.short_of_suspended unpaused kept tests⟩
        | false =>
            obtain ⟨s₂, c₂, more, processed, sound₂, short₂, connected₂, freed₂⟩ :=
              sound.processRequest (active_of_suspended connected tests) s₁
            cases more with
            | false =>
                refine ⟨s₂, c₂, processInputBuffer_last empty tests processed, sound₂, ?_,
                  fun _ _ _ => short₂⟩
                rcases freed₂ with none | evicted
                · rw [none]
                  exact (Option.some_ne_none _).symm
                · rw [evicted]
                  decide
            | true =>
                obtain ⟨s', c', looped, sound', freed', short'⟩ :=
                  ih _ (processRequest_shorter empty processed) sound₂ (connected₂ rfl) s₂ rfl
                rw [processInputBuffer_next empty tests processed]
                exact ⟨s', c', looped, sound', freed', fun unpaused _ =>
                  short' unpaused fun _ _ => short₂⟩

end Loop

/-! ## Events -/

/-- A read has no negative length: no more of a big argument than all of it has been read. -/
theorem Sound.readLength_nonneg {c : Client} (sound : Sound c) : 0 ≤ readLength c := by
  rw [readLength]
  split
  · exact Int.natCast_nonneg _
  · next bulklen known =>
      split_ifs with big
      · have within := sound.big bulklen known big.2.2
        exact le_min (Int.natCast_nonneg _) (by omega)
      · exact Int.natCast_nonneg _

/-- A read has a length while something is missing. -/
theorem readLength_pos {c : Client} (short : Short c) : 0 < readLength c := by
  have full : (0 : Int) < protoIobufLen := by decide
  rw [readLength]
  split
  · exact full
  · next bulklen known =>
      have missing := short bulklen known
      split_ifs
      · exact lt_min full (by omega)
      · exact full

/-- More bytes behind the others, as many as a read may give, change nothing about a client. -/
theorem Sound.append {c : Client} (sound : Sound c) {chunk : Bytes}
    (few : (chunk.length : Int) ≤ readLength c) :
    Sound { c with querybuf := c.querybuf ++ chunk } where
  fresh := sound.fresh
  started := sound.started
  star := by
    intro kind left fresh
    obtain ⟨count, text⟩ := List.head?_eq_some_iff.mp (sound.star kind left fresh)
    change (c.querybuf ++ chunk).head? = _
    rw [text]
    rfl
  big := by
    intro bulklen known big
    have known : c.bulklen = some bulklen := known
    have left : c.multibulklen ≠ 0 := by
      intro none
      cases (sound.fresh none).1.symm.trans known
    rw [readLength, known] at few
    simp only [sound.started left, left, big, ne_eq, not_false_eq_true, and_self, if_true] at few
    change (c.querybuf ++ chunk).length ≤ _
    rw [List.length_append]
    have bound := few.trans (min_le_right _ _)
    omega
  unasked := sound.unasked
  named := sound.named
  errors := sound.errors

/-- A client that is freed stays sound. -/
theorem Sound.free {c : Client} (sound : Sound c) (reason : Freed) :
    Sound { c with freed := some reason } where
  fresh left := ⟨(sound.fresh left).1, .inr (.inr (.inr (Option.some_ne_none _)))⟩
  started := sound.started
  star := sound.star
  big := sound.big
  unasked := sound.unasked
  named := sound.named
  errors := sound.errors

section Events

variable {σ : Type} {server : Server σ}

/-- A client that is connected misses something, if clients are not paused and it is not to be
closed at once; and it was not freed by a read of no bytes. -/
def Reads (server : Server σ) (c : Client) : Prop :=
  server.Unpaused → c.flags.closeAsap = false →
    (c.freed = none → Short c) ∧ c.freed ≠ some .emptyRead

/-- What holds of a client between the events. -/
def Safe (server : Server σ) (c : Client) : Prop := Sound c ∧ Reads server c

/-- The loop leaves a client safe. -/
theorem Sound.processInput {c : Client} (sound : Sound c) (connected : c.freed = none)
    (short : server.Unpaused → c.querybuf = [] → c.flags.closeAsap = false → Short c) (s : σ)
    (unread : Bytes) :
    ∃ next, Connection.processInput server ⟨s, c, unread⟩ = some next ∧
      Safe server next.client := by
  obtain ⟨s', c', looped, sound', freed, short'⟩ := sound.loop connected s
  refine ⟨⟨s', c', unread⟩, ?_, sound', fun unpaused kept => ⟨fun _ => ?_, freed⟩⟩
  · rw [Connection.processInput, looped]
    rfl
  · exact short' unpaused (short unpaused) kept

/-- **One read**, whatever the bytes are. -/
theorem Safe.read {connection : Connection σ} (safe : Safe server connection.client)
    (connected : connection.client.freed = none) (n : Nat) :
    ∃ next, readQueryFromClient server connection n = some next ∧ Safe server next.client := by
  obtain ⟨s, c, unread⟩ := connection
  obtain ⟨sound, reads⟩ := safe
  change c.freed = none at connected
  rw [readQueryFromClient]
  by_cases nothing : unread = [] ∨ n = 0
  · rw [if_pos nothing]
    exact ⟨_, rfl, sound, reads⟩
  · have nonneg := sound.readLength_nonneg
    change 0 ≤ readLength c at nonneg
    rw [if_neg nothing, if_neg (Int.not_lt.mpr nonneg)]
    rw [not_or] at nothing
    by_cases zero : readLength c = 0
    · rw [if_pos zero]
      refine ⟨_, rfl, sound.free _, fun unpaused kept => ?_⟩
      have positive : 0 < readLength c := readLength_pos ((reads unpaused kept).1 connected)
      omega
    · have chunk : unread.take (min n (readLength c).toNat) ≠ [] := by
        rw [ne_eq, List.take_eq_nil_iff]
        rintro (none | empty)
        · omega
        · exact nothing.1 empty
      have few : ((unread.take (min n (readLength c).toNat)).length : Int) ≤ readLength c := by
        rw [List.length_take]
        omega
      have sound' := sound.append few
      rw [if_neg zero]
      simp only
      split_ifs
      · refine ⟨_, rfl, sound'.free _, fun _ _ => ⟨fun none => ?_, ?_⟩⟩
        · cases none
        · exact fun same => absurd (Option.some.inj same) (by decide)
      · exact sound'.processInput connected
          (fun _ empty => absurd (List.append_eq_nil_iff.mp empty).2 chunk) s _

/-- A client that is unblocked is sound. -/
theorem Sound.unblockClient {c : Client} (sound : Sound c) : Sound (unblockClient c) := by
  rw [Redis.unblockClient]
  have quiet : c.errors = [] ∨ c.flags.closeAfterReply = true ∧ ∃ error : ProtocolError,
      c.errors = [error] ∧ c.replies.getLast? = some (errorReply error.message) := sound.errors
  split_ifs with module
  · exact ⟨fun _ => ⟨rfl, .inl rfl⟩, fun some => absurd rfl some, ReqType.noConfusion,
      fun _ known => absurd known (Option.some_ne_none _).symm, fun _ => rfl, sound.named, quiet⟩
  · refine ⟨fun left => ⟨(sound.fresh left).1, ?_⟩, sound.started, sound.star, sound.big,
      fun stopped => sound.unasked (.inr ?_), sound.named, quiet⟩
    · rcases (sound.fresh left).2 with fresh | closing | blocked | freed
      · exact .inl fresh
      · exact .inr (.inl closing)
      · exact absurd blocked module
      · exact .inr (.inr (.inr freed))
    · exact stopped.resolve_left fun some => some rfl

/-- Unblocking leaves a client safe. -/
theorem Safe.unblockClient {c : Client} (safe : Safe server c) : Safe server (unblockClient c) := by
  refine ⟨safe.1.unblockClient, fun unpaused kept => ?_⟩
  rw [Redis.unblockClient] at kept ⊢
  split_ifs at kept ⊢
  · exact ⟨fun _ => short_of_unknown rfl, (safe.2 unpaused kept).2⟩
  · exact safe.2 unpaused kept

/-- **One event**, whatever it is. -/
theorem Safe.step (connection : Connection σ) (event : Event σ)
    (safe : Safe server connection.client) :
    ∃ next, clientStep server connection event = some next ∧ Safe server next.client := by
  rw [clientStep]
  by_cases freed : connection.client.freed.isSome = true
  · rw [if_pos freed]
    exact ⟨connection, rfl, safe⟩
  · rw [if_neg freed]
    have connected : connection.client.freed = none := by simpa using freed
    cases event with
    | readable n => exact safe.read connected n
    | elsewhere state => exact ⟨_, rfl, safe⟩
    | unblock => exact ⟨_, rfl, safe.unblockClient⟩
    | resume =>
        rw [handleEvent]
        split_ifs
        · exact ⟨connection, rfl, safe⟩
        · exact safe.1.processInput connected
            (fun unpaused _ kept => (safe.2 unpaused kept).1 connected) _ _
    | closeAsap =>
        refine ⟨_, rfl, ?_, fun _ kept => by cases kept⟩
        exact ⟨safe.1.fresh, safe.1.started, safe.1.star, safe.1.big, safe.1.unasked, safe.1.named,
          safe.1.errors⟩
    | free =>
        refine ⟨_, rfl, safe.1.free _, fun _ _ => ⟨fun none => ?_, fun same => ?_⟩⟩
        · cases none
        · exact absurd (Option.some.inj same) (by decide)

/-! ## Clients that are to be closed -/

end Events

end CPrograms.Redis
