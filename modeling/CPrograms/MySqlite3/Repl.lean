import CPrograms.Library.CString
import CPrograms.Library.Lines

/-!
# The prompt of my-sqlite3

`main` reads a line at a time, leaves at `.exit`, executes what starts with `insert` and
what is `select`, and reports every other line. `readInput` cuts the last byte off what
`getline` returns. That byte is the newline, except on a last line that has none, which
loses a character: on which streams this can be seen is `main_eq_expected_iff`.
-/

namespace CPrograms.MySqlite3

open Library

/-- `'\n'` -/
def newline : UInt8 := 10

/-- `".exit"` -/
def dotExit : CString := ⟨[46, 101, 120, 105, 116], by decide⟩

/-- `"insert"` -/
def insert : CString := ⟨[105, 110, 115, 101, 114, 116], by decide⟩

/-- `"select"` -/
def select : CString := ⟨[115, 101, 108, 101, 99, 116], by decide⟩

/-- What the program prints. -/
inductive Message where
  | prompt
  | readError
  | unrecognizedCommand (buffer : List UInt8)
  | unrecognizedKeyword (buffer : List UInt8)
  | insertStub
  | selectStub
  | statementExecuted
  deriving DecidableEq

/-- The printed bytes. -/
def Message.text : Message → List UInt8
  | prompt => ascii "db>> "
  | readError => ascii "Error reading input\n"
  | unrecognizedCommand buffer => ascii "Unrecognized command '" ++ buffer ++ ascii "'\n"
  | unrecognizedKeyword buffer =>
      ascii "Unrecognized keyword at start of '" ++ buffer ++ ascii "'\n"
  | insertStub => ascii "This is where we would insert data.\n"
  | selectStub => ascii "This is where we would select data\n"
  | statementExecuted => ascii "Statement executed.\n"

/-- `EXIT_SUCCESS` and `EXIT_FAILURE`. -/
inductive ExitStatus where
  | success
  | failure
  deriving DecidableEq

/-- A finished run: what was printed, in order, and the exit status. -/
structure Run where
  messages : List Message
  status : ExitStatus
  deriving DecidableEq

/-- A run that first prints some messages. -/
def Run.after (run : Run) (messages : List Message) : Run :=
  ⟨messages ++ run.messages, run.status⟩

/-- The standard output of a run. -/
def Run.stdout (run : Run) : List UInt8 := run.messages.flatMap Message.text

/-- Read a line and put a NUL in the place of its last byte. There is no buffer when
nothing could be read. -/
def readInput (stdin : List UInt8) : Option (CString × List UInt8) :=
  (Lines.getline newline stdin).map fun (line, rest) => (.ofBytes line.dropLast, rest)

/-- The results of `doMetaCommand`. -/
inductive MetaResult where
  | success
  | failed

/-- A line that starts with a dot. The program exits at `.exit`, and then there is no
result. -/
def doMetaCommand (buffer : CString) : Option MetaResult :=
  if strcmp buffer dotExit = 0 then none else some .failed

/-- The kinds of statements. -/
inductive StatementType where
  | insert
  | select

/-- Recognise a statement by how it starts, or by all of it. -/
def prepareStatement (buffer : CString) : Option StatementType :=
  if strncmp buffer insert 6 = 0 then some .insert
  else if strcmp buffer select = 0 then some .select
  else none

/-- Statements are stubs that say what they would do. -/
def executeStatement : StatementType → Message
  | .insert => .insertStub
  | .select => .selectStub

/-- The body of the loop once a line is read, unless the program exits in it. -/
def dispatch (buffer : CString) : Option (List Message) :=
  if buffer.bytes.head? = some 46 then
    match doMetaCommand buffer with
    | none => none
    | some .success => some []
    | some .failed => some [.unrecognizedCommand buffer.bytes]
  else
    match prepareStatement buffer with
    | none => some [.unrecognizedKeyword buffer.bytes]
    | some type => some [executeStatement type, .statementExecuted]

/-- Reading a line takes something off the input. -/
theorem readInput_shorter {stdin rest : List UInt8} {buffer : CString}
    (read : readInput stdin = some (buffer, rest)) : rest.length < stdin.length := by
  obtain ⟨⟨line, rest⟩, got, same⟩ := Option.map_eq_some_iff.mp read
  cases same
  exact Lines.getline_shorter got

/-- Prompt, read and dispatch until the input ends or a line is `.exit`. -/
def main (stdin : List UInt8) : Run :=
  match _read : readInput stdin with
  | none => ⟨[.prompt, .readError], .failure⟩
  | some (buffer, rest) =>
      match dispatch buffer with
      | none => ⟨[.prompt], .success⟩
      | some messages => (main rest).after (.prompt :: messages)
  termination_by stdin.length
  decreasing_by exact readInput_shorter _read

/-! ## What the lines of the input ask for -/

/-- The answer to a line other than `.exit`. -/
def answer (line : List UInt8) : List Message :=
  if line = select.bytes then [.selectStub, .statementExecuted]
  else if insert.bytes <+: line then [.insertStub, .statementExecuted]
  else if line.head? = some 46 then [.unrecognizedCommand line]
  else [.unrecognizedKeyword line]

/-- The run that some lines ask for: each line before the first `.exit` is answered, and
then the program stops, successfully at `.exit` and with the read error without one. -/
def runOfLines (lines : List (List UInt8)) : Run :=
  let answered := lines.takeWhile (· ≠ dotExit.bytes)
  if dotExit.bytes ∈ lines then
    ⟨answered.flatMap (fun line => .prompt :: answer line) ++ [.prompt], .success⟩
  else
    ⟨answered.flatMap (fun line => .prompt :: answer line) ++ [.prompt, .readError], .failure⟩

/-- The last line of the input where it has no newline. -/
def lastLine (stdin : List UInt8) : List UInt8 := (Lines.split newline stdin).2

/-- The lines of the input that a newline ends. -/
def endedLines (stdin : List UInt8) : List (List UInt8) := (Lines.split newline stdin).1

/-- The lines as `readInput` hands them on. -/
def seenLines (stdin : List UInt8) : List (List UInt8) :=
  endedLines stdin ++ if lastLine stdin = [] then [] else [(lastLine stdin).dropLast]

/-- The run the input asks for. -/
def expected (stdin : List UInt8) : Run := runOfLines (Lines.lines newline stdin)

/-- Without lines there is only the read error. -/
theorem runOfLines_nil : runOfLines [] = ⟨[.prompt, .readError], .failure⟩ := rfl

/-- At `.exit` the program stops. -/
theorem runOfLines_exit (lines : List (List UInt8)) :
    runOfLines (dotExit.bytes :: lines) = ⟨[.prompt], .success⟩ := by
  simp [runOfLines]

/-- Any other line is answered, and then the rest. -/
theorem runOfLines_cons {line : List UInt8} (other : line ≠ dotExit.bytes)
    (lines : List (List UInt8)) :
    runOfLines (line :: lines) = (runOfLines lines).after (.prompt :: answer line) := by
  by_cases leaves : dotExit.bytes ∈ lines
  · simp [runOfLines, Run.after, leaves, other]
  · simp [runOfLines, Run.after, leaves, other, other.symm]

/-- A line that a newline ends is seen as it is. -/
theorem seenLines_line {line : List UInt8} (unended : newline ∉ line) (text : List UInt8) :
    seenLines (line ++ newline :: text) = line :: seenLines text := by
  unfold seenLines endedLines lastLine
  rw [Lines.split_line unended]
  rfl

/-- A line whose bytes are those before the NUL of the buffer is answered as it asks. -/
theorem dispatch_eq (buffer : CString) :
    dispatch buffer =
      if buffer.bytes = dotExit.bytes then none else some (answer buffer.bytes) := by
  have exits : strcmp buffer dotExit = 0 ↔ buffer.bytes = dotExit.bytes := by
    rw [strcmp_eq_zero_iff, CString.ext_iff]
  have selects : strcmp buffer select = 0 ↔ buffer.bytes = select.bytes := by
    rw [strcmp_eq_zero_iff, CString.ext_iff]
  have inserts : strncmp buffer insert 6 = 0 ↔ insert.bytes <+: buffer.bytes :=
    strncmp_eq_zero_iff buffer insert
  simp only [dispatch, doMetaCommand, prepareStatement, exits, selects, inserts, answer]
  generalize buffer.bytes = line
  by_cases dot : line.head? = some 46
  · have noSelect : line ≠ select.bytes := by
      rintro rfl
      exact absurd dot (by decide)
    have noInsert : ¬ insert.bytes <+: line := by
      rintro ⟨rest, rfl⟩
      exact absurd dot (by simp [insert])
    rw [if_pos dot]
    by_cases leaves : line = dotExit.bytes
    · rw [if_pos leaves, if_pos leaves]
    · rw [if_neg leaves, if_neg leaves, if_neg noSelect, if_neg noInsert, if_pos dot]
  · have stays : line ≠ dotExit.bytes := by
      rintro rfl
      exact dot rfl
    by_cases selected : line = select.bytes
    · subst selected
      simp [stays, dot, show ¬ insert.bytes <+: select.bytes by decide, executeStatement]
    · by_cases inserted : insert.bytes <+: line <;>
        simp [stays, dot, selected, inserted, executeStatement]

/-- One round of `main` answers the line that was read. -/
theorem main_of_read {stdin rest : List UInt8} {buffer : CString}
    (read : readInput stdin = some (buffer, rest)) (lines : List (List UInt8))
    (later : main rest = runOfLines lines) : main stdin = runOfLines (buffer.bytes :: lines) := by
  rw [main]
  split
  · next none =>
      rw [read] at none
      cases none
  · next buffer' rest' read' =>
      rw [read] at read'
      cases read'
      rw [dispatch_eq]
      by_cases leaves : buffer.bytes = dotExit.bytes
      · rw [if_pos leaves, leaves, runOfLines_exit]
      · rw [if_neg leaves, runOfLines_cons leaves, later]

/-- `main` does what the lines it sees ask for. -/
theorem main_eq_runOfLines (stdin : List UInt8) (nulFree : 0 ∉ stdin) :
    main stdin = runOfLines (seenLines stdin) := by
  induction stdin using Lines.lines_induction newline with
  | last last unended =>
      rw [seenLines, endedLines, lastLine, Lines.split_last unended]
      by_cases empty : last = []
      · subst empty
        rw [main]
        rfl
      · have read : readInput last = some (.ofBytes last.dropLast, []) := by
          rw [readInput, Lines.getline_last unended empty]
          rfl
        have bytes := CString.bytes_ofBytes fun member => nulFree (List.mem_of_mem_dropLast member)
        have finish : main [] = runOfLines [] := by
          rw [main]
          rfl
        rw [main_of_read read [] finish, bytes, if_neg empty, List.nil_append]
  | line line text unended ih =>
      rw [List.mem_append, List.mem_cons, not_or, not_or] at nulFree
      obtain ⟨lineFree, -, textFree⟩ := nulFree
      have read : readInput (line ++ newline :: text) = some (.ofBytes line, text) := by
        rw [readInput, Lines.getline_line unended]
        simp only [Option.map_some, List.dropLast_concat]
      rw [main_of_read read _ (ih textFree), CString.bytes_ofBytes lineFree, seenLines_line unended]

/-! ## Where the lost byte shows -/

/-- The answers there are. -/
theorem answer_cases (line : List UInt8) :
    (line = select.bytes ∧ answer line = [.selectStub, .statementExecuted]) ∨
      (insert.bytes <+: line ∧ answer line = [.insertStub, .statementExecuted]) ∨
      answer line = [.unrecognizedCommand line] ∨ answer line = [.unrecognizedKeyword line] := by
  unfold answer
  by_cases selected : line = select.bytes
  · exact .inl ⟨selected, if_pos selected⟩
  · rw [if_neg selected]
    by_cases inserted : insert.bytes <+: line
    · exact .inr (.inl ⟨inserted, if_pos inserted⟩)
    · rw [if_neg inserted]
      by_cases dot : line.head? = some 46
      · exact .inr (.inr (.inl (if_pos dot)))
      · exact .inr (.inr (.inr (if_neg dot)))

/-- Different lines have the same answer only if both are inserts. -/
theorem insert_of_answer_eq {first second : List UInt8} (same : answer first = answer second)
    (different : first ≠ second) : insert.bytes <+: first := by
  rcases answer_cases first with ⟨rfl, shape⟩ | ⟨inserted, -⟩ | shape | shape
  · rcases answer_cases second with ⟨rfl, -⟩ | ⟨-, other⟩ | other | other
    · exact absurd rfl different
    all_goals
      rw [shape, other] at same
      simp at same
  · exact inserted
  all_goals
    rcases answer_cases second with ⟨-, other⟩ | ⟨-, other⟩ | other | other
    all_goals
      rw [shape, other] at same
      simp [different] at same

/-- A line that starts with `insert` is executed. -/
theorem answer_of_insert {line : List UInt8} (inserted : insert.bytes <+: line) :
    answer line = [.insertStub, .statementExecuted] := by
  have other : line ≠ select.bytes := by
    rintro rfl
    exact absurd inserted (by decide)
  rw [answer, if_neg other, if_pos inserted]

/-- One line is answered, and then there is nothing to read. -/
theorem runOfLines_singleton {line : List UInt8} (other : line ≠ dotExit.bytes) :
    runOfLines [line] = ⟨.prompt :: answer line ++ [.prompt, .readError], .failure⟩ := by
  rw [runOfLines_cons other, runOfLines_nil]
  rfl

/-- As the last line, two different lines ask for the same run only if both are inserts. -/
theorem runOfLines_singleton_eq_iff {first second : List UInt8} (different : first ≠ second) :
    runOfLines [first] = runOfLines [second] ↔
      insert.bytes <+: first ∧ insert.bytes <+: second := by
  have stays : ∀ {line : List UInt8}, insert.bytes <+: line → line ≠ dotExit.bytes := by
    rintro line inserted rfl
    exact absurd inserted (by decide)
  constructor
  · intro same
    by_cases firstExit : first = dotExit.bytes
    · have secondOther : second ≠ dotExit.bytes := fun secondExit =>
        different (firstExit.trans secondExit.symm)
      rw [firstExit, runOfLines_exit, runOfLines_singleton secondOther] at same
      cases congrArg Run.status same
    · by_cases secondExit : second = dotExit.bytes
      · rw [secondExit, runOfLines_exit, runOfLines_singleton firstExit] at same
        cases congrArg Run.status same
      · rw [runOfLines_singleton firstExit, runOfLines_singleton secondExit] at same
        have answers : answer first = answer second := by simpa using same
        exact ⟨insert_of_answer_eq answers different,
          insert_of_answer_eq answers.symm different.symm⟩
  · rintro ⟨firstInsert, secondInsert⟩
    rw [runOfLines_singleton (stays firstInsert), runOfLines_singleton (stays secondInsert),
      answer_of_insert firstInsert, answer_of_insert secondInsert]

/-- Behind an `.exit` nothing counts, and before one everything does. -/
theorem runOfLines_append_eq_iff (front first second : List (List UInt8)) :
    runOfLines (front ++ first) = runOfLines (front ++ second) ↔
      dotExit.bytes ∈ front ∨ runOfLines first = runOfLines second := by
  induction front with
  | nil => simp
  | cons line front ih =>
      by_cases leaves : line = dotExit.bytes
      · simp [leaves, runOfLines_exit]
      · rw [List.cons_append, List.cons_append, runOfLines_cons leaves, runOfLines_cons leaves]
        have after : ∀ run run' : Run,
            run.after (.prompt :: answer line) = run'.after (.prompt :: answer line) ↔
              run = run' := by
          intro run run'
          cases run
          cases run'
          simp [Run.after]
        rw [after, ih, List.mem_cons]
        simp [Ne.symm leaves]

/-- A line still starts with `insert` without its last byte if it goes on behind it. -/
theorem insert_dropLast_iff (line : List UInt8) :
    insert.bytes <+: line.dropLast ↔ insert.bytes <+: line ∧ 7 ≤ line.length := by
  have length : insert.bytes.length = 6 := rfl
  constructor
  · intro inserted
    have bound := inserted.length_le
    rw [length, List.length_dropLast] at bound
    exact ⟨inserted.trans (List.dropLast_prefix line), by omega⟩
  · rintro ⟨inserted, long⟩
    rw [List.prefix_iff_eq_take] at inserted ⊢
    rw [length] at inserted ⊢
    rw [List.dropLast_eq_take, List.take_take, min_eq_left (by omega)]
    exact inserted

/-- **When the prompt does what its input asks for.** On a NUL-free input this is so exactly
when its last line ends in a newline, or is never reached because a line before it is
`.exit`, or starts with `insert` and goes on after it. -/
theorem main_eq_expected_iff (stdin : List UInt8) (nulFree : 0 ∉ stdin) :
    main stdin = expected stdin ↔
      lastLine stdin = [] ∨ dotExit.bytes ∈ endedLines stdin ∨
        insert.bytes <+: lastLine stdin ∧ 7 ≤ (lastLine stdin).length := by
  rw [main_eq_runOfLines stdin nulFree, expected, seenLines, Lines.lines, ← endedLines, ← lastLine,
    runOfLines_append_eq_iff]
  by_cases empty : lastLine stdin = []
  · simp [empty]
  · have shorter : (lastLine stdin).dropLast ≠ lastLine stdin := by
      intro same
      have lengths := congrArg List.length same
      have positive := List.length_pos_iff.mpr empty
      rw [List.length_dropLast] at lengths
      omega
    rw [if_neg empty, if_neg empty, runOfLines_singleton_eq_iff shorter, insert_dropLast_iff]
    simp only [empty, false_or]
    tauto

/-! ## What is seen of it -/

/-- Texts that start in different ways are different. -/
theorem append_ne {first second : List UInt8} (count : Nat) (long : count ≤ first.length)
    (longToo : count ≤ second.length) (different : first.take count ≠ second.take count)
    (rest rest' : List UInt8) : first ++ rest ≠ second ++ rest' := by
  intro same
  have heads := congrArg (List.take count) same
  rw [List.take_append_of_le_length long, List.take_append_of_le_length longToo] at heads
  exact different heads

/-- The printed bytes of an answer. -/
def answerText (line : List UInt8) : List UInt8 := (answer line).flatMap Message.text

/-- Different answers are printed differently. -/
theorem answer_of_answerText {first second : List UInt8}
    (same : answerText first = answerText second) : answer first = answer second := by
  have keyword : ∀ line, ([.unrecognizedKeyword line] : List Message).flatMap Message.text =
      ascii "Unrecognized keyword at start of '" ++ (line ++ ascii "'\n") := fun line => by
    simp [Message.text]
  have command : ∀ line, ([.unrecognizedCommand line] : List Message).flatMap Message.text =
      ascii "Unrecognized command '" ++ (line ++ ascii "'\n") := fun line => by
    simp [Message.text]
  have inserts : ([.insertStub, .statementExecuted] : List Message).flatMap Message.text =
      ascii "This is where we would insert data.\n" ++ ascii "Statement executed.\n" := rfl
  have selects : ([.selectStub, .statementExecuted] : List Message).flatMap Message.text =
      ascii "This is where we would select data\n" ++ ascii "Statement executed.\n" := rfl
  rw [answerText, answerText] at same
  rcases answer_cases first with ⟨-, shape⟩ | ⟨-, shape⟩ | shape | shape <;>
    rcases answer_cases second with ⟨-, other⟩ | ⟨-, other⟩ | other | other <;>
    rw [shape, other] at same ⊢ <;>
    simp only [keyword, command, inserts, selects] at same
  all_goals first
    | rfl
    | exact absurd same (append_ne 26 (by decide) (by decide) (by decide) _ _)
    | exact absurd same (append_ne 14 (by decide) (by decide) (by decide) _ _)
    | simpa using same

/-- The output for a single line that is not `.exit`. -/
theorem stdout_singleton {line : List UInt8} (other : line ≠ dotExit.bytes) :
    (runOfLines [line]).stdout =
      Message.prompt.text ++ (answerText line ++
        (Message.prompt.text ++ Message.readError.text)) := by
  rw [runOfLines_singleton other]
  simp [Run.stdout, answerText]

/-- After `.exit` less is printed than after any other line. -/
theorem stdout_exit_ne {line : List UInt8} (other : line ≠ dotExit.bytes) :
    (runOfLines [dotExit.bytes]).stdout ≠ (runOfLines [line]).stdout := by
  intro same
  have lengths := congrArg List.length same
  have exits : (runOfLines [dotExit.bytes]).stdout.length = 5 := by decide
  have prompts : Message.prompt.text.length = 5 := by decide
  rw [exits, stdout_singleton other, List.length_append, List.length_append, List.length_append,
    prompts] at lengths
  omega

/-- A run of one line is known from its output. -/
theorem runOfLines_of_stdout {first second : List UInt8}
    (same : (runOfLines [first]).stdout = (runOfLines [second]).stdout) :
    runOfLines [first] = runOfLines [second] := by
  by_cases firstExit : first = dotExit.bytes
  · by_cases secondExit : second = dotExit.bytes
    · rw [firstExit, secondExit]
    · rw [firstExit] at same
      exact absurd same (stdout_exit_ne secondExit)
  · by_cases secondExit : second = dotExit.bytes
    · rw [secondExit] at same
      exact absurd same.symm (stdout_exit_ne firstExit)
    · rw [stdout_singleton firstExit, stdout_singleton secondExit, List.append_right_inj,
        List.append_left_inj] at same
      rw [runOfLines_singleton firstExit, runOfLines_singleton secondExit,
        answer_of_answerText same]

/-- Runs that start with the same lines are known from their outputs, if what follows is. -/
theorem runOfLines_append_of_stdout {first second : List (List UInt8)}
    (known : (runOfLines first).stdout = (runOfLines second).stdout →
      runOfLines first = runOfLines second) (front : List (List UInt8))
    (same : (runOfLines (front ++ first)).stdout = (runOfLines (front ++ second)).stdout) :
    runOfLines (front ++ first) = runOfLines (front ++ second) := by
  induction front with
  | nil => exact known same
  | cons line front ih =>
      by_cases leaves : line = dotExit.bytes
      · rw [List.cons_append, List.cons_append, leaves, runOfLines_exit, runOfLines_exit]
      · rw [List.cons_append, List.cons_append, runOfLines_cons leaves,
          runOfLines_cons leaves] at same ⊢
        simp only [Run.stdout, Run.after, List.flatMap_append, List.append_right_inj] at same
        rw [ih same]

/-- **The output tells.** A NUL-free input is answered as it asks exactly when the printed bytes
are those it asks for: a lost last byte that changes the run is seen in the output. -/
theorem stdout_main_eq_iff (stdin : List UInt8) (nulFree : 0 ∉ stdin) :
    (main stdin).stdout = (expected stdin).stdout ↔ main stdin = expected stdin := by
  constructor
  · intro same
    rw [main_eq_runOfLines stdin nulFree, expected, seenLines, Lines.lines, ← endedLines,
      ← lastLine] at same ⊢
    refine runOfLines_append_of_stdout (fun same => ?_) _ same
    by_cases empty : lastLine stdin = []
    · rw [if_pos empty, if_pos empty]
    · rw [if_neg empty, if_neg empty] at same ⊢
      exact runOfLines_of_stdout same
  · exact congrArg Run.stdout

/-- The input `select`, `insert 1`, `.exit`, each with its newline. -/
def sampleInput : List UInt8 :=
  select.bytes ++ [10] ++ insert.bytes ++ [32, 49, 10] ++ dotExit.bytes ++ [10]

/-- The sample input is answered as it asks. -/
theorem main_sampleInput : main sampleInput = expected sampleInput :=
  (main_eq_expected_iff sampleInput (by decide)).2 (.inl (by decide))

/-- The input `select` without a newline asks for a select, and its last letter is lost. -/
theorem main_select_unended :
    expected select.bytes =
        ⟨[.prompt, .selectStub, .statementExecuted, .prompt, .readError], .failure⟩ ∧
      main select.bytes =
        ⟨[.prompt, .unrecognizedKeyword [115, 101, 108, 101, 99], .prompt, .readError],
          .failure⟩ := by
  constructor
  · decide
  · rw [main_eq_runOfLines _ select.nulFree]
    decide

end CPrograms.MySqlite3
