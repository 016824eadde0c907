import CPrograms.Library.InputStream
import CPrograms.Library.Runs
import CPrograms.ParseConfig.Format
import Mathlib.Algebra.Ring.Nat

/-!
# The configuration file as a whole

`parseFile` as a machine that alternates between the test of the outer loop and the reads
of the inner one. On an opened file it hands every line to `readConf` once and stops, so
that the configuration is a fold over the lines; each field follows the lines that select
it and no others. On a stream whose open failed it never stops.

`displayConf` prints two family members, whatever the file lists.
-/

namespace CPrograms.ParseConfig

open Library StdString

/-! ## The nested loops -/

/-- Where control is in `parseFile`: at the test of the outer loop, at that of the inner loop,
or behind both. -/
inductive Control where
  | outer
  | inner
  | done
  deriving DecidableEq, Repr

/-- The variables of `parseFile`, with the lines handed to `readConf` so far. -/
structure Parsing where
  control : Control
  stream : InputStream Char
  conf : Config
  passed : List Text

/-- The assignments in front of the loops of `parseFile`. -/
def Config.cleared (conf : Config) : Config :=
  { conf with needspeeling := false, seedsremoved := false }

/-- The state in which `parseFile` reaches its loops. -/
def Parsing.start (stream : InputStream Char) (conf : Config) : Parsing :=
  ⟨.outer, stream, conf.cleared, []⟩

/-- One test of a loop, with the body of the inner one. -/
def parseStep (state : Parsing) : Option Parsing :=
  match state.control with
  | .outer =>
      if state.stream.eof then some { state with control := .done }
      else some { state with control := .inner }
  | .inner =>
      match state.stream.getline '\n' with
      | (some str, stream) =>
          some { state with
            stream
            conf := readConf state.conf str
            passed := state.passed ++ [str] }
      | (none, stream) => some { state with control := .outer, stream }
  | .done => none

/-- `parseFile` returns with a configuration, having passed some lines to `readConf`. -/
def ParseFile (stream : InputStream Char) (conf final : Config) (passed : List Text) : Prop :=
  ∃ after, Goes parseStep (.start stream conf) ⟨.done, after, final, passed⟩

/-- The lines of a file. -/
abbrev fileLines (text : Text) : List Text :=
  Lines.lines '\n' text

/-- The configuration after the lines of a file. -/
def readLines (conf : Config) (lines : List Text) : Config :=
  lines.foldl readConf conf.cleared

/-- Once `eofbit` is set, one more read fails and both loops end. -/
theorem goes_eof (fail : Bool) (conf : Config) (passed : List Text) :
    Goes parseStep ⟨.inner, ⟨[], true, fail⟩, conf, passed⟩
      ⟨.done, ⟨[], true, true⟩, conf, passed⟩ := by
  have ended : parseStep ⟨.inner, ⟨[], true, fail⟩, conf, passed⟩ =
      some ⟨.outer, ⟨[], true, true⟩, conf, passed⟩ := by
    simp only [parseStep, InputStream.getline_eof]
  exact .head ended (.head rfl .refl)

/-- From the test of the inner loop on a good stream, the loops hand every line of the rest to
`readConf` and stop. -/
theorem goes_inner (text : Text) (conf : Config) (passed : List Text) :
    ∃ after, Goes parseStep ⟨.inner, ⟨text, false, false⟩, conf, passed⟩
      ⟨.done, after, (fileLines text).foldl readConf conf,
        passed ++ fileLines text⟩ := by
  induction text using Lines.lines_induction '\n' generalizing conf passed with
  | last text unended =>
      by_cases nonempty : text = []
      · subst nonempty
        rw [fileLines, Lines.lines_nil, List.foldl_nil, List.append_nil]
        have ended : parseStep ⟨.inner, ⟨[], false, false⟩, conf, passed⟩ =
            some ⟨.outer, ⟨[], true, true⟩, conf, passed⟩ := by
          simp only [parseStep, InputStream.getline_empty]
        exact ⟨_, .head ended (.head rfl .refl)⟩
      · rw [fileLines, Lines.lines_last unended nonempty, List.foldl_cons, List.foldl_nil]
        have read : parseStep ⟨.inner, ⟨text, false, false⟩, conf, passed⟩ =
            some ⟨.inner, ⟨[], true, false⟩, readConf conf text, passed ++ [text]⟩ := by
          simp only [parseStep, InputStream.getline_last unended nonempty]
        -- The unended line sets `eofbit` alone, so that one more read is tried.
        exact ⟨_, .head read (goes_eof false _ _)⟩
  | line line text unended ih =>
      rw [fileLines, Lines.lines_line unended, List.foldl_cons]
      obtain ⟨after, goes⟩ := ih (readConf conf line) (passed ++ [line])
      rw [List.append_assoc, List.singleton_append] at goes
      refine ⟨after, .head ?_ goes⟩
      simp only [parseStep, InputStream.getline_line unended]

/-- **An opened file is read to its end.** `parseFile` returns, having passed the lines of the
file to `readConf`, each once and in order; and there is no other way for it to return. -/
theorem parseFile_opened_iff (text : Text) (conf final : Config) (passed : List Text) :
    ParseFile (.ofFile (some text)) conf final passed ↔
      final = readLines conf (fileLines text) ∧ passed = fileLines text := by
  obtain ⟨after, inner⟩ := goes_inner text conf.cleared []
  have goes : Goes parseStep (.start (.ofFile (some text)) conf)
      ⟨.done, after, readLines conf (fileLines text), fileLines text⟩ :=
    .head rfl inner
  constructor
  · rintro ⟨other, goesToo⟩
    cases goes.unique rfl goesToo rfl
    exact ⟨rfl, rfl⟩
  · rintro ⟨rfl, rfl⟩
    exact ⟨after, goes⟩

/-- The loops are running on a stream whose open failed. -/
def Looping (state : Parsing) : Prop :=
  state.control ≠ .done ∧ state.stream = .ofFile none

/-- On a failed stream a read sets no more flags, and neither loop ever sees `eofbit`. -/
theorem looping_parseStep (state next : Parsing) (looping : Looping state)
    (stepped : parseStep state = some next) : Looping next := by
  obtain ⟨control, stream, conf, passed⟩ := state
  obtain ⟨running, failed⟩ := looping
  cases failed
  cases control with
  | outer =>
      cases Option.some.inj stepped
      exact ⟨nofun, rfl⟩
  | inner =>
      simp only [parseStep, InputStream.getline_fail, Option.some.injEq] at stepped
      cases stepped
      exact ⟨nofun, rfl⟩
  | done => exact absurd rfl running

/-- A file that cannot be opened is not parsed to an end. -/
theorem not_parseFile_failed {conf final : Config} {passed : List Text} :
    ¬ ParseFile (.ofFile none) conf final passed := by
  rintro ⟨after, goes⟩
  have looping := goes.invariant looping_parseStep ⟨nofun, rfl⟩
  exact looping.1 rfl

/-- **When `parseFile` terminates.** For a stream opened on a file, or one whose open failed,
the loops stop with every line of the file passed to `readConf` once exactly when the open
succeeded. -/
theorem parseFile_terminates_iff (file : Option Text) (conf : Config) :
    (∃ final, ParseFile (.ofFile file) conf final (file.elim [] fileLines)) ↔
      file.isSome = true := by
  cases file with
  | none => exact iff_of_false (fun ⟨_, returns⟩ => not_parseFile_failed returns) (by simp)
  | some text =>
      exact iff_of_true ⟨_, (parseFile_opened_iff text conf _ _).mpr ⟨rfl, rfl⟩⟩ rfl

/-- Without the file the program does not end. -/
theorem parseFile_missing :
    ¬ ∃ final, ParseFile (.ofFile none) .empty final [] :=
  fun ⟨_, returns⟩ => not_parseFile_failed returns

/-! ## What a file means -/

/-- The line is blank, or its first character that is not whitespace marks a comment. -/
def Ignored (line : Text) : Prop :=
  ∀ c ∈ (line.dropWhile (· ∈ whitespace)).head?, c = '#' ∨ c = ';'

/-- The lines that select a field. -/
def naming (field : Field) (lines : List Text) : List Text :=
  lines.filter fun line => selects line = some field

/-- An ignored line selects no field. -/
theorem selects_of_ignored {line : Text} (ignored : Ignored line) : selects line = none := by
  rcases all_mem_or_append whitespace line with blank | ⟨front, a, rest, rfl, skipped, first⟩
  · exact selects_of_blank blank
  · have start : (front ++ a :: rest).dropWhile (· ∈ whitespace) = a :: rest := by
      rw [List.dropWhile_append_of_pos (by simpa using skipped),
        List.dropWhile_cons_of_neg (by simpa using first)]
    rw [Ignored, start] at ignored
    rw [selects_append skipped first, if_pos (ignored a rfl)]

/-- What a field holds. -/
abbrev Field.Content : Field → Type
  | fullname | favouritefruit => Text
  | needspeeling | seedsremoved => Bool
  | otherfamily => List Text

/-- The content of a field. -/
def Config.get (conf : Config) : (field : Field) → field.Content
  | .fullname => conf.fullname
  | .favouritefruit => conf.favouritefruit
  | .needspeeling => conf.needspeeling
  | .seedsremoved => conf.seedsremoved
  | .otherfamily => conf.otherfamily

/-- How a value changes the content of its field: strings are overwritten, flags set, and the
family appended to. -/
def Field.change : (field : Field) → field.Content → Text → field.Content
  | fullname, _, value => value
  | favouritefruit, _, value => value
  | needspeeling, _, _ => true
  | seedsremoved, _, _ => true
  | otherfamily, before, value => before ++ family value

/-- A configuration is known from its fields. -/
theorem Config.ext_get {first second : Config}
    (same : ∀ field, first.get field = second.get field) : first = second :=
  Config.ext (same .fullname) (same .favouritefruit) (same .needspeeling) (same .seedsremoved)
    (same .otherfamily)

/-- An assigned field has the changed value. -/
theorem get_assign_self (field : Field) (value : Text) (conf : Config) :
    (field.assign value conf).get field = field.change (conf.get field) value := by
  cases field <;> rfl

/-- An assignment leaves every other field alone. -/
theorem get_assign_of_ne {field other : Field} (different : other ≠ field) (value : Text)
    (conf : Config) : (other.assign value conf).get field = conf.get field := by
  cases other <;> cases field <;> first | rfl | exact absurd rfl different

/-- **Every field follows its own lines.** After any lines the content of a field is what the
lines that select it make of its content before. -/
theorem get_readLines (field : Field) (conf : Config) (lines : List Text) :
    (readLines conf lines).get field =
      (naming field lines).foldl (fun before line => field.change before (behind ' ' line))
        (conf.cleared.get field) := by
  have others (conf : Config) (line : Text)
      (unconcerned : decide (selects line = some field) = false) :
      (readConf conf line).get field = conf.get field := by
    have different := of_decide_eq_false unconcerned
    cases selected : selects line with
    | none => rw [readConf_of_none selected]
    | some other =>
        rw [readConf_of_some selected, get_assign_of_ne]
        rintro rfl
        exact different selected
  have own (conf : Config) (line : Text) (concerned : decide (selects line = some field) = true) :
      (readConf conf line).get field = field.change (conf.get field) (behind ' ' line) := by
    rw [readConf_of_some (of_decide_eq_true concerned), get_assign_self]
  exact foldl_part (fun conf : Config => conf.get field) _ _ others own _ lines

/-- The configuration depends only on the lines that select each field. -/
theorem readLines_eq_of_naming (conf : Config) {lines others : List Text}
    (same : ∀ field, naming field others = naming field lines) :
    readLines conf others = readLines conf lines :=
  Config.ext_get fun field => by rw [get_readLines, get_readLines, same]

private theorem foldl_last {α β : Type} (f : α → β) (before : β) (lines : List α) :
    lines.foldl (fun _ line => f line) before = (lines.map f).getLastD before := by
  induction lines generalizing before with
  | nil => rfl
  | cons line lines ih => rw [List.foldl_cons, ih, List.map_cons, List.getLastD_cons]

private theorem foldl_true {α : Type} (before : Bool) (lines : List α) :
    lines.foldl (fun _ _ => true) before = true ↔ before = true ∨ lines ≠ [] := by
  induction lines generalizing before with
  | nil => simp
  | cons line lines ih => simp [ih]

/-- The lines that name a field are those that select it. -/
theorem mem_naming {field : Field} {lines : List Text} {line : Text} :
    line ∈ naming field lines ↔ line ∈ lines ∧ selects line = some field := by
  simp [naming]

/-- A cleared flag is set by the lines that select it. -/
theorem foldl_naming_true (field : Field) (lines : List Text) :
    (naming field lines).foldl (fun _ _ => true) false = true ↔
      ∃ line ∈ lines, selects line = some field := by
  simp [foldl_true, naming]

/-- A line that selects no field may be left out. -/
theorem naming_ignored {line : Text} (ignored : selects line = none) (field : Field)
    (front back : List Text) :
    naming field (front ++ line :: back) = naming field (front ++ back) := by
  simp [naming, ignored]

/-- Neighbouring lines that select different fields may be exchanged. -/
theorem naming_exchange {first second : Text} (different : selects first ≠ selects second)
    (field : Field) (front back : List Text) :
    naming field (front ++ second :: first :: back) =
      naming field (front ++ first :: second :: back) := by
  simp only [naming, List.filter_append, List.filter_cons]
  by_cases own : selects first = some field
  · have other : selects second ≠ some field := fun same => different (own.trans same.symm)
    simp [own, other]
  · simp [own]

/-- The full name is the one named last. -/
theorem fullname_readLines (conf : Config) (lines : List Text) :
    (readLines conf lines).fullname =
      ((naming .fullname lines).map (behind ' ')).getLastD conf.fullname :=
  (get_readLines .fullname conf lines).trans (foldl_last ..)

/-- The favourite fruit is the one named last. -/
theorem favouritefruit_readLines (conf : Config) (lines : List Text) :
    (readLines conf lines).favouritefruit =
      ((naming .favouritefruit lines).map (behind ' ')).getLastD conf.favouritefruit :=
  (get_readLines .favouritefruit conf lines).trans (foldl_last ..)

/-- The peeling flag is set exactly if some line names it. -/
theorem needspeeling_readLines (conf : Config) (lines : List Text) :
    (readLines conf lines).needspeeling = true ↔
      ∃ line ∈ lines, selects line = some .needspeeling := by
  have flag : (readLines conf lines).needspeeling = _ := get_readLines .needspeeling conf lines
  rw [flag]
  exact foldl_naming_true _ lines

/-- The seeds flag is set exactly if some line names it. -/
theorem seedsremoved_readLines (conf : Config) (lines : List Text) :
    (readLines conf lines).seedsremoved = true ↔
      ∃ line ∈ lines, selects line = some .seedsremoved := by
  have flag : (readLines conf lines).seedsremoved = _ := get_readLines .seedsremoved conf lines
  rw [flag]
  exact foldl_naming_true _ lines

/-- The family is collected from all the lines that name it. -/
theorem otherfamily_readLines (conf : Config) (lines : List Text) :
    (readLines conf lines).otherfamily =
      conf.otherfamily ++
        (naming .otherfamily lines).flatMap fun line => family (behind ' ' line) :=
  (get_readLines .otherfamily conf lines).trans (List.foldl_append_eq_append.trans
    (by rw [List.flatMap_def]; rfl))

/-- Functions that agree on the lines of a field agree on all of them. -/
theorem map_naming {β : Type} {field : Field} {f g : Text → β} (lines : List Text)
    (same : ∀ line, selects line = some field → f line = g line) :
    (naming field lines).map f = (naming field lines).map g :=
  List.map_congr_left fun line member => same line (mem_naming.mp member).2

/-- **What a file means.** For a file that could be opened, `parseFile` returns a configuration
in which the two strings are those of the last lines selecting them, a flag is set if some line
selects it, and the family is what the lines selecting it list, in order. It depends only on
the lines selecting each field: not on blank lines and comments, nor on the order of adjacent
lines that select different fields. -/
theorem parseFile_meaning (conf : Config) (text : Text) :
    ∃ final, ParseFile (.ofFile (some text)) conf final (fileLines text) ∧
      final.fullname = ((naming .fullname (fileLines text)).map
        fun line => (readConf .empty line).fullname).getLastD conf.fullname ∧
      final.favouritefruit = ((naming .favouritefruit (fileLines text)).map
        fun line => (readConf .empty line).favouritefruit).getLastD conf.favouritefruit ∧
      (final.needspeeling = true ↔
        ∃ line ∈ fileLines text, selects line = some .needspeeling) ∧
      (final.seedsremoved = true ↔
        ∃ line ∈ fileLines text, selects line = some .seedsremoved) ∧
      final.otherfamily = conf.otherfamily ++ (naming .otherfamily (fileLines text)).flatMap
        (fun line => (readConf .empty line).otherfamily) ∧
      ∀ other otherFinal passed, ParseFile (.ofFile (some other)) conf otherFinal passed →
        ((∀ field, naming field (fileLines other) = naming field (fileLines text)) ∨
          (∃ front line back, Ignored line ∧
            ((fileLines text = front ++ back ∧
                fileLines other = front ++ line :: back) ∨
              (fileLines text = front ++ line :: back ∧
                fileLines other = front ++ back))) ∨
          ∃ front first second back, selects first ≠ selects second ∧
            fileLines text = front ++ first :: second :: back ∧
            fileLines other = front ++ second :: first :: back) →
        otherFinal = final := by
  generalize linesEq : fileLines text = lines
  refine ⟨readLines conf lines, ?_, ?_, ?_, ?_, ?_, ?_, ?_⟩
  · exact linesEq ▸ (parseFile_opened_iff text conf _ _).mpr ⟨rfl, rfl⟩
  · rw [fullname_readLines, map_naming lines fun line selected =>
      congrArg Config.fullname (readConf_of_some selected .empty)]
    rfl
  · rw [favouritefruit_readLines, map_naming lines fun line selected =>
      congrArg Config.favouritefruit (readConf_of_some selected .empty)]
    rfl
  · exact needspeeling_readLines conf lines
  · exact seedsremoved_readLines conf lines
  · rw [otherfamily_readLines, List.flatMap_def, List.flatMap_def, map_naming lines
      fun line selected => congrArg Config.otherfamily (readConf_of_some selected .empty)]
    rfl
  · rintro other otherFinal passed parsed related
    obtain ⟨rfl, -⟩ := (parseFile_opened_iff other conf otherFinal passed).mp parsed
    apply readLines_eq_of_naming
    rcases related with same | ⟨front, line, back, ignored, inserted | deleted⟩ |
      ⟨front, first, second, back, different, before, after⟩
    · exact same
    · rw [inserted.1, inserted.2]
      exact fun field => naming_ignored (selects_of_ignored ignored) field front back
    · rw [deleted.1, deleted.2]
      exact fun field => (naming_ignored (selects_of_ignored ignored) field front back).symm
    · rw [before, after]
      exact fun field => naming_exchange different field front back

/-! ## The display -/

/-- What `displayConf` sends to `cout`, operand by operand, up to the family. -/
def displayed (config : Config) : List Text :=
  let flag (set : Bool) : Text := if set then "True".toList else "False".toList
  ["Full Name: ".toList, config.fullname, ['\n'],
    "Favorite Fruit: ".toList, config.favouritefruit, ['\n'],
    "Needs Peeling: ".toList, flag config.needspeeling, ['\n'],
    "Seeds Removed: ".toList, flag config.seedsremoved, ['\n'],
    "Other Families: ".toList]

/-- The operands `displayConf` sends to `cout`. An index outside `otherfamily` is undefined. -/
def displayConf (config : Config) : Option (List Text) := do
  let first ← config.otherfamily[0]?
  let second ← config.otherfamily[1]?
  some (displayed config ++ [first, ", ".toList, second, ['\n']])

/-- `displayConf` stays inside the family and prints each of its members once, in order. -/
def DisplaysFamily (config : Config) : Prop :=
  displayConf config =
    some (displayed config ++ (config.otherfamily.intersperse ", ".toList ++ [['\n']]))

/-- The configuration `main` declares: empty, with flags that hold anything. -/
def Config.declared (needspeeling seedsremoved : Bool) : Config :=
  { Config.empty with needspeeling, seedsremoved }

/-- The family is displayed exactly if it has two members. -/
theorem displaysFamily_iff (config : Config) :
    DisplaysFamily config ↔ config.otherfamily.length = 2 := by
  unfold DisplaysFamily displayConf
  match config.otherfamily with
  | [] => simp
  | [_] => simp
  | [_, _] => simp
  | _ :: _ :: _ :: _ => simp

/-- A value lists one member more than it has commas. -/
theorem length_family (value : Text) : (family value).length = value.count ',' + 1 := by
  induction value using Lines.lines_induction ',' with
  | last value none => rw [family_of_free none, List.count_eq_zero_of_not_mem none]; rfl
  | line piece rest none ih =>
      rw [family_append_comma none, List.length_cons, ih, List.count_append,
        List.count_eq_zero_of_not_mem none, List.count_cons_self, Nat.zero_add]

/-- On a line that selects a field nothing but whitespace and the name stands before the first
space. -/
theorem comma_notMem_of_selects {lead back : Text} {field : Field}
    (selected : selects (lead ++ ' ' :: back) = some field) (free : ' ' ∉ lead) : ',' ∉ lead := by
  obtain ⟨front, rest, shape, skipped, named⟩ := exists_name_of_selects selected
  rw [idxOf_append_cons free] at named
  intro comma
  have inside : ',' ∈ (front ++ rest).take lead.length := by
    rwa [← shape, List.take_left]
  rw [List.take_append, List.mem_append] at inside
  rcases inside with blank | name
  · exact absurd (skipped _ (List.mem_of_mem_take blank)) (by decide)
  · have taken := List.take_subset_take_left rest (Nat.sub_le lead.length front.length) name
    exact notMem_of_named named (by cases field <;> decide) taken

/-- No comma of a line is before its value. -/
theorem count_behind {line : Text} {field : Field} (selected : selects line = some field) :
    (behind ' ' line).count ',' = line.count ',' := by
  by_cases space : ' ' ∈ line
  · obtain ⟨lead, back, rfl, free⟩ := List.eq_append_cons_of_mem space
    rw [behind_append free, List.count_append, List.count_cons_of_ne (by decide),
      List.count_eq_zero_of_not_mem (comma_notMem_of_selects selected free), Nat.zero_add]
  · rw [behind_of_notMem space]

/-- **Which files are displayed faithfully.** What `main` displays of a file is safe and shows
the family as it is exactly when the lines that select the family list two members in all: as
many as these lines, and their commas. -/
theorem displaysFamily_parseFile_iff (needspeeling seedsremoved : Bool) (text : Text) :
    (∃ final passed,
        ParseFile (.ofFile (some text)) (.declared needspeeling seedsremoved) final passed ∧
          DisplaysFamily final) ↔
      ((naming .otherfamily (fileLines text)).map fun line => line.count ',' + 1).sum = 2 := by
  have length : (readLines (.declared needspeeling seedsremoved)
      (fileLines text)).otherfamily.length =
      ((naming .otherfamily (fileLines text)).map fun line => line.count ',' + 1).sum := by
    rw [otherfamily_readLines]
    change ([] ++ List.flatMap _ _).length = _
    rw [List.nil_append, List.length_flatMap]
    refine congrArg List.sum (map_naming _ fun line selected => ?_)
    rw [length_family, count_behind selected]
  rw [← length, ← displaysFamily_iff]
  constructor
  · rintro ⟨final, passed, parsed, displays⟩
    obtain ⟨rfl, -⟩ := (parseFile_opened_iff text _ final passed).mp parsed
    exact displays
  · intro displays
    exact ⟨_, _, (parseFile_opened_iff text _ _ _).mpr ⟨rfl, rfl⟩, displays⟩

/-- An empty file lists no family, and its display reads outside the vector. -/
theorem emptyFile_displayConf :
    ParseFile (.ofFile (some [])) (.declared false false) (.declared false false) [] ∧
      displayConf (.declared false false) = none ∧
      ¬ ∃ final passed,
        ParseFile (.ofFile (some [])) (.declared false false) final passed ∧
          DisplaysFamily final := by
  refine ⟨(parseFile_opened_iff [] _ _ _).mpr ⟨rfl, rfl⟩, rfl, ?_⟩
  rintro ⟨final, passed, parsed, displays⟩
  obtain ⟨rfl, -⟩ := (parseFile_opened_iff [] _ final passed).mp parsed
  exact absurd ((displaysFamily_iff _).mp displays) (by decide)

end CPrograms.ParseConfig
