import CPrograms.Library.Lines
import CPrograms.ParseConfig.Line

/-!
# What `conf.txt` says about its format

The comments of `conf.txt` promise that a list of parameters is separated by commas, that
option names have no case and values keep theirs, and that whitespace and an equals sign
around a value are dropped. For each of the three we determine the lines on which `readConf`
keeps the promise.
-/

namespace CPrograms.ParseConfig

open Library StdString

/-! ## Family lists -/

/-- The line that lists names behind `OTHERFAMILY`. -/
def familyLine (names : List Text) : Text :=
  "OTHERFAMILY".toList ++ ' ' :: ", ".toList.intercalate names

/-- Separated by a comma and a space, all names but the first carry the space. -/
theorem intercalate_spaced (name : Text) (names : List Text) :
    ", ".toList.intercalate (name :: names) = [','].intercalate (name :: names.map (' ' :: ·)) := by
  induction names generalizing name with
  | nil => simp
  | cons next names ih =>
      rw [List.map_cons, List.intercalate_cons_cons, List.intercalate_cons_cons, ih next,
        List.intercalate_cons_cons_left]
      simp

/-- Names joined by a comma and a blank are split again, except that the first one loses what is
before its blank. -/
theorem family_intercalate {name : Text} {names : List Text}
    (free : ∀ n ∈ name :: names, ',' ∉ n) :
    family (", ".toList.intercalate (name :: names)) = behind ' ' name :: names := by
  have pieces : ∀ piece ∈ name :: names.map (' ' :: ·), ',' ∉ piece := by
    intro piece member
    rcases List.mem_cons.mp member with rfl | member
    · exact free _ List.mem_cons_self
    · obtain ⟨n, inside, rfl⟩ := List.mem_map.mp member
      simpa using free n (List.mem_cons_of_mem _ inside)
  rw [intercalate_spaced, family, List.splitOn_intercalate ',' pieces (List.cons_ne_nil _ _),
    List.map_cons, List.map_map]
  congr 1
  exact (List.map_congr_left fun n _ => behind_cons_self ' ' n).trans (List.map_id _)

/-- The first name of a family list loses what stands before its first space. -/
theorem readConf_familyLine (conf : Config) (name : Text) (names : List Text)
    (free : ∀ n ∈ name :: names, ',' ∉ n) :
    readConf conf (familyLine (name :: names)) =
      { conf with otherfamily := conf.otherfamily ++ behind ' ' name :: names } := by
  have named : "OTHERFAMILY".toList.map Char.toLower = Field.otherfamily.option := by decide
  have assigned := readConf_named named (", ".toList.intercalate (name :: names)) conf
  rw [Field.assign, family_intercalate free] at assigned
  exact assigned

/-- **Which family lists are read as they are written.** The names of the list are appended in
order, and nothing else changes, exactly when the first name has no space: the other names
lose the space of their separator, and the first one loses its first word. -/
theorem readConf_familyLine_iff (conf : Config) (name : Text) (names : List Text)
    (free : ∀ n ∈ name :: names, ',' ∉ n) :
    readConf conf (familyLine (name :: names)) =
        { conf with otherfamily := conf.otherfamily ++ name :: names } ↔ ' ' ∉ name := by
  rw [readConf_familyLine conf name names free, ← behind_eq_self_iff]
  simp only [Config.mk.injEq, List.append_cancel_left_eq, List.cons.injEq, and_true, true_and]

/-- A configuration with nothing in it. -/
def Config.empty : Config :=
  ⟨[], [], false, false, []⟩

/-- The family line with two names is read as it was written. -/
theorem rhuHarry_familyLine :
    readConf .empty (familyLine ["Rhu".toList, "Harry Barber".toList]) =
      { Config.empty with otherfamily := ["Rhu".toList, "Harry Barber".toList] } :=
  (readConf_familyLine_iff .empty "Rhu".toList ["Harry Barber".toList] (by decide)).mpr (by decide)

/-- The family list of `conf.txt` loses a first name. -/
theorem rhuBarber_familyLine :
    (readConf .empty (familyLine ["Rhu Barber".toList, "Harry Barber".toList])).otherfamily =
        ["Barber".toList, "Harry Barber".toList] ∧
      readConf .empty (familyLine ["Rhu Barber".toList, "Harry Barber".toList]) ≠
        { Config.empty with otherfamily := ["Rhu Barber".toList, "Harry Barber".toList] } := by
  have read := readConf_familyLine .empty "Rhu Barber".toList ["Harry Barber".toList] (by decide)
  have cut : behind ' ' "Rhu Barber".toList = "Barber".toList := by decide
  rw [cut] at read
  constructor
  · rw [read]
    rfl
  · rw [read]
    decide

/-! ## Letter case -/

/-- The second line comes from the first by changes of letter case before the first space, or
anywhere if there is none. -/
def Recased (line recased : Text) : Prop :=
  (recased.takeWhile (· ≠ ' ')).map Char.toLower = (line.takeWhile (· ≠ ' ')).map Char.toLower ∧
    recased.dropWhile (· ≠ ' ') = line.dropWhile (· ≠ ' ')

/-- The effect of a line on a configuration does not depend on the case of its option name, and
the value of a string option is stored as it is written. -/
structure CaseHandled (conf : Config) (line recased : Text) : Prop where
  name : readConf conf recased = readConf conf line
  fullname : ∀ o v, line = o ++ ' ' :: v → o.map Char.toLower = Field.fullname.option →
    (readConf conf line).fullname = v
  favouritefruit : ∀ o v, line = o ++ ' ' :: v →
    o.map Char.toLower = Field.favouritefruit.option → (readConf conf line).favouritefruit = v

/-- White space is not a letter. -/
theorem toLower_whitespace {d : Char} (blank : d ∈ whitespace) :
    d.toLower = d ∧ ¬ ('a' ≤ d ∧ d ≤ 'z') := by
  simp only [whitespace, List.mem_cons, List.not_mem_nil, or_false] at blank
  rcases blank with rfl | rfl | rfl | rfl <;> decide

/-- A change of case keeps the first character one that starts a line. -/
theorem Recased.headed {line recased : Text} (changed : Recased line recased)
    (headed : Headed line) : Headed recased := by
  obtain ⟨a, head, first, hash, semicolon⟩ := headed
  obtain ⟨rest, rfl⟩ := List.head?_eq_some_iff.mp head
  have inside : a ≠ ' ' := fun space => first (space ▸ by decide)
  have start := changed.1
  rw [List.takeWhile_cons_of_pos (by simpa using inside), List.map_cons] at start
  cases recased with
  | nil => cases start
  | cons b recased =>
      have kept : ∀ d : Char, d.toLower = d → ¬ ('a' ≤ d ∧ d ≤ 'z') → b = d → a = d := by
        rintro d lower other rfl
        by_cases space : b = ' '
        · rw [List.takeWhile_cons_of_neg (by simp [space])] at start
          cases start
        · rw [List.takeWhile_cons_of_pos (by simpa using space), List.map_cons,
            List.cons.injEq, lower] at start
          exact eq_of_toLower start.1.symm other
      refine ⟨b, rfl, ?_, ?_, ?_⟩
      · intro blank
        obtain ⟨lower, other⟩ := toLower_whitespace blank
        exact first (kept b lower other rfl ▸ blank)
      · exact fun same => hash (kept '#' (by decide) (by decide) same)
      · exact fun same => semicolon (kept ';' (by decide) (by decide) same)

/-- A change of case in a line keeps its first blank and what is behind it. -/
theorem Recased.spaced {o v recased : Text} (changed : Recased (o ++ ' ' :: v) recased)
    (free : ' ' ∉ o) :
    ∃ respelled, recased = respelled ++ ' ' :: v ∧ ' ' ∉ respelled ∧
      respelled.map Char.toLower = o.map Char.toLower := by
  obtain ⟨start, rest⟩ := changed
  rw [takeWhile_append free] at start
  rw [dropWhile_append free] at rest
  refine ⟨recased.takeWhile (· ≠ ' '), ?_, notMem_takeWhile ' ' recased, start⟩
  rw [← rest, List.takeWhile_append_dropWhile]

/-- A change of case in a line without blank changes only the case. -/
theorem Recased.unspaced {line recased : Text} (changed : Recased line recased)
    (free : ' ' ∉ line) :
    ' ' ∉ recased ∧ recased.map Char.toLower = line.map Char.toLower := by
  obtain ⟨start, rest⟩ := changed
  have whole := List.takeWhile_append_dropWhile (p := (· ≠ ' ')) (l := recased)
  have lineWhole := List.takeWhile_append_dropWhile (p := (· ≠ ' ')) (l := line)
  rw [takeWhile_of_notMem free] at start lineWhole
  rw [rest, List.append_right_eq_self.mp lineWhole, List.append_nil] at whole
  have startFree := notMem_takeWhile ' ' recased
  rw [whole] at start startFree
  exact ⟨startFree, start⟩

/-- Without spaces and commas a value is its own and only family member. -/
theorem family_of_plain {value : Text} (space : ' ' ∉ value) (comma : ',' ∉ value) :
    family value = [value] := by
  rw [family_of_free comma, behind_of_notMem space]

/-- Two spellings of one option name assign the same when it is a flag or they are equal. -/
theorem assign_spelling_iff {field : Field} {line recased : Text} (conf : Config)
    (named : line.map Char.toLower = field.option)
    (renamed : recased.map Char.toLower = field.option) :
    field.assign recased conf = field.assign line conf ↔
      recased = line ∨ field ∉ [Field.fullname, .favouritefruit, .otherfamily] := by
  have comma (o : Text) (named : o.map Char.toLower = field.option) : ',' ∉ o :=
    notMem_of_named named (by cases field <;> decide)
  cases field with
  | fullname => simp [Field.assign]
  | favouritefruit => simp [Field.assign]
  | needspeeling => simp [Field.assign]
  | seedsremoved => simp [Field.assign]
  | otherfamily =>
      rw [Field.assign, Field.assign, family_of_plain (space_notMem_of_named named) (comma _ named),
        family_of_plain (space_notMem_of_named renamed) (comma _ renamed)]
      simp

/-- With a space in the line, letter case is handled as promised. -/
theorem caseHandled_of_spaced (conf : Config) {line recased : Text} (headed : Headed line)
    (changed : Recased line recased) (spaced : ' ' ∈ line) : CaseHandled conf line recased where
  name := by
    have headedAfter := changed.headed headed
    obtain ⟨o, v, rfl, free⟩ := List.eq_append_cons_of_mem spaced
    obtain ⟨respelled, rfl, freeAfter, same⟩ := changed.spaced free
    rw [headedAfter.readConf_spaced v freeAfter, headed.readConf_spaced v free, same]
  fullname := by
    rintro o v rfl named
    rw [readConf_named named]
    rfl
  favouritefruit := by
    rintro o v rfl named
    rw [readConf_named named]
    rfl

/-- A line without a space is stored as its own value, in the case it is written in. -/
theorem caseHandled_unspaced_iff (conf : Config) {line recased : Text} (headed : Headed line)
    (changed : Recased line recased) (free : ' ' ∉ line) :
    CaseHandled conf line recased ↔
      setOption conf (line.map Char.toLower) recased =
        setOption conf (line.map Char.toLower) line := by
  obtain ⟨freeAfter, same⟩ := changed.unspaced free
  have before := headed.readConf_unspaced free conf
  have after := (changed.headed headed).readConf_unspaced freeAfter conf
  rw [same] at after
  rw [← before, ← after]
  refine ⟨CaseHandled.name, fun name => ⟨name, ?_, ?_⟩⟩
  · rintro o v rfl
    exact absurd (by simp) free
  · rintro o v rfl
    exact absurd (by simp) free

/-- **Where letter case is handled as promised.** For a line and a change of case in its option
name, the two have the same effect and string values are stored unchanged, exactly when the
line has a space, or is not changed at all, or is not the bare name of an option that stores
its value. -/
theorem caseHandled_iff (conf : Config) (line recased : Text) (headed : Headed line)
    (changed : Recased line recased) :
    CaseHandled conf line recased ↔
      ' ' ∈ line ∨ recased = line ∨
        ∀ field ∈ [Field.fullname, .favouritefruit, .otherfamily],
          line.map Char.toLower ≠ field.option := by
  by_cases spaced : ' ' ∈ line
  · exact iff_of_true (caseHandled_of_spaced conf headed changed spaced) (.inl spaced)
  · rw [caseHandled_unspaced_iff conf headed changed spaced, setOption_eq, setOption_eq]
    simp only [spaced, false_or]
    cases known : fieldOf (line.map Char.toLower) with
    | none =>
        refine iff_of_true rfl (.inr fun field _ named => ?_)
        rw [named, fieldOf_option] at known
        cases known
    | some field =>
        have named := fieldOf_eq_some_iff.mp known
        have renamed := (changed.unspaced spaced).2.trans named
        refine (assign_spelling_iff conf named renamed).trans (or_congr_right ?_)
        constructor
        · rintro flag other member otherNamed
          rw [otherNamed, fieldOf_option, Option.some.injEq] at known
          exact flag (known ▸ member)
        · exact fun bare member => bare field member named

/-- The name line in capitals is handled like the line itself. -/
theorem foo_recased :
    Headed "FullName Foo".toList ∧ Recased "FullName Foo".toList "FULLNAME Foo".toList ∧
      CaseHandled .empty "FullName Foo".toList "FULLNAME Foo".toList := by
  have headed : Headed "FullName Foo".toList := ⟨'F', by decide, by decide, by decide, by decide⟩
  have changed : Recased "FullName Foo".toList "FULLNAME Foo".toList := ⟨by decide, by decide⟩
  exact ⟨headed, changed, (caseHandled_iff .empty _ _ headed changed).mpr (.inl (by decide))⟩

/-- A bare option name is its own value, so its case is not immaterial. -/
theorem bareName_recased :
    Headed "FULLNAME".toList ∧ Recased "FULLNAME".toList "fullname".toList ∧
      ¬ CaseHandled .empty "FULLNAME".toList "fullname".toList := by
  refine ⟨⟨'F', by decide, by decide, by decide, by decide⟩, ⟨by decide, by decide⟩, ?_⟩
  intro handled
  exact absurd handled.name (by decide)

/-! ## Whitespace around family lists -/

/-- The last character behind a comma, or the comma. -/
theorem getLast?_append_comma (piece rest : Text) :
    (piece ++ ',' :: rest).getLast? = some ((rest.getLast?).getD ',') := by
  rw [List.getLast?_append, List.getLast?_cons, Option.some_or]

/-- Whitespace behind a list shows unless its last piece is empty and a single space ends the
whitespace. -/
theorem family_append_blank_iff {value trailing : Text}
    (trimmed : ∀ a ∈ value.getLast?, a ∉ whitespace) (blanks : ∀ a ∈ trailing, a ∈ whitespace) :
    family (value ++ trailing) = family value ↔
      trailing = [] ∨
        (value.getLast?.getD ',' = ',' ∧ trailing.dropWhile (· ≠ ' ') = [' ']) := by
  have free : ',' ∉ trailing := fun member => absurd (blanks ',' member) (by decide)
  induction value using Lines.lines_induction ',' with
  | last value none =>
      have ends : value.getLast?.getD ',' = ',' ↔ value = [] := by
        cases last : value.getLast? with
        | none => simpa using last
        | some a =>
            have member := List.mem_of_getLast? last
            have other : a ≠ ',' := fun comma => none (comma ▸ member)
            simpa [other] using List.ne_nil_of_mem member
      rw [family_of_free none, family_of_free (by simp [none, free]), List.cons.injEq, ends]
      simpa using behind_append_blank_iff trimmed blanks
  | line piece rest none ih =>
      rw [getLast?_append_comma] at trimmed ⊢
      rw [List.append_assoc, List.cons_append, family_append_comma none, family_append_comma none,
        List.cons.injEq, Option.getD_some]
      simp only [true_and]
      exact ih fun a last => trimmed a (by rw [Option.mem_def.mp last]; rfl)

/-- The end of a text has its last character. -/
theorem getLast?_of_suffix {s t : Text} (suffix : s <:+ t) (nonempty : s ≠ []) :
    s.getLast? = t.getLast? := by
  obtain ⟨front, rfl⟩ := suffix
  rw [List.getLast?_append, List.getLast?_eq_some_getLast nonempty, Option.some_or]

/-- Whitespace behind the only piece of a list shows. -/
theorem behind_append_ne {gap value trailing : Text} (nonempty : value ≠ [])
    (trimmed : ∀ a ∈ value.getLast?, a ∉ whitespace) (blanks : ∀ a ∈ trailing, a ∈ whitespace)
    (more : trailing ≠ []) :
    behind ' ' (gap ++ (value ++ trailing)) ≠ behind ' ' value := by
  intro same
  have some : behind ' ' value ≠ [] := by
    intro none
    by_cases space : ' ' ∈ value
    · obtain ⟨front, back, rfl, free⟩ := List.eq_append_cons_of_mem space
      rw [behind_append free] at none
      exact trimmed ' ' (by simp [none]) (by decide)
    · exact nonempty (behind_of_notMem space ▸ none)
  have last := getLast?_of_suffix (behind_suffix ' ' value) some
  rw [← same] at some last
  rw [getLast?_of_suffix (behind_suffix _ _) some, ← List.append_assoc,
    ← getLast?_of_suffix (List.suffix_append _ _) more, List.getLast?_eq_some_getLast more] at last
  exact trimmed _ last.symm (blanks _ (List.getLast_mem more))

/-- When the text around a family list does not show. -/
theorem family_append_iff {gap value trailing : Text} (gapFree : ',' ∉ gap)
    (nonempty : value ≠ []) (trimmed : ∀ a ∈ value.getLast?, a ∉ whitespace)
    (blanks : ∀ a ∈ trailing, a ∈ whitespace) :
    family (gap ++ (value ++ trailing)) = family value ↔
      (gap = [] ∨ (gap.dropWhile (· ≠ ' ') = [' '] ∧ ' ' ∉ value.takeWhile (· ≠ ',')) ∨
          (' ' ∉ gap ∧ ' ' ∈ value.takeWhile (· ≠ ','))) ∧
        (trailing = [] ∨
          (value.getLast? = some ',' ∧ trailing.dropWhile (· ≠ ' ') = [' '])) := by
  have free : ',' ∉ trailing := fun member => absurd (blanks ',' member) (by decide)
  by_cases comma : ',' ∈ value
  · obtain ⟨piece, rest, rfl, none⟩ := List.eq_append_cons_of_mem comma
    have restTrimmed : ∀ a ∈ rest.getLast?, a ∉ whitespace := by
      intro a last
      rw [getLast?_append_comma] at trimmed
      exact trimmed a (by rw [Option.mem_def.mp last]; rfl)
    rw [takeWhile_append none, getLast?_append_comma, List.append_assoc, List.cons_append,
      ← List.append_assoc, family_append_comma (by simp [gapFree, none]),
      family_append_comma none, List.cons.injEq, behind_append_eq_iff,
      family_append_blank_iff restTrimmed blanks, Option.some.injEq]
  · have whole : trailing = [] ∨ (value.getLast? = some ',' ∧
        trailing.dropWhile (· ≠ ' ') = [' ']) ↔ trailing = [] := by
      refine or_iff_left fun ends => comma (List.mem_of_getLast? ends.1)
    rw [takeWhile_of_notMem comma, family_of_free comma,
      family_of_free (by simp [gapFree, comma, free]), List.cons.injEq, whole]
    simp only [and_true]
    by_cases more : trailing = []
    · simp only [more, List.append_nil, and_true]
      exact behind_append_eq_iff gap value
    · exact iff_of_false (behind_append_ne nonempty trimmed blanks more) fun all => more all.2

/-! ## Whitespace and the equals sign -/

/-- What may stand between an option name and its value: whitespace, or an equals sign with
whitespace around it. -/
inductive Separator : Text → Prop where
  | blank {w : Text} : w ≠ [] → (∀ c ∈ w, c ∈ whitespace) → Separator w
  | equals {before after : Text} : (∀ c ∈ before, c ∈ whitespace) →
      (∀ c ∈ after, c ∈ whitespace) → Separator (before ++ '=' :: after)

/-- A separator starts with a character that no option name has. -/
theorem Separator.exists_cons {separator : Text} (separates : Separator separator) :
    ∃ c rest, separator = c :: rest ∧ ∀ field : Field, c.toLower ∉ field.option := by
  cases separates with
  | blank nonempty blanks =>
      obtain ⟨c, rest, rfl⟩ := List.exists_cons_of_ne_nil nonempty
      exact ⟨c, rest, rfl, fun field =>
        whitespace_notMem_option field (blanks c List.mem_cons_self)⟩
  | @equals before after blanks _ =>
      cases before with
      | nil => exact ⟨'=', after, rfl, fun field => by cases field <;> decide⟩
      | cons c rest =>
          exact ⟨c, rest ++ '=' :: after, rfl, fun field =>
            whitespace_notMem_option field (blanks c List.mem_cons_self)⟩

/-- There is no comma in a separator. -/
theorem Separator.comma_notMem {separator : Text} (separates : Separator separator) :
    ',' ∉ separator := by
  have blank : ',' ∉ whitespace := by decide
  cases separates with
  | blank _ blanks => exact fun member => blank (blanks _ member)
  | equals before after =>
      intro member
      rcases List.mem_append.mp member with inside | inside
      · exact blank (before _ inside)
      · exact blank (after _ ((List.mem_cons.mp inside).resolve_left (by decide)))

/-- An option and a value, laid out in one line. -/
structure Layout where
  field : Field
  leading : Text
  name : Text
  separator : Text
  value : Text
  trailing : Text
  leadingBlank : ∀ c ∈ leading, c ∈ whitespace
  named : name.map Char.toLower = field.option
  separates : Separator separator
  starts : ∃ a ∈ value.head?, a ∉ whitespace ∧ a ≠ '='
  trimmed : ∀ a ∈ value.getLast?, a ∉ whitespace
  trailingBlank : ∀ c ∈ trailing, c ∈ whitespace

namespace Layout

variable (layout : Layout)

/-- The line as it is laid out. -/
def line : Text :=
  layout.leading ++ (layout.name ++ (layout.separator ++ (layout.value ++ layout.trailing)))

/-- The same option and value with a single space. -/
def plain : Text :=
  layout.name ++ ' ' :: layout.value

/-- The first space of the line stands at the index that is the length of the name: right
behind the name if the line starts with it, and else in the leading whitespace. -/
def CutAtName : Prop :=
  (layout.leading = [] ∧ layout.separator.head? = some ' ') ∨
    (' ' ∈ layout.leading ∧ layout.leading.idxOf ' ' = layout.name.length)

instance decidableCutAtName : Decidable layout.CutAtName :=
  inferInstanceAs (Decidable (_ ∨ _))

/-- What stands between that space and the value. -/
def gap : Text :=
  (layout.leading ++ (layout.name ++ layout.separator)).drop (layout.name.length + 1)

/-- The layouts of a family list that do not show: nothing before the first piece that its own
first space would not take away, and nothing behind the last one. -/
def FamilyKept : Prop :=
  (layout.gap = [] ∨
      (layout.gap.dropWhile (· ≠ ' ') = [' '] ∧ ' ' ∉ layout.value.takeWhile (· ≠ ',')) ∨
      (' ' ∉ layout.gap ∧ ' ' ∈ layout.value.takeWhile (· ≠ ','))) ∧
    (layout.trailing = [] ∨
      (layout.value.getLast? = some ',' ∧ layout.trailing.dropWhile (· ≠ ' ') = [' ']))

/-- The option drops the text around the value. The flags drop everything, and the two strings
nothing. -/
def ValueKept : Prop :=
  match layout.field with
  | .fullname | .favouritefruit =>
      layout.leading = [] ∧ layout.separator = [' '] ∧ layout.trailing = []
  | .needspeeling | .seedsremoved => True
  | .otherfamily => layout.FamilyKept

/-- A separator starts with a character that is in no option. -/
theorem separator_cons :
    ∃ c rest, layout.separator = c :: rest ∧ ∀ field : Field, c.toLower ∉ field.option :=
  layout.separates.exists_cons

/-- The first space of the line is at the length of the name exactly if the line is cut there. -/
theorem idxOf_line_iff : layout.line.idxOf ' ' = layout.name.length ↔ layout.CutAtName := by
  obtain ⟨c, rest, separator, -⟩ := layout.separator_cons
  have nameFree := space_notMem_of_named layout.named
  unfold CutAtName line
  rw [List.idxOf_append]
  split
  · next inside =>
      have nonempty : layout.leading ≠ [] := List.ne_nil_of_mem inside
      simp [nonempty, inside]
  · next outside =>
      rw [List.idxOf_append, if_neg nameFree, separator, List.cons_append, List.idxOf_cons]
      simp only [outside, false_and, or_false, List.head?_cons, Option.some.injEq]
      by_cases space : c = ' '
      · simp only [space, beq_self_eq_true, cond_true, and_true, Nat.zero_add,
          ← List.length_eq_zero_iff]
        omega
      · have differs : (c == ' ') = false := by simpa using space
        simp only [space, differs, cond_false, and_false, iff_false]
        omega

/-- A line that is cut at the name has a blank. -/
theorem space_mem_line (cut : layout.CutAtName) : ' ' ∈ layout.line := by
  unfold line
  rcases cut with ⟨-, head⟩ | ⟨inside, -⟩
  · simp [List.mem_of_mem_head? head]
  · simp [inside]

/-- A line that is cut at its name has the gap, the value and the trailing whitespace as its
value. -/
theorem behind_line (cut : layout.CutAtName) :
    behind ' ' layout.line = layout.gap ++ (layout.value ++ layout.trailing) := by
  obtain ⟨c, rest, separator, -⟩ := layout.separator_cons
  rw [behind_eq_drop (layout.space_mem_line cut), layout.idxOf_line_iff.mpr cut, line, gap,
    ← List.append_assoc layout.name, ← List.append_assoc layout.leading,
    List.drop_append_of_le_length]
  simp only [List.length_append, separator, List.length_cons]
  omega

/-- A line has the effect of its value if it is cut at its name, and none at all otherwise. -/
theorem readConf_line (conf : Config) :
    readConf conf layout.line =
      if layout.CutAtName then
        layout.field.assign (layout.gap ++ (layout.value ++ layout.trailing)) conf
      else conf := by
  obtain ⟨c, rest, separator, ends⟩ := layout.separator_cons
  have selected := selects_name (rest ++ (layout.value ++ layout.trailing)) layout.leadingBlank
    layout.named ends
  rw [← List.cons_append, ← separator] at selected
  change selects layout.line = if layout.line.idxOf ' ' = layout.name.length then _ else _
    at selected
  rw [readConf_eq, selected]
  by_cases cut : layout.CutAtName
  · rw [if_pos cut, if_pos (layout.idxOf_line_iff.mpr cut), layout.behind_line cut]
    rfl
  · rw [if_neg cut, if_neg (mt layout.idxOf_line_iff.mp cut)]
    rfl

/-- The plain line assigns the value. -/
theorem readConf_plain (conf : Config) :
    readConf conf layout.plain = layout.field.assign layout.value conf :=
  readConf_named layout.named layout.value conf

/-- The value of a line is not empty. -/
theorem value_ne_nil : layout.value ≠ [] := by
  obtain ⟨a, head, -⟩ := layout.starts
  rintro none
  rw [none] at head
  cases head

/-- No value leaves the empty configuration empty. -/
theorem assign_empty_ne : layout.field.assign layout.value .empty ≠ .empty := by
  have nonempty := layout.value_ne_nil
  cases layout.field <;> simp [Field.assign, Config.empty, nonempty, family, List.splitOn_ne_nil]

/-- Nothing is before the value exactly with a single blank as separator and nothing in front. -/
theorem gap_eq_nil_iff (cut : layout.CutAtName) :
    layout.gap = [] ↔ layout.leading = [] ∧ layout.separator = [' '] := by
  obtain ⟨c, rest, separator, -⟩ := layout.separator_cons
  rw [gap, List.drop_eq_nil_iff]
  simp only [List.length_append, separator, List.length_cons, List.cons.injEq]
  rcases cut with ⟨leading, head⟩ | ⟨inside, index⟩
  · rw [separator, List.head?_cons, Option.some.injEq] at head
    simp only [leading, head, List.length_nil, true_and, ← List.length_eq_zero_iff]
    omega
  · have long := List.idxOf_lt_length_of_mem inside
    have nonempty : layout.leading ≠ [] := List.ne_nil_of_mem inside
    simp only [nonempty, false_and, iff_false]
    omega

/-- There is no comma before the value. -/
theorem comma_notMem_gap : ',' ∉ layout.gap := by
  intro member
  have inside := List.mem_of_mem_drop member
  have blank : ',' ∉ whitespace := by decide
  simp only [List.mem_append] at inside
  rcases inside with leading | name | separator
  · exact blank (layout.leadingBlank _ leading)
  · exact notMem_of_named layout.named (by cases layout.field <;> decide) name
  · exact layout.separates.comma_notMem separator

/-- What is read is the value exactly with a single blank as separator, and nothing around it. -/
theorem append_value_eq_iff (cut : layout.CutAtName) :
    layout.gap ++ (layout.value ++ layout.trailing) = layout.value ↔
      layout.leading = [] ∧ layout.separator = [' '] ∧ layout.trailing = [] := by
  rw [← and_assoc, ← layout.gap_eq_nil_iff cut]
  constructor
  · intro same
    have lengths := congrArg List.length same
    simp only [List.length_append] at lengths
    exact ⟨List.length_eq_zero_iff.mp (by omega), List.length_eq_zero_iff.mp (by omega)⟩
  · rintro ⟨gap, trailing⟩
    rw [gap, trailing, List.append_nil, List.nil_append]

/-- A line that is cut at its name assigns what the plain line does if its option drops the
text around the value. -/
theorem assign_eq_iff (cut : layout.CutAtName) (conf : Config) :
    layout.field.assign (layout.gap ++ (layout.value ++ layout.trailing)) conf =
        layout.field.assign layout.value conf ↔ layout.ValueKept := by
  have string := layout.append_value_eq_iff cut
  have family : _ ↔ layout.FamilyKept := family_append_iff layout.comma_notMem_gap
    layout.value_ne_nil layout.trimmed layout.trailingBlank
  unfold ValueKept
  cases layout.field with
  | fullname => simpa [Field.assign] using string
  | favouritefruit => simpa [Field.assign] using string
  | needspeeling => simp [Field.assign]
  | seedsremoved => simp [Field.assign]
  | otherfamily => simpa [Field.assign] using family

/-- **Which layouts do not show.** The line has the effect of the plain line on every
configuration exactly when its first space stands at the index that is the length of the name
and the text around the value is one that the option drops. -/
theorem kept_iff (layout : Layout) :
    (∀ conf, readConf conf layout.line = readConf conf layout.plain) ↔
      layout.CutAtName ∧ layout.ValueKept := by
  simp only [readConf_line, readConf_plain]
  by_cases cut : layout.CutAtName
  · simp only [cut, ↓reduceIte, layout.assign_eq_iff cut, true_and]
    exact ⟨fun kept => kept .empty, fun kept _ => kept⟩
  · simp only [cut, ↓reduceIte]
    refine iff_of_false (fun same => ?_) fun kept => kept.1.elim
    exact layout.assign_empty_ne (same .empty).symm

end Layout

/-- `FULLNAME=Foo`. -/
def equalsLayout : Layout where
  field := .fullname
  leading := []
  name := "FULLNAME".toList
  separator := ['=']
  value := "Foo".toList
  trailing := []
  leadingBlank := fun _ member => absurd member List.not_mem_nil
  named := by decide
  separates := @Separator.equals [] [] (fun _ member => absurd member List.not_mem_nil)
    fun _ member => absurd member List.not_mem_nil
  starts := ⟨'F', by decide, by decide, by decide⟩
  trimmed := by
    intro a last
    have same : some 'o' = some a := last
    cases same
    decide
  trailingBlank := fun _ member => absurd member List.not_mem_nil

/-- With an equals sign and no space the option is not recognised. -/
theorem equalsLayout_lost :
    equalsLayout.line = "FULLNAME=Foo".toList ∧ equalsLayout.plain = "FULLNAME Foo".toList ∧
      readConf .empty equalsLayout.line = .empty ∧
      (readConf .empty equalsLayout.plain).fullname = "Foo".toList ∧
      ¬ ∀ conf, readConf conf equalsLayout.line = readConf conf equalsLayout.plain := by
  have lost : readConf .empty equalsLayout.line = .empty := by decide
  have kept : (readConf .empty equalsLayout.plain).fullname = "Foo".toList := by decide
  refine ⟨by decide, by decide, lost, kept, fun same => ?_⟩
  rw [← same .empty, lost] at kept
  exact absurd kept (by decide)

end CPrograms.ParseConfig
