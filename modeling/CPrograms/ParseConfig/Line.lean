import CPrograms.Library.StdString

/-!
# One line of the configuration file

`readConf` and what it makes of a line. A line selects at most one field of the
configuration; every branch of `readConf` is the assignment of one value to the selected
field. The name of the option and its value are cut from the line by two searches that
agree only where the line starts with the name and a space ends it.
-/

namespace CPrograms.ParseConfig

open Library StdString

/-- A string of the program; a byte is the character of its code. -/
abbrev Text := List Char

/-- The configuration. -/
@[ext] structure Config where
  fullname : Text
  favouritefruit : Text
  needspeeling : Bool
  seedsremoved : Bool
  otherfamily : List Text
  deriving DecidableEq, Repr

/-- The characters that `readConf` skips at the start of a line. -/
def whitespace : Text :=
  [' ', '\x0c', '\t', '\x0b']

/-- The loop of `readConf` over the commas of a value, and the push behind it. -/
def pushFamily (value : Text) (otherfamily : List Text) : List Text :=
  match find value ',' with
  | some pos =>
      let v := substr value 0 (some pos)
      pushFamily (erase value 0 (pos + 1)) (otherfamily ++ [behind ' ' v])
  | none => otherfamily ++ [behind ' ' value]
  termination_by value.length
  decreasing_by
    have bound := pos.isLt
    simp only [erase, Fin.val_zero, List.take_zero, List.nil_append, List.length_drop]
    omega

/-- The comparisons of `readConf` with the names it knows. -/
def setOption (conf : Config) (option value : Text) : Config :=
  if option = "fullname".toList then { conf with fullname := value }
  else if option = "favouritefruit".toList then { conf with favouritefruit := value }
  else if option = "needspeeling".toList then { conf with needspeeling := true }
  else if option = "seedsremoved".toList then { conf with seedsremoved := true }
  else if option = "otherfamily".toList then
    { conf with otherfamily := pushFamily value conf.otherfamily }
  else conf

/-- The configuration after one line. -/
def readConf (conf : Config) (str : Text) : Config :=
  match findFirstNotOf str whitespace with
  | none => conf
  | some start =>
      if str.get start = '#' ∨ str.get start = ';' then conf
      else
        let option := (substr str start.castSucc ((find str ' ').map Fin.val)).map Char.toLower
        let value := behind ' ' str
        setOption conf option value

/-! ## Fields -/

/-- The fields of the configuration. -/
inductive Field where
  | fullname
  | favouritefruit
  | needspeeling
  | seedsremoved
  | otherfamily
  deriving DecidableEq, Repr

/-- The lower-case name of the option for a field. -/
def Field.option : Field → Text
  | fullname => "fullname".toList
  | favouritefruit => "favouritefruit".toList
  | needspeeling => "needspeeling".toList
  | seedsremoved => "seedsremoved".toList
  | otherfamily => "otherfamily".toList

/-- The field an option name stands for. -/
def fieldOf (option : Text) : Option Field :=
  if option = Field.fullname.option then some .fullname
  else if option = Field.favouritefruit.option then some .favouritefruit
  else if option = Field.needspeeling.option then some .needspeeling
  else if option = Field.seedsremoved.option then some .seedsremoved
  else if option = Field.otherfamily.option then some .otherfamily
  else none

/-- The family members a value lists: its pieces between commas, each from its first space
on. -/
def family (value : Text) : List Text :=
  (value.splitOn ',').map (behind ' ')

/-- Assign a value to a field. The two flags are set whatever the value. -/
def Field.assign (field : Field) (value : Text) (conf : Config) : Config :=
  match field with
  | fullname => { conf with fullname := value }
  | favouritefruit => { conf with favouritefruit := value }
  | needspeeling => { conf with needspeeling := true }
  | seedsremoved => { conf with seedsremoved := true }
  | otherfamily => { conf with otherfamily := conf.otherfamily ++ family value }

/-- The field a line selects. -/
def selects (str : Text) : Option Field :=
  match findFirstNotOf str whitespace with
  | none => none
  | some start =>
      if str.get start = '#' ∨ str.get start = ';' then none
      else fieldOf (((str.drop start).take (str.idxOf ' ')).map Char.toLower)

/-- The option of a field names it. -/
theorem fieldOf_option (field : Field) : fieldOf field.option = some field := by
  cases field <;> decide

/-- A field is named by its option only. -/
theorem fieldOf_eq_some_iff {option : Text} {field : Field} :
    fieldOf option = some field ↔ option = field.option := by
  constructor
  · intro found
    unfold fieldOf at found
    repeat' split at found
    all_goals first | cases found; assumption | cases found
  · rintro rfl
    exact fieldOf_option field

/-- A value without comma is one name. -/
theorem family_of_free {value : Text} (free : ',' ∉ value) : family value = [behind ' ' value] := by
  rw [family, List.splitOn_eq_singleton free, List.map_singleton]

/-- The name before the first comma, and then the others. -/
theorem family_append_comma {piece : Text} (free : ',' ∉ piece) (rest : Text) :
    family (piece ++ ',' :: rest) = behind ' ' piece :: family rest := by
  rw [family, List.splitOn_append_cons_self_of_not_mem free, List.map_cons]
  rfl

/-- The loop over the commas lists the pieces of the value. -/
theorem pushFamily_eq (value : Text) (otherfamily : List Text) :
    pushFamily value otherfamily = otherfamily ++ family value := by
  induction size : value.length using Nat.strongRecOn generalizing value otherfamily with
  | ind _ ih =>
      rw [pushFamily]
      split
      · next pos found =>
          obtain ⟨front, back, rfl, free, index⟩ := find_eq_some found
          have piece : substr (front ++ ',' :: back) 0 (some pos) = front := by
            simp [substr, index]
          have rest : erase (front ++ ',' :: back) 0 (pos + 1) = back := by
            simp [erase, index]
          have shorter : back.length < (front ++ ',' :: back).length := by
            rw [List.length_append, List.length_cons]
            omega
          rw [rest, piece, ih back.length (size ▸ shorter) back _ rfl, family_append_comma free,
            List.append_assoc, List.singleton_append]
      · next none =>
          have free : ',' ∉ value := by
            intro member
            obtain ⟨front, back, rfl, free⟩ := List.eq_append_cons_of_mem member
            rw [find_append free] at none
            cases none
          rw [family_of_free free]

/-- An option assigns its field. -/
theorem setOption_option (conf : Config) (field : Field) (value : Text) :
    setOption conf field.option value = field.assign value conf := by
  unfold setOption
  cases field with
  | fullname => rw [if_pos (by decide), Field.assign]
  | favouritefruit => rw [if_neg (by decide), if_pos (by decide), Field.assign]
  | needspeeling => rw [if_neg (by decide), if_neg (by decide), if_pos (by decide), Field.assign]
  | seedsremoved =>
      rw [if_neg (by decide), if_neg (by decide), if_neg (by decide), if_pos (by decide),
        Field.assign]
  | otherfamily =>
      rw [if_neg (by decide), if_neg (by decide), if_neg (by decide), if_neg (by decide),
        if_pos (by decide), Field.assign, pushFamily_eq]

/-- Other options assign nothing. -/
theorem setOption_eq (conf : Config) (option value : Text) :
    setOption conf option value =
      (fieldOf option).elim conf fun field => field.assign value conf := by
  cases known : fieldOf option with
  | some field =>
      rw [fieldOf_eq_some_iff.mp known]
      exact setOption_option conf field value
  | none =>
      have other (field : Field) : option ≠ field.option := by
        rintro rfl
        rw [fieldOf_option] at known
        cases known
      exact (if_neg (other .fullname)).trans <| (if_neg (other .favouritefruit)).trans <|
        (if_neg (other .needspeeling)).trans <| (if_neg (other .seedsremoved)).trans <|
        if_neg (other .otherfamily)

/-- **What `readConf` does.** It assigns the value of the line to the field the line selects,
if any. -/
theorem readConf_eq (conf : Config) (str : Text) :
    readConf conf str =
      (selects str).elim conf fun field => field.assign (behind ' ' str) conf := by
  unfold readConf selects
  split
  · rfl
  · split
    · rfl
    · rw [substr_find]
      exact setOption_eq ..

/-! ## Lines by their shape -/

/-- A line that selects no field is ignored. -/
theorem readConf_of_none {str : Text} (ignored : selects str = none) (conf : Config) :
    readConf conf str = conf := by
  rw [readConf_eq, ignored]
  rfl

/-- A line that selects a field assigns what is behind its first blank. -/
theorem readConf_of_some {str : Text} {field : Field} (selected : selects str = some field)
    (conf : Config) : readConf conf str = field.assign (behind ' ' str) conf := by
  rw [readConf_eq, selected]
  rfl

/-- A blank line selects no field. -/
theorem selects_of_blank {str : Text} (blank : ∀ c ∈ str, c ∈ whitespace) :
    selects str = none := by
  rw [selects, findFirstNotOf_eq_none_iff.mpr blank]

/-- Behind the skipped whitespace the option name has as many characters as stand before the
first space of the whole line. -/
theorem selects_append {front : Text} {a : Char} (skipped : ∀ c ∈ front, c ∈ whitespace)
    (first : a ∉ whitespace) (rest : Text) :
    selects (front ++ a :: rest) =
      if a = '#' ∨ a = ';' then none
      else fieldOf (((a :: rest).take ((front ++ a :: rest).idxOf ' ')).map Char.toLower) := by
  rw [selects, findFirstNotOf_append skipped first]
  simp

/-- A line that selects a field has its name behind whitespace, at the length the first space of
the line gives. -/
theorem exists_name_of_selects {str : Text} {field : Field} (selected : selects str = some field) :
    ∃ front rest, str = front ++ rest ∧ (∀ c ∈ front, c ∈ whitespace) ∧
      (rest.take (str.idxOf ' ')).map Char.toLower = field.option := by
  rcases all_mem_or_append whitespace str with blank | ⟨front, a, rest, rfl, skipped, first⟩
  · rw [selects_of_blank blank] at selected
    cases selected
  · rw [selects_append skipped first] at selected
    split at selected
    · cases selected
    · exact ⟨front, a :: rest, rfl, skipped, fieldOf_eq_some_iff.mp selected⟩

/-- The line starts with a character that is neither skipped nor marks a comment. -/
def Headed (line : Text) : Prop :=
  ∃ a ∈ line.head?, a ∉ whitespace ∧ a ≠ '#' ∧ a ≠ ';'

/-- A headed line selects the field that its first word names in any case. -/
theorem Headed.selects {line : Text} (headed : Headed line) :
    selects line = fieldOf ((line.take (line.idxOf ' ')).map Char.toLower) := by
  obtain ⟨a, head, first, hash, semicolon⟩ := headed
  obtain ⟨rest, rfl⟩ := List.head?_eq_some_iff.mp head
  have shape := @selects_append [] a (fun c member => absurd member List.not_mem_nil) first rest
  rwa [if_neg (by simp [hash, semicolon])] at shape

/-- A line that starts with its option and has a space behind it. -/
theorem Headed.readConf_spaced {o : Text} (v : Text) (headed : Headed (o ++ ' ' :: v))
    (free : ' ' ∉ o) (conf : Config) :
    readConf conf (o ++ ' ' :: v) = setOption conf (o.map Char.toLower) v := by
  rw [readConf_eq, headed.selects, behind_append free, idxOf_append_cons free, List.take_left,
    setOption_eq]

/-- A line without a space is its own option and its own value. -/
theorem Headed.readConf_unspaced {line : Text} (headed : Headed line) (free : ' ' ∉ line)
    (conf : Config) : readConf conf line = setOption conf (line.map Char.toLower) line := by
  rw [readConf_eq, headed.selects, behind_of_notMem free, List.idxOf_eq_length free,
    List.take_length, setOption_eq]

/-- The spelling of an option name has no characters but letters. -/
theorem notMem_of_named {o : Text} {field : Field} (named : o.map Char.toLower = field.option)
    {c : Char} (other : c.toLower ∉ field.option) : c ∉ o :=
  fun member => other (named ▸ List.mem_map_of_mem member)

/-- There is no white space in an option. -/
theorem whitespace_notMem_option (field : Field) {c : Char} (blank : c ∈ whitespace) :
    c.toLower ∉ field.option := by
  have none : whitespace.all (fun c => c.toLower ∉ field.option) = true := by
    cases field <;> decide
  simpa using List.all_eq_true.mp none c blank

/-- There is no blank in a word that names a field. -/
theorem space_notMem_of_named {o : Text} {field : Field}
    (named : o.map Char.toLower = field.option) : ' ' ∉ o :=
  notMem_of_named named (whitespace_notMem_option field (by decide))

/-- A line that starts with the name of a field is headed. -/
theorem headed_of_named {o : Text} {field : Field} (named : o.map Char.toLower = field.option)
    (rest : Text) : Headed (o ++ rest) := by
  cases o with
  | nil =>
      cases field <;> cases named
  | cons a o =>
      refine ⟨a, rfl, fun blank => ?_, ?_, ?_⟩
      · exact notMem_of_named named (whitespace_notMem_option field blank) List.mem_cons_self
      · rintro rfl
        exact notMem_of_named named (by cases field <;> decide) List.mem_cons_self
      · rintro rfl
        exact notMem_of_named named (by cases field <;> decide) List.mem_cons_self

/-- A name, one space and a value assign the value. -/
theorem readConf_named {o : Text} {field : Field} (named : o.map Char.toLower = field.option)
    (v : Text) (conf : Config) : readConf conf (o ++ ' ' :: v) = field.assign v conf := by
  rw [(headed_of_named named _).readConf_spaced v (space_notMem_of_named named), named,
    setOption_option]

/-- No option name is the beginning of another one. -/
theorem eq_of_option_prefix {field other : Field} (starts : other.option <+: field.option) :
    other = field := by
  cases field <;> cases other <;> first | rfl | exact absurd starts (by decide)

/-- A name behind whitespace is recognised only if the first space of the line stands at the
index that is the length of the name. -/
theorem selects_name {front name : Text} {field : Field} {c : Char} (rest : Text)
    (skipped : ∀ a ∈ front, a ∈ whitespace) (named : name.map Char.toLower = field.option)
    (ends : ∀ field : Field, c.toLower ∉ field.option) :
    selects (front ++ (name ++ c :: rest)) =
      if (front ++ (name ++ c :: rest)).idxOf ' ' = name.length then some field else none := by
  obtain ⟨a, head, first, hash, semicolon⟩ := headed_of_named named (c :: rest)
  obtain ⟨tail, shape⟩ := List.head?_eq_some_iff.mp head
  rw [shape, selects_append skipped first, if_neg (by simp [hash, semicolon]), ← shape]
  generalize (front ++ (name ++ c :: rest)).idxOf ' ' = n
  by_cases cut : n = name.length
  · rw [if_pos cut, cut, List.take_left, named, fieldOf_option]
  · rw [if_neg cut]
    cases known : fieldOf (((name ++ c :: rest).take n).map Char.toLower) with
    | none => rfl
    | some other =>
        have spelled := fieldOf_eq_some_iff.mp known
        rcases Nat.lt_or_gt_of_ne cut with short | long
        · rw [List.take_append_of_le_length short.le, List.map_take, named] at spelled
          have same : other = field := eq_of_option_prefix (spelled ▸ List.take_prefix ..)
          have lengths := congrArg List.length spelled
          have length := congrArg List.length named
          rw [List.length_map] at length
          rw [same, List.length_take] at lengths
          omega
        · have inside : c ∈ (name ++ c :: rest).take n := by
            rw [List.take_append, List.mem_append]
            exact .inr (by rw [← Nat.succ_pred_eq_of_pos (Nat.sub_pos_of_lt long)]; simp)
          exact absurd (spelled ▸ List.mem_map_of_mem inside) (ends other)

end CPrograms.ParseConfig
