import CPrograms.PocketDB.Listing

/-!
# Sessions of pocketDB

The loop of `main` and the text that `tree_get_all` prints behind it. A row goes through
`row_input`, `data_compact`, the tree, `data_expand` and `display_treemap_node`, and is printed as
it was typed.

The source reads its keys and its columns from fixed texts, three columns for each of seven keys,
and a switch over the column picks the text of the value and exits at a fourth. Here the texts are
parameters and so is their number; how they are read, by `sscanf` into arrays that keep a word when
the next text has none, is as in the source.
-/

namespace CPrograms.PocketDB

open Library

variable {libc : Libc}

/-- A field of `printf` that is filled with blanks on its right. -/
def padRight (width : Nat) (text : List UInt8) : List UInt8 :=
  text ++ List.replicate (width - text.length) 32

/-- What the loop of `display_treemap_node` prints for a cell, given the text of its value. -/
def displayLine (dt : UInt8) (cellName : CString) (value : List UInt8) : List UInt8 :=
  ascii "\nDataType\tCellName\tValue" ++ ascii "\n" ++ padRight 12 (Decimal.numeral dt.toNat) ++
    padRight 12 cellName.bytes ++ value

/-- What is printed for a cell. -/
def displayCell (cell : Cell libc) : List UInt8 :=
  displayLine cell.dt cell.cellName
    (match cell.val.text? libc with
      | some text => text.bytes
      | none => ascii "program error")

/-- Display the key and the values. -/
def displayTreemapNode (key : CString) (firstCell : Row libc) : List UInt8 :=
  ascii "\n\nKey : " ++ padRight 8 key.bytes ++ firstCell.flatMap displayCell

/-- What `tree_get_all` prints, if no expansion is undefined. -/
def printAll (libc : Libc) (root : Node) : Option (List UInt8) :=
  ((treeGetAll libc root).mapM fun display : Display libc =>
    display.row.map (displayTreemapNode display.key)).map List.flatten

/-- The texts from which `row_input` reads a column. -/
structure ColumnText where
  dt : CString
  cellname : CString
  dataVal : CString
  deriving DecidableEq

/-- The column in texts that are words; of the type only the first character is looked at. -/
def ColumnText.column (text : ColumnText) : Column :=
  ⟨text.dt.bytes.headD 0, text.cellname, text.dataVal⟩

/-- The words that the loop of `row_input` reads, given what `dt`, `cellname` and `data_val`
hold. -/
def scanColumns : (dt cellname dataVal : Option CString) → List ColumnText → Option (List Column)
  | _, _, _, [] => some []
  | dt, cellname, dataVal, text :: texts => do
      let dt ← scanWord 7 text.dt dt
      let cellname ← scanWord 254 text.cellname cellname
      let dataVal ← scanWord 254 text.dataVal dataVal
      let columns ← scanColumns (some dt) (some cellname) (some dataVal) texts
      some (ColumnText.column ⟨dt, cellname, dataVal⟩ :: columns)

/-- The text of a key, the texts for its row, and what the heap held where the row is compacted. -/
structure Entry where
  key : CString
  columns : List ColumnText
  heap : Nat → UInt8

/-- The columns of an entry whose texts are words. -/
def Entry.typed (entry : Entry) : List Column :=
  entry.columns.map ColumnText.column

/-- The loop of `main`, given what `k` holds: rows are entered and put in the tree. -/
def session (libc : Libc) : (k : Option CString) → TreeMap → List Entry → Option TreeMap
  | _, tree, [] => some tree
  | k, tree, entry :: entries => do
      let k ← scanWord 90 entry.key k
      let columns ← scanColumns none none none entry.columns
      let row ← rowInput libc columns
      let tree ← treePut entry.heap tree k row
      session libc (some k) tree entries

/-- The texts of a column are words. -/
def ColumnText.Words (text : ColumnText) : Prop :=
  text.dt.IsWord 7 ∧ text.cellname.IsWord 254 ∧ text.dataVal.IsWord 254

/-- A row that one byte can count, whose numbers are typed as they are printed; the last one may
be longer. -/
structure Kept (libc : Libc) (columns : List Column) : Prop where
  nonempty : columns ≠ []
  few : columns.length ≤ 255
  typed : ∀ column ∈ columns, column.Typed
  fits : ∀ column ∈ columns, (column.printed libc).length ≤ column.dataVal.length
  same : ∀ column ∈ columns.dropLast, (column.printed libc).length = column.dataVal.length

/-- An entry of words, without blanks and short enough for the arrays they are read into, whose
row is kept. -/
structure Entry.Kept (libc : Libc) (entry : Entry) : Prop where
  key : entry.key.IsWord 90
  words : ∀ text ∈ entry.columns, text.Words
  row : PocketDB.Kept libc entry.typed

/-- The columns that were typed last for a key. -/
def lastTyped : List Entry → CString → Option (List Column)
  | [], _ => none
  | entry :: entries, key =>
      (lastTyped entries key).or (if entry.key = key then some entry.typed else none)

/-- A column as it was typed. -/
def displayColumn (libc : Libc) (column : Column) : List UInt8 :=
  displayLine (if column.dt = 73 then 1 else 4) column.cellname (column.printed libc).bytes

/-- The text of the columns typed for a key. -/
def displayTyped (libc : Libc) (key : CString) (columns : List Column) : List UInt8 :=
  ascii "\n\nKey : " ++ padRight 8 key.bytes ++ columns.flatMap (displayColumn libc)

/-- What is stored is printed as columns were typed. -/
def Shows (libc : Libc) (value : CString) (columns : List Column) : Prop :=
  ∃ row, dataExpand libc value = some row ∧
    ∀ key, displayTreemapNode key row = displayTyped libc key columns

/-- Cells with the same data are printed in the same way. -/
theorem displayCell_congr {cell other : Cell libc} (same : cell.data = other.data) :
    displayCell cell = displayCell other := by
  obtain ⟨dt, rest⟩ := Prod.mk.inj same
  obtain ⟨name, val⟩ := Prod.mk.inj rest
  rw [displayCell, displayCell, dt, name, val]

/-- Rows with the same data are printed in the same way. -/
theorem flatMap_displayCell {row other : Row libc}
    (same : row.map Cell.data = other.map Cell.data) :
    row.flatMap displayCell = other.flatMap displayCell := by
  induction row generalizing other with
  | nil =>
      cases other with
      | nil => rfl
      | cons cell other => cases same
  | cons cell row ih =>
      cases other with
      | nil => cases same
      | cons cell' other =>
          obtain ⟨first, rest⟩ := List.cons.inj same
          rw [List.flatMap_cons, List.flatMap_cons, displayCell_congr first, ih rest]

/-- The cell of a column is printed as the column was typed. -/
theorem displayCell_newCell {column : Column} {cell : Cell libc} (typed : column.Typed)
    (made : newCell libc column = some cell) : displayCell cell = displayColumn libc column := by
  rcases typed.letter with int | string
  · rw [newCell, if_pos int] at made
    cases made
    rw [displayColumn, Column.printed, if_pos int, if_pos int]
    rfl
  · have notInt : column.dt ≠ 73 := by rw [string]; decide
    have notFloat : column.dt ≠ 70 := by rw [string]; decide
    rw [newCell, if_neg notInt, if_neg notFloat, if_pos string] at made
    cases made
    rw [displayColumn, Column.printed, if_neg notInt, if_neg notInt]
    rfl

/-- The row of some columns is printed as they were typed. -/
theorem displayCell_rowInput {columns : List Column} {row : Row libc}
    (typed : ∀ column ∈ columns, column.Typed) (entered : rowInput libc columns = some row) :
    row.flatMap displayCell = columns.flatMap (displayColumn libc) := by
  rw [rowInput_eq_mapM] at entered
  induction columns generalizing row with
  | nil =>
      cases entered
      rfl
  | cons column columns ih =>
      rw [List.mapM_cons] at entered
      obtain ⟨cell, made, rest⟩ := Option.bind_eq_some_iff.mp entered
      obtain ⟨cells, others, whole⟩ := Option.bind_eq_some_iff.mp rest
      cases whole
      obtain ⟨first, later⟩ := List.forall_mem_cons.mp typed
      rw [List.flatMap_cons, List.flatMap_cons, displayCell_newCell first made, ih later others]

/-- **One row.** What is stored for a row that is kept is printed as it was typed. -/
theorem Kept.shows {columns : List Column} (kept : Kept libc columns) (key : CString)
    (heap : Nat → UInt8) :
    ∃ row value, rowInput libc columns = some row ∧
      (⟨key, row, heap⟩ : PutCall libc).stored = some value ∧ Shows libc value columns := by
  obtain ⟨row, entered, related⟩ := rowInput_typed libc kept.typed
  have length := related.length_eq
  have few := kept.few
  have cells : ∀ cell ∈ row, cell.Entered := by
    intro cell member
    obtain ⟨index, bound, rfl⟩ := List.getElem_of_mem member
    exact (related.get (by omega) bound).1
  have nonempty : row ≠ [] := by
    have positive := List.length_pos_iff.mpr kept.nonempty
    exact List.length_pos_iff.mp (by omega)
  obtain ⟨value, stored, bytes⟩ := strdup_dataCompact heap nonempty
    (fun cell member => (cells cell member).1.laid) (by omega)
  have expanded := dataExpand_of_bytes value (by omega) bytes
  rw [← List.singleton_append] at bytes
  obtain ⟨shown, read, data⟩ := (expandLoop_image_iff value bytes cells).mpr
    ((lengths_iff related).mpr ⟨kept.fits, kept.same⟩)
  refine ⟨row, value, entered, stored, shown, expanded.trans read, fun key => ?_⟩
  rw [displayTreemapNode, displayTyped, flatMap_displayCell data,
    displayCell_rowInput kept.typed entered]

/-- Words are read as they are. -/
theorem scanColumns_words {texts : List ColumnText} (words : ∀ text ∈ texts, text.Words)
    (dt cellname dataVal : Option CString) :
    scanColumns dt cellname dataVal texts = some (texts.map ColumnText.column) := by
  induction texts generalizing dt cellname dataVal with
  | nil => rfl
  | cons text texts ih =>
      obtain ⟨⟨letter, name, value⟩, later⟩ := List.forall_mem_cons.mp words
      rw [scanColumns, scanWord_of_isWord letter, scanWord_of_isWord name,
        scanWord_of_isWord value]
      simp only [Option.bind_eq_bind, Option.bind_some, ih later]
      rfl

/-- **A session is a run of puts** that keeps, for every key, what was typed for it last. -/
theorem session_spec {entries : List Entry} (kept : ∀ entry ∈ entries, entry.Kept libc)
    (k : Option CString) (tree : TreeMap) :
    ∃ (calls : List (PutCall libc)) (final : TreeMap), session libc k tree entries = some final ∧
      treePuts tree calls = some final ∧
      ∀ key, Option.Rel (Shows libc) (latest calls key) (lastTyped entries key) := by
  induction entries generalizing k tree with
  | nil => exact ⟨[], tree, rfl, rfl, fun key => .none⟩
  | cons entry entries ih =>
      obtain ⟨first, later⟩ := List.forall_mem_cons.mp kept
      obtain ⟨row, value, entered, stored, shows⟩ := first.row.shows entry.key entry.heap
      have put := treePut_eq (⟨entry.key, row, entry.heap⟩ : PutCall libc) tree
      rw [stored, Option.map_some] at put
      obtain ⟨calls, final, went, puts, related⟩ := ih later (some entry.key)
        ⟨tree.size + 1, tree.root.insert entry.key value⟩
      refine ⟨⟨entry.key, row, entry.heap⟩ :: calls, final, ?_, ?_, fun key => ?_⟩
      · rw [session, scanWord_of_isWord first.key, scanColumns_words first.words]
        simp only [Option.bind_eq_bind, Option.bind_some]
        rw [← Entry.typed, entered]
        change (treePut entry.heap tree entry.key row).bind _ = _
        rw [put]
        exact went
      · rw [treePuts]
        change (treePut entry.heap tree entry.key row).bind _ = _
        rw [put]
        exact puts
      · rw [latest, lastTyped, stored]
        have before : Option.Rel (Shows libc) (if entry.key = key then some value else none)
            (if entry.key = key then some entry.typed else none) := by
          split_ifs
          · exact .some shows
          · exact .none
        have behind := related key
        generalize latest calls key = last at *
        generalize lastTyped entries key = typed at *
        cases behind with
        | none => exact before
        | some shown => exact .some shown

/-- What is listed is printed as it was typed last. -/
theorem mapM_displays {entries : List Entry} {listed : List (CString × CString)}
    (each : ∀ stored ∈ listed, ∃ columns, lastTyped entries stored.1 = some columns ∧
      Shows libc stored.2 columns) :
    ((listed.map fun stored => (⟨stored.1, dataExpand libc stored.2⟩ : Display libc)).mapM
        fun display => display.row.map (displayTreemapNode display.key)) =
      some (listed.map fun stored =>
        displayTyped libc stored.1 ((lastTyped entries stored.1).getD [])) := by
  induction listed with
  | nil => rfl
  | cons stored listed ih =>
      obtain ⟨⟨columns, typed, row, read, same⟩, others⟩ := List.forall_mem_cons.mp each
      rw [List.map_cons, List.mapM_cons, ih others, read, List.map_cons, typed]
      simp only [Option.map_some, same, Option.getD_some]
      rfl

/-- **What was typed is printed.** After any session whose keys and columns are words and whose rows
are kept, `tree_get_all` prints the keys that were put, each once and in strictly ascending order,
with the columns that were typed for it last. -/
theorem session_prints_typed {entries : List Entry}
    (kept : ∀ entry ∈ entries, entry.Kept libc) :
    ∃ (tree : TreeMap) (listing : List (CString × List Column)),
      session libc none newTreeMap entries = some tree ∧
      printAll libc tree.root =
        some (listing.flatMap fun line => displayTyped libc line.1 line.2) ∧
      (listing.map Prod.fst).Pairwise (fun earlier later => strcmp earlier later < 0) ∧
      ∀ key columns, (key, columns) ∈ listing ↔ lastTyped entries key = some columns := by
  obtain ⟨calls, tree, went, puts, related⟩ := session_spec kept none newTreeMap
  have shown : ∀ entry ∈ tree.root.entries, ∃ columns, lastTyped entries entry.1 = some columns ∧
      Shows libc entry.2 columns := by
    rintro ⟨key, value⟩ member
    have last := (treePuts_mem_entries puts key value).mp member
    have both := related key
    rw [last] at both
    cases typed : lastTyped entries key with
    | none =>
        rw [typed] at both
        cases both
    | some columns =>
        rw [typed] at both
        cases both with
        | some shows => exact ⟨columns, rfl, shows⟩
  refine ⟨tree, tree.root.entries.map fun entry => (entry.1, (lastTyped entries entry.1).getD []),
    went, ?_, ?_, fun key columns => ?_⟩
  · rw [printAll, treeGetAll_eq, mapM_displays shown, Option.map_some, List.flatMap_def,
      List.map_map]
    rfl
  · rw [List.map_map]
    exact treePuts_keys_pairwise puts
  · constructor
    · intro member
      obtain ⟨⟨key', value⟩, inside, same⟩ := List.mem_map.mp member
      obtain ⟨columns', typed, -⟩ := shown _ inside
      cases same
      exact typed.trans (by rw [typed]; rfl)
    · intro typed
      have both := related key
      rw [typed] at both
      cases last : latest calls key with
      | none =>
          rw [last] at both
          cases both
      | some value =>
          refine List.mem_map.mpr
            ⟨(key, value), (treePuts_mem_entries puts key value).mpr last, ?_⟩
          rw [typed]
          rfl

/-- The texts `S BRANCH OSS` and `I ROLL 89` of the sample run. -/
def sampleTexts : List ColumnText :=
  sampleColumns.map fun column => ⟨.ofBytes [column.dt], column.cellname, column.dataVal⟩

/-- The row of the sample run, under two keys and once more under the first. -/
theorem session_prints_typed_sample :
    ∃ (tree : TreeMap) (listing : List (CString × List Column)),
      session integerLibc none newTreeMap [⟨key15, sampleTexts, fun _ => 255⟩,
        ⟨key12, sampleTexts, fun _ => 0⟩, ⟨key15, sampleTexts, fun _ => 7⟩] = some tree ∧
      printAll integerLibc tree.root =
        some (listing.flatMap fun line => displayTyped integerLibc line.1 line.2) ∧
      (key15, sampleColumns) ∈ listing := by
  have row : Kept integerLibc sampleColumns :=
    ⟨by decide, by decide, sampleColumns_typed, by decide, by decide⟩
  have words : ∀ text ∈ sampleTexts, text.Words := by
    simp only [sampleTexts, sampleColumns, ColumnText.Words, CString.IsWord]
    decide
  have all : ∀ entry ∈ [(⟨key15, sampleTexts, fun _ => 255⟩ : Entry),
      ⟨key12, sampleTexts, fun _ => 0⟩, ⟨key15, sampleTexts, fun _ => 7⟩],
      entry.Kept integerLibc := by
    have first : key15.IsWord 90 := ⟨by decide, by decide, by decide⟩
    have second : key12.IsWord 90 := ⟨by decide, by decide, by decide⟩
    intro entry member
    simp only [List.mem_cons, List.not_mem_nil, or_false] at member
    rcases member with rfl | rfl | rfl
    · exact ⟨first, words, row⟩
    · exact ⟨second, words, row⟩
    · exact ⟨first, words, row⟩
  obtain ⟨tree, listing, went, printed, -, member⟩ := session_prints_typed all
  exact ⟨tree, listing, went, printed, (member key15 sampleColumns).mpr (by decide)⟩

end CPrograms.PocketDB
