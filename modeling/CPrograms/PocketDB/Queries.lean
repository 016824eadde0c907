import CPrograms.PocketDB.TreeMap

/-!
# What pocketDB answers

The three ways out of the store, judged against what was put in. `get_node` finds
a key only at the root, since its recursive branches return nothing. The row shown
for a key is the row entered when every number was spelled the way it is printed
and one byte can count the columns. `tree_get_in_range` misses the keys that lie
below a key outside the range.
-/

namespace CPrograms.PocketDB

open Library

variable {libc : Libc}

/-! ## Single keys -/

/-- The store answers for a key as a map would: with the node of its last put, and
with the null pointer for a key never put. -/
structure AnswersAsMap (calls : List (PutCall libc)) (tree : TreeMap) (key : CString) : Prop where
  put : key ∈ calls.map PutCall.key → ∃ value leftChild rightChild,
    latest calls key = some value ∧
      getNode key tree.root = .returned (.node leftChild key value rightChild) ∧
      treeGet libc tree key = .returned (1, .entry key (dataExpand libc value))
  never : key ∉ calls.map PutCall.key →
    getNode key tree.root = .returned .nil ∧
      treeGet libc tree key = .returned (-1, .notInTreemap key)

/-- The key of the root is found. -/
theorem getNode_root (leftChild rightChild : Node) (key value : CString) :
    getNode key (.node leftChild key value rightChild) =
      .returned (.node leftChild key value rightChild) := by
  rw [getNode, if_pos ((strcmp_eq_zero_iff key key).mpr rfl)]

/-- Below the root every branch of `get_node` ends without a value. -/
theorem getNode_below (leftChild rightChild : Node) {key rootKey : CString} (value : CString)
    (different : key ≠ rootKey) :
    getNode key (.node leftChild rootKey value rightChild) = .missing := by
  rw [getNode, if_neg (mt (strcmp_eq_zero_iff key rootKey).mp different)]
  split <;> rfl

/-- **Which keys can be looked up.** After any run of puts the store answers for a
key as a map would exactly when nothing was put or the key was put first. -/
theorem answersAsMap_iff (calls : List (PutCall libc)) (tree : TreeMap)
    (run : treePuts newTreeMap calls = some tree) (key : CString) :
    AnswersAsMap calls tree key ↔ ∀ first ∈ calls.head?, first.key = key := by
  have rooted := treePuts_rootKey? run
  have found := treePuts_lookup run key
  rw [show rootKey? newTreeMap.root = none from rfl, Option.none_or] at rooted
  cases calls with
  | nil =>
      cases Option.some.inj run
      refine iff_of_true ⟨?_, ?_⟩ ?_
      · exact fun member => absurd member List.not_mem_nil
      · exact fun _ => ⟨rfl, rfl⟩
      · exact fun first head => absurd head (by simp)
  | cons call calls =>
      obtain ⟨size, root⟩ := tree
      cases root with
      | nil => exact absurd rooted (by simp [rootKey?])
      | node leftChild rootKey value rightChild =>
          have rootEq : rootKey = call.key := by simpa [rootKey?] using rooted
          subst rootEq
          simp only [List.head?_cons, Option.mem_def, Option.some.injEq, forall_eq']
          by_cases same : call.key = key
          · subst same
            rw [SearchTree.lookup, if_pos rfl] at found
            refine iff_of_true ⟨fun _ => ?_, ?_⟩ rfl
            · refine ⟨value, leftChild, rightChild, found.symm, getNode_root .., ?_⟩
              simp only [treeGet, getNode_root]
            · exact fun absent => absurd List.mem_cons_self absent
          · refine iff_of_false ?_ same
            intro answers
            have lost := getNode_below leftChild rightChild value (Ne.symm same)
            by_cases member : key ∈ (call :: calls).map PutCall.key
            · obtain ⟨_, _, _, -, answer, -⟩ := answers.put member
              rw [lost] at answer
              exact absurd answer (by simp)
            · have answer := (answers.never member).1
              rw [lost] at answer
              exact absurd answer (by simp)

/-- The keys `"15"` and `"12"` of the sample run. -/
def key15 : CString := ⟨[49, 53], by decide⟩

/-- See `key15`. -/
def key12 : CString := ⟨[49, 50], by decide⟩

/-- Two puts of the sample row, as `main` makes its first two. -/
def samplePuts : List (PutCall integerLibc) :=
  [⟨key15, sampleRow, fun _ => 255⟩, ⟨key12, sampleRow, fun _ => 255⟩]

/-- The bytes kept of the sample row. -/
def sampleBytes : CString :=
  ⟨[2, 4, 6, 66, 82, 65, 78, 67, 72, 3, 79, 83, 83,
    1, 4, 82, 79, 76, 76, 11, 45, 50, 49, 52, 55, 52, 56, 51, 54, 52, 56], by decide⟩

/-- The tree after the two puts. -/
def sampleTree : TreeMap :=
  ⟨2, .node (.node .nil key12 sampleBytes .nil) key15 sampleBytes .nil⟩

/-- The run of the sample puts. -/
theorem samplePuts_run : treePuts newTreeMap samplePuts = some sampleTree := by
  decide

/-- The first key of the sample run can be looked up. -/
theorem samplePuts_key15_found :
    treePuts newTreeMap samplePuts = some sampleTree ∧
      AnswersAsMap samplePuts sampleTree key15 :=
  ⟨samplePuts_run, (answersAsMap_iff samplePuts sampleTree samplePuts_run key15).mpr (by
    intro first head
    cases Option.some.inj head
    rfl)⟩

/-- The second key of the sample run is in the tree and cannot be looked up. -/
theorem samplePuts_key12_lost :
    treePuts newTreeMap samplePuts = some sampleTree ∧
      ¬ AnswersAsMap samplePuts sampleTree key12 := by
  refine ⟨samplePuts_run, fun answers => ?_⟩
  obtain ⟨_, _, _, -, answer, -⟩ := answers.put (by decide)
  rw [sampleTree, getNode_below _ _ _ (by decide)] at answer
  exact absurd answer (by simp)

/-! ## The row shown for a key -/

/-- A column of type `I` or `S` whose name and value have 1 to 253 bytes, as a word has that was
read into an array of `MAXLIMIT` bytes. -/
structure Column.Typed (column : Column) : Prop where
  letter : column.dt = 73 ∨ column.dt = 83
  nameLen : 1 ≤ column.cellname.length ∧ column.cellname.length ≤ 253
  valLen : 1 ≤ column.dataVal.length ∧ column.dataVal.length ≤ 253

/-- The text `data_compact` prints for the value of a column. -/
def Column.printed (libc : Libc) (column : Column) : CString :=
  if column.dt = 73 then printD (atoi libc column.dataVal) else column.dataVal

private theorem toNat_ofNat_length {s : CString} (short : s.length ≤ 253) :
    (UInt8.ofNat s.length).toNat = s.length :=
  UInt8.toNat_ofNat_of_lt (by simp only [UInt8.size]; omega)

/-- The cell built from a typed column: its text is the printed value, and its
length byte comes from the word that was typed. -/
theorem newCell_typed (libc : Libc) {column : Column} (typed : column.Typed) :
    ∃ cell, newCell libc column = some cell ∧ cell.Entered ∧
      cell.text = (column.printed libc).bytes ∧ cell.valLen.toNat = column.dataVal.length := by
  have nameEq := toNat_ofNat_length typed.nameLen.2
  have valEq := toNat_ofNat_length typed.valLen.2
  rcases typed.letter with int | string
  · refine ⟨_, by rw [newCell, if_pos int], ⟨⟨.inl ⟨_, rfl⟩, nameEq, ?_, ?_⟩, ?_⟩, ?_, valEq⟩
    · simpa only [nameEq] using typed.nameLen
    · simpa only [valEq] using typed.valLen
    · exact fun sval kind => absurd kind (by simp)
    · rw [Column.printed, if_pos int]
      rfl
  · have notInt : column.dt ≠ 73 := by rw [string]; decide
    have notFloat : column.dt ≠ 70 := by rw [string]; decide
    refine ⟨_, by rw [newCell, if_neg notInt, if_neg notFloat, if_pos string],
      ⟨⟨.inr ⟨_, rfl⟩, nameEq, ?_, ?_⟩, ?_⟩, ?_, valEq⟩
    · simpa only [nameEq] using typed.nameLen
    · simpa only [valEq] using typed.valLen
    · exact fun sval _ => valEq.symm
    · rw [Column.printed, if_neg notInt]
      rfl

private theorem rowInputLoop_acc (libc : Libc) (columns : List Column) (acc : Row libc) :
    rowInputLoop libc columns acc = (columns.mapM (newCell libc)).map (acc ++ ·) := by
  induction columns generalizing acc with
  | nil => simp [rowInputLoop]
  | cons column columns ih =>
      rw [rowInputLoop, List.mapM_cons]
      cases newCell libc column with
      | none => rfl
      | some cell =>
          simp only [Option.bind_eq_bind, Option.bind_some, linkedList_eq_append, ih]
          cases columns.mapM (newCell libc) <;> simp

/-- `row_input` makes one cell of each column, in order. -/
theorem rowInput_eq_mapM (libc : Libc) (columns : List Column) :
    rowInput libc columns = columns.mapM (newCell libc) := by
  rw [rowInput, rowInputLoop_acc]
  cases columns.mapM (newCell libc) <;> simp

/-- The row entered by typed columns, cell by cell. -/
theorem rowInput_typed (libc : Libc) {columns : List Column}
    (typed : ∀ column ∈ columns, column.Typed) :
    ∃ row, rowInput libc columns = some row ∧
      List.Forall₂ (fun column cell => cell.Entered ∧
        cell.text = (column.printed libc).bytes ∧
        cell.valLen.toNat = column.dataVal.length) columns row := by
  rw [rowInput_eq_mapM]
  induction columns with
  | nil => exact ⟨[], rfl, .nil⟩
  | cons column columns ih =>
      obtain ⟨cell, built, facts⟩ := newCell_typed libc (typed column List.mem_cons_self)
      obtain ⟨row, rest, related⟩ := ih fun other member => typed other
        (List.mem_cons_of_mem _ member)
      refine ⟨cell :: row, ?_, .cons facts related⟩
      rw [List.mapM_cons, built, Option.bind_eq_bind, Option.bind_some, rest]
      rfl

/-- The lengths of the cells are those of the columns. -/
theorem lengths_iff {columns : List Column} {row : Row libc}
    (related : List.Forall₂ (fun column cell => cell.Entered ∧
      cell.text = (column.printed libc).bytes ∧
      cell.valLen.toNat = column.dataVal.length) columns row) :
    ((∀ cell ∈ row, cell.text.length ≤ cell.valLen.toNat) ∧
        ∀ cell ∈ row.dropLast, cell.text.length = cell.valLen.toNat) ↔
      (∀ column ∈ columns, (column.printed libc).length ≤ column.dataVal.length) ∧
        ∀ column ∈ columns.dropLast,
          (column.printed libc).length = column.dataVal.length := by
  induction related with
  | nil => simp
  | @cons column cell columns row facts related ih =>
      obtain ⟨-, text, valLen⟩ := facts
      have same : cell.text.length = (column.printed libc).length := by rw [text]; rfl
      by_cases last : row = []
      · subst last
        cases related
        simp [same, valLen]
      · have more : columns ≠ [] := by
          rintro rfl
          cases related
          exact last rfl
        rw [List.dropLast_cons_of_ne_nil last, List.dropLast_cons_of_ne_nil more]
        simp only [List.forall_mem_cons, same, valLen]
        constructor
        · rintro ⟨⟨fits, allFit⟩, exactLen, allExact⟩
          obtain ⟨left, right⟩ := ih.mp ⟨allFit, allExact⟩
          exact ⟨⟨fits, left⟩, exactLen, right⟩
        · rintro ⟨⟨fits, allFit⟩, exactLen, allExact⟩
          obtain ⟨left, right⟩ := ih.mpr ⟨allFit, allExact⟩
          exact ⟨⟨fits, left⟩, exactLen, right⟩

/-- **Which rows are shown as they were entered.** The row expanded for a key after
it was put has the cells that were entered exactly when one byte can count them, no
number is printed longer than it was typed, and none but the last cell's is printed
shorter. -/
theorem shownRow_iff (heap : Nat → UInt8) (tree : TreeMap) (key : CString)
    (columns : List Column) (nonempty : columns ≠ [])
    (typed : ∀ column ∈ columns, column.Typed) :
    (∃ row final value shown, rowInput libc columns = some row ∧
        treePut heap tree key row = some final ∧ final.root.lookup key = some value ∧
        dataExpand libc value = some shown ∧ shown.map Cell.data = row.map Cell.data) ↔
      columns.length ≤ 255 ∧
        (∀ column ∈ columns, (column.printed libc).length ≤ column.dataVal.length) ∧
        ∀ column ∈ columns.dropLast,
          (column.printed libc).length = column.dataVal.length := by
  obtain ⟨row, entered, related⟩ := rowInput_typed libc typed
  have length := related.length_eq
  have cells : ∀ cell ∈ row, cell.Entered := by
    intro cell member
    obtain ⟨index, bound, rfl⟩ := List.getElem_of_mem member
    exact (related.get (by omega) bound).1
  by_cases few : columns.length ≤ 255
  · have rowNonempty : row ≠ [] := by
      rw [← List.length_pos_iff] at nonempty ⊢
      omega
    obtain ⟨kept, stored, bytes⟩ := strdup_dataCompact heap rowNonempty
      (fun cell member => (cells cell member).1.laid) (by omega)
    have put := treePut_eq (⟨key, row, heap⟩ : PutCall libc) tree
    simp only [PutCall.stored, stored, Option.map_some] at put
    have fewCells : row.length ≤ 255 := by omega
    have expanded := dataExpand_of_bytes kept fewCells bytes
    rw [← List.singleton_append] at bytes
    have survives := expandLoop_image_iff kept bytes cells
    rw [List.length_singleton, ← expanded, lengths_iff related] at survives
    simp only [few, true_and, ← survives]
    constructor
    · rintro ⟨row', final, value, shown, entered', put', found, read, data⟩
      cases Option.some.inj (entered.symm.trans entered')
      cases Option.some.inj (put.symm.trans put')
      cases Option.some.inj ((SearchTree.lookup_insert_self ..).symm.trans found)
      exact ⟨shown, read, data⟩
    · rintro ⟨shown, read, data⟩
      exact ⟨row, _, kept, shown, entered, put, SearchTree.lookup_insert_self .., read, data⟩
  · refine iff_of_false ?_ (fun all => few all.1)
    rintro ⟨row', final, value, shown, entered', -, -, read, data⟩
    cases Option.some.inj (entered.symm.trans entered')
    have counted := length_dataExpand_le value read
    have same := congrArg List.length data
    rw [List.length_map, List.length_map] at same
    omega

/-- The columns `S BRANCH OSS` and `I ROLL 89` of the sample run. -/
def sampleColumns : List Column :=
  [⟨83, branch, oss⟩, ⟨73, roll, ⟨[56, 57], by decide⟩⟩]

/-- The columns `I ROLL 007` and `S NAME AJAY`. -/
def paddedColumns : List Column :=
  [⟨73, roll, ⟨[48, 48, 55], by decide⟩⟩,
    ⟨83, ⟨[78, 65, 77, 69], by decide⟩, ⟨[65, 74, 65, 89], by decide⟩⟩]

/-- The columns of the sample run are typed. -/
theorem sampleColumns_typed : ∀ column ∈ sampleColumns, column.Typed := by
  intro column member
  simp only [sampleColumns, List.mem_cons, List.not_mem_nil, or_false] at member
  rcases member with rfl | rfl <;> exact ⟨by decide, by decide, by decide⟩

/-- The columns with a padded number are typed. -/
theorem paddedColumns_typed : ∀ column ∈ paddedColumns, column.Typed := by
  intro column member
  simp only [paddedColumns, List.mem_cons, List.not_mem_nil, or_false] at member
  rcases member with rfl | rfl <;> exact ⟨by decide, by decide, by decide⟩

/-- The columns of the sample run are shown as they were entered. -/
theorem sampleColumns_shown :
    ∃ row final value shown, rowInput integerLibc sampleColumns = some row ∧
      treePut (fun _ => 255) newTreeMap key15 row = some final ∧
      final.root.lookup key15 = some value ∧
      dataExpand integerLibc value = some shown ∧ shown.map Cell.data = row.map Cell.data :=
  (shownRow_iff _ newTreeMap key15 sampleColumns (by decide) sampleColumns_typed).mpr
    ⟨by decide, by decide, by decide⟩

/-- A number typed with leading zeros takes the cells behind it with it. -/
theorem paddedColumns_lost :
    (∀ column ∈ paddedColumns, column.Typed) ∧
      ¬ ∃ row final value shown, rowInput integerLibc paddedColumns = some row ∧
        treePut (fun _ => 255) newTreeMap key15 row = some final ∧
        final.root.lookup key15 = some value ∧
        dataExpand integerLibc value = some shown ∧ shown.map Cell.data = row.map Cell.data := by
  refine ⟨paddedColumns_typed, ?_⟩
  rintro ⟨row, final, value, shown, entered, put, found, read, -⟩
  have undefined : ((rowInput integerLibc paddedColumns).bind fun row =>
      (treePut (fun _ => 255) newTreeMap key15 row).bind fun final =>
        (final.root.lookup key15).bind (dataExpand integerLibc)).isNone = true := by decide
  rw [entered, Option.bind_some, put, Option.bind_some, found, Option.bind_some, read] at undefined
  exact absurd undefined (by simp)

/-! ## Ranges of keys -/

/-- The display calls of `tree_get_in_range` are those of `tree_get_all` for the keys
of the range, in strictly ascending order. -/
structure ShowsRange (libc : Libc) (root : Node) (firstKey lastKey : CString) : Prop where
  complete : treeGetInRange libc firstKey lastKey root =
    (treeGetAll libc root).filter fun display => inRange firstKey lastKey display.key
  ascending : ((treeGetInRange libc firstKey lastKey root).map Display.key).Pairwise
    fun earlier later => strcmp earlier later < 0

private theorem map_eq_map_iff_of_sublist {α β : Type*} (f : α → β) {short long : List α}
    (sublist : short.Sublist long) : short.map f = long.map f ↔ short = long := by
  constructor
  · intro same
    exact sublist.eq_of_length (by simpa using congrArg List.length same)
  · rintro rfl
    rfl

/-- **Which ranges are shown whole.** In the tree of any run of puts the range query
shows exactly the entries of its range, in order, when and only when every key above
a key of the range is in the range too. -/
theorem showsRange_iff (calls : List (PutCall libc)) (tree : TreeMap)
    (run : treePuts newTreeMap calls = some tree) (firstKey lastKey : CString) :
    ShowsRange libc tree.root firstKey lastKey ↔
      ∀ above below, tree.root.Above above below →
        inRange firstKey lastKey below = true → inRange firstKey lastKey above = true := by
  have passing : (treeGetAll libc tree.root).filter
      (fun display => inRange firstKey lastKey display.key) =
      (tree.root.passing (inRange firstKey lastKey)).map fun entry =>
        ⟨entry.1, dataExpand libc entry.2⟩ := by
    rw [treeGetAll_eq, List.filter_map]
    rfl
  have complete : treeGetInRange libc firstKey lastKey tree.root =
      (treeGetAll libc tree.root).filter (fun display => inRange firstKey lastKey display.key) ↔
      tree.root.visit (inRange firstKey lastKey) =
        tree.root.passing (inRange firstKey lastKey) := by
    rw [passing, treeGetInRange_eq,
      map_eq_map_iff_of_sublist _ (SearchTree.visit_sublist_passing tree.root)]
  rw [← SearchTree.visit_eq_passing_iff, ← complete]
  refine ⟨ShowsRange.complete, fun shows => ⟨shows, ?_⟩⟩
  -- What is visited is a sublist of the ordered keys.
  have visited : ((tree.root.visit (inRange firstKey lastKey)).map Prod.fst).Sublist
      tree.root.keys :=
    ((SearchTree.visit_sublist_passing tree.root).trans List.filter_sublist).map Prod.fst
  rw [treeGetInRange_eq, List.map_map]
  refine ((treePuts_ordered run).keys_pairwise.sublist visited).imp ?_
  intro earlier later less
  exact (strcmp_neg_iff earlier later).mpr less

/-- The keys `"10"` and `"13"`. -/
def key10 : CString := ⟨[49, 48], by decide⟩

/-- See `key10`. -/
def key13 : CString := ⟨[49, 51], by decide⟩

/-- A range that ends at the root is shown. -/
theorem samplePuts_rangeTo15_shown :
    treePuts newTreeMap samplePuts = some sampleTree ∧
      ShowsRange integerLibc sampleTree.root key10 key15 :=
  ⟨samplePuts_run, (showsRange_iff samplePuts sampleTree samplePuts_run key10 key15).mpr (by
    intro above below higher _
    rcases (SearchTree.Above.mem_keys higher).1 with inside
    simp only [sampleTree, SearchTree.keys_node, SearchTree.keys_nil, List.nil_append,
      List.mem_append, List.mem_cons, List.not_mem_nil, or_false] at inside
    rcases inside with rfl | rfl <;> decide)⟩

/-- The range from `"10"` to `"13"` leaves out the root, and with it the key below. -/
theorem samplePuts_rangeTo13_empty :
    treePuts newTreeMap samplePuts = some sampleTree ∧
      ¬ ShowsRange integerLibc sampleTree.root key10 key13 := by
  refine ⟨samplePuts_run, fun shows => ?_⟩
  have lengths := congrArg List.length shows.complete
  exact absurd lengths (by decide)

end CPrograms.PocketDB
