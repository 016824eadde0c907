import CPrograms.Library.CString

/-!
# Rows of cells and their byte form

The cells of `input.h`, the way `row_input` builds them, and the two directions
of the codec: `data_compact` lays a row down byte by byte in a heap block, and
`data_expand` reads it back from the NUL-terminated copy the tree keeps.

Reads outside that copy, and a terminator outside `temp_array`, are undefined in
C; here they make `dataExpand` return `none`. Stores are kept apart from the
block they should stay in: `dataCompact` returns the memory after all of them.
-/

namespace CPrograms.PocketDB

open Library

variable {libc : Libc}

/-- The union of a cell with the type code that selects its member. A code that is
none of the three selects nothing; only `data_expand` can produce such a cell. -/
inductive CellValue (libc : Libc) where
  | INT (ival : Int32)
  | FLOAT (fval : libc.Double)
  | STRING (sval : CString)
  | unset (code : UInt8) (other : code ≠ 1 ∧ code ≠ 2 ∧ code ≠ 4)

/-- The type code of a value, as the enumeration of `input.h` has it. -/
def CellValue.dt : CellValue libc → UInt8
  | INT _ => 1
  | FLOAT _ => 2
  | STRING _ => 4
  | unset code _ => code

/-- The text `data_compact` prints for a value; it prints none for an unset one. -/
def CellValue.text? (libc : Libc) : CellValue libc → Option CString
  | INT ival => some (printD ival)
  | FLOAT fval => some (libc.printF fval)
  | STRING sval => some sval
  | unset _ _ => none

/-- One cell of a row. -/
structure Cell (libc : Libc) where
  cellNameLen : UInt8
  cellName : CString
  valLen : UInt8
  val : CellValue libc

/-- The type code of a cell. -/
def Cell.dt (cell : Cell libc) : UInt8 :=
  cell.val.dt

/-- A row, first cell first; the empty list is the null pointer. -/
abbrev Row (libc : Libc) := List (Cell libc)

/-- Unsigned 32-bit arithmetic. -/
def u32 (n : Nat) : Nat :=
  n % 2 ^ 32

/-- Walk to the last cell and hang the new one behind it. -/
def linkedList : Row libc → Cell libc → Row libc
  | [], newCell => [newCell]
  | cell :: rest, newCell => cell :: linkedList rest newCell

/-- The new cell is the last one. -/
@[simp] theorem linkedList_eq_append (row : Row libc) (newCell : Cell libc) :
    linkedList row newCell = row ++ [newCell] := by
  induction row with
  | nil => rfl
  | cons cell rest ih => rw [linkedList, ih]; rfl

/-- The three words typed for a column. -/
structure Column where
  /-- The first character of the data type. -/
  dt : UInt8
  cellname : CString
  dataVal : CString
  deriving DecidableEq

/-- The cell `row_input` builds from a column; on any other type letter it exits. -/
def newCell (libc : Libc) (column : Column) : Option (Cell libc) :=
  let cell (val : CellValue libc) : Cell libc :=
    { cellNameLen := UInt8.ofNat column.cellname.length
      cellName := column.cellname
      valLen := UInt8.ofNat column.dataVal.length
      val }
  if column.dt = 73 then some (cell (.INT (atoi libc column.dataVal)))
  else if column.dt = 70 then some (cell (.FLOAT (libc.atof column.dataVal)))
  else if column.dt = 83 then some (cell (.STRING column.dataVal))
  else none

/-- The loop of `row_input` over the columns. -/
def rowInputLoop (libc : Libc) : List Column → Row libc → Option (Row libc)
  | [], firstCell => some firstCell
  | column :: columns, firstCell => do
      let cell ← newCell libc column
      rowInputLoop libc columns (linkedList firstCell cell)

/-- The row `row_input` returns for the typed columns. -/
def rowInput (libc : Libc) (columns : List Column) : Option (Row libc) :=
  rowInputLoop libc columns []

/-- The loop of `row_length`. -/
def rowLengthLoop : Row libc → Nat → Nat
  | [], rowLen => rowLen
  | cell :: rest, rowLen =>
      rowLengthLoop rest (u32 (u32 (rowLen + 3) + (cell.cellNameLen.toNat + cell.valLen.toNat)))

/-- The number of bytes allocated for a row. -/
def rowLength (row : Row libc) : Nat :=
  rowLengthLoop row 1

/-- The variables of the loop of `data_compact`. -/
structure Compaction where
  data : Buffer UInt8
  i : Nat
  cols : Nat

/-- One pass of the loop of `data_compact`. -/
def compactCell (state : Compaction) (cell : Cell libc) : Compaction :=
  let data := state.data.store state.i cell.dt
  let i := u32 (state.i + 1)
  let data := data.store i cell.cellNameLen
  let i := u32 (i + 1)
  let data := strcpy data i cell.cellName
  let i := u32 (i + cell.cellNameLen.toNat)
  let data := data.store i cell.valLen
  let i := u32 (i + 1)
  -- An unknown type code prints a message instead of storing a text.
  let data := match cell.val.text? libc with
    | some text => strcpy data i text
    | none => data
  { data, i := u32 (i + cell.valLen.toNat), cols := u32 (state.cols + 1) }

/-- The loop of `data_compact`, which ends with the row or at the end of the block. -/
def compactLoop (dataLen : Nat) : Compaction → Row libc → Compaction
  | state, [] => state
  | state, cell :: rest =>
      if state.i < dataLen then compactLoop dataLen (compactCell state cell) rest else state

/-- The memory at the pointer `data_compact` returns, given what the heap held
there before. An empty row ends the program. -/
def dataCompact (heap : Nat → UInt8) (row : Row libc) : Option (Buffer UInt8) :=
  if row.isEmpty then none
  else
    let final := compactLoop (rowLength row) ⟨Buffer.fresh heap, 1, 0⟩ row
    some (final.data.store 0 (UInt8.ofNat final.cols))

/-- The byte at an index of a stored value; its block ends with the NUL. -/
def byteAt (val : CString) (i : Nat) : Option UInt8 :=
  (val.bytes ++ [0])[i]?

/-- `strncpy` of `count` bytes into `temp_array` and the NUL behind them. -/
def copyToTemp (val : CString) (i : Nat) (count : UInt8) : Option CString :=
  if count.toNat < 255 ∧ (count = 0 ∨ i ≤ val.length) then
    some ⟨(val.bytes.drop i).take count.toNat, fun member =>
      val.nulFree (List.mem_of_mem_drop (List.mem_of_mem_take member))⟩
  else none

/-- The value read from a text under a type code. -/
def readValue (libc : Libc) (dt : UInt8) (text : CString) : CellValue libc :=
  if int : dt = 1 then .INT (atoi libc text)
  else if float : dt = 2 then .FLOAT (libc.atof text)
  else if string : dt = 4 then .STRING text
  else .unset dt ⟨int, float, string⟩

/-- One pass of the loop of `data_expand`: the cell at an index and the next index. -/
def expandCell (libc : Libc) (val : CString) (i : Nat) : Option (Cell libc × Nat) := do
  let dt ← byteAt val i
  let cellNameLen ← byteAt val (i + 1)
  let cellName ← copyToTemp val (i + 2) cellNameLen
  let i := i + 2 + cellNameLen.toNat
  let valLen ← byteAt val i
  let text ← copyToTemp val (i + 1) valLen
  some (⟨cellNameLen, cellName, valLen, readValue libc dt text⟩, i + 1 + valLen.toNat)

/-- The loop of `data_expand`. -/
def expandLoop (libc : Libc) (val : CString) : Nat → Nat → Row libc → Option (Row libc)
  | 0, _, firstCell => some firstCell
  | dataLen + 1, i, firstCell => do
      let (cell, next) ← expandCell libc val i
      expandLoop libc val dataLen next (linkedList firstCell cell)

/-- Read a row back from a stored value. -/
def dataExpand (libc : Libc) (val : CString) : Option (Row libc) := do
  let dataLen ← byteAt val 0
  expandLoop libc val dataLen.toNat 1 []

end CPrograms.PocketDB
