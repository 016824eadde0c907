import CPrograms.PocketDB.RowCodec

/-!
# The block that `data_compact` writes

`row_length` counts for every cell the three single bytes and the two texts, without a
terminating NUL. `strcpy` and `sprintf` store the NUL too. The NUL of every text is
overwritten by what follows it, except that of the last one, which no cell follows: it
lies one byte behind the allocated block.
-/

namespace CPrograms.PocketDB

open Library

variable {libc : Libc}

/-- A cell of type `INT` or `STRING` whose length bytes are the lengths of its name and of
the text printed for its value. -/
structure Cell.Measured (cell : Cell libc) : Prop where
  plain : cell.val.Plain
  nameLen : cell.cellNameLen.toNat = cell.cellName.length
  valLen : cell.valLen.toNat = cell.text.length

/-- The variables of `data_compact` in front of its loop. -/
def Compaction.start (heap : Nat → UInt8) : Compaction :=
  ⟨Buffer.fresh heap, 1, 0⟩

/-- The stores of `data_compact` stay inside the allocated block, the guard lets the loop
reach every cell, and the cursor ends at the end of the block. -/
structure StaysInside (heap : Nat → UInt8) (row : Row libc) : Prop where
  stores : ∀ data, dataCompact heap row = some data → ∀ k ∈ data.written, k < rowLength row
  guard : ∀ front cell rest, row = front ++ cell :: rest →
    (compactLoop (rowLength row) (.start heap) front).i < rowLength row
  ends : (compactLoop (rowLength row) (.start heap) row).i = rowLength row

/-- A measured cell has a text of the length it tells. -/
theorem Cell.Measured.printed {cell : Cell libc} (measured : cell.Measured) :
    ∃ text, cell.val.text? libc = some text ∧ cell.valLen.toNat = text.bytes.length := by
  have valLen := measured.valLen
  unfold Cell.text at valLen
  rcases measured.plain with ⟨ival, kind⟩ | ⟨sval, kind⟩ <;> rw [kind] at valLen ⊢
  · exact ⟨printD ival, rfl, valLen⟩
  · exact ⟨sval, rfl, valLen⟩

/-- A row that is not empty is compacted by the loop, and its count stored in front. -/
theorem dataCompact_eq (heap : Nat → UInt8) {row : Row libc} (nonempty : row ≠ []) :
    ∃ count, dataCompact heap row =
      some ((compactLoop (rowLength row) (.start heap) row).data.store 0 count) := by
  rw [dataCompact, if_neg (by simpa using nonempty)]
  exact ⟨_, rfl⟩

/-- A loop over two parts of a row is two loops. -/
theorem compactLoop_append (dataLen : Nat) (state : Compaction) (front rest : Row libc) :
    compactLoop dataLen state (front ++ rest) =
      compactLoop dataLen (compactLoop dataLen state front) rest := by
  induction front generalizing state with
  | nil => rfl
  | cons cell front ih =>
      rw [List.cons_append, compactLoop, compactLoop]
      split
      · exact ih _
      · -- A loop ended by its guard is not taken up again.
        next ended =>
          cases rest with
          | nil => rfl
          | cons => rw [compactLoop, if_neg ended]

/-- One pass stores a NUL at the cursor it leaves behind, or above it after an overflow. -/
theorem compactCell_nul (state : Compaction) {cell : Cell libc} (measured : cell.Measured) :
    ∃ k ∈ (compactCell state cell).data.written, (compactCell state cell).i ≤ k := by
  obtain ⟨text, printed, valLen⟩ := measured.printed
  simp only [compactCell, printed, strcpy]
  refine ⟨_, Buffer.mem_written_storeAll.mpr (.inl ⟨Nat.le_add_right _ text.bytes.length, ?_⟩), ?_⟩
  · simp
  · rw [valLen]
    exact Nat.mod_le _ _

/-- A loop that reaches the last cell stores a NUL at its last cursor or above. -/
theorem compactLoop_nul (dataLen : Nat) (state : Compaction) (front : Row libc)
    {cell : Cell libc} (measured : cell.Measured)
    (reached : (compactLoop dataLen state front).i < dataLen) :
    ∃ k ∈ (compactLoop dataLen state (front ++ [cell])).data.written,
      (compactLoop dataLen state (front ++ [cell])).i ≤ k := by
  rw [compactLoop_append, compactLoop, if_pos reached, compactLoop]
  exact compactCell_nul _ measured

/-- **`data_compact` never stays inside its block.** Whatever the row, the NUL behind the
text of its last cell is stored at the end of the block or above. -/
theorem not_staysInside (heap : Nat → UInt8) (row : Row libc) (nonempty : row ≠ [])
    (measured : ∀ cell ∈ row, cell.Measured) : ¬ StaysInside heap row := by
  intro inside
  obtain ⟨front, cell, rfl⟩ := (List.eq_nil_or_concat' row).resolve_left nonempty
  obtain ⟨count, compacted⟩ := dataCompact_eq heap nonempty
  obtain ⟨k, stored, above⟩ := compactLoop_nul (rowLength (front ++ [cell])) (.start heap) front
    (measured cell (by simp)) (inside.guard front cell [] rfl)
  have bound := inside.stores _ compacted k (List.mem_cons_of_mem _ stored)
  have ends := inside.ends
  omega

/-- The cells of the sample row are measured. -/
theorem sampleRow_measured : ∀ cell ∈ sampleRow, cell.Measured := by
  intro cell member
  simp only [sampleRow, List.mem_cons, List.not_mem_nil, or_false] at member
  rcases member with rfl | rfl
  · exact ⟨.inr ⟨_, rfl⟩, by decide, by decide⟩
  · exact ⟨.inl ⟨_, rfl⟩, by decide, by decide⟩

/-- The sample row is written past the end of its block. -/
theorem sampleRow_not_staysInside :
    (∀ cell ∈ sampleRow, cell.Measured) ∧ ¬ StaysInside (fun _ => 0) sampleRow :=
  ⟨sampleRow_measured, not_staysInside _ sampleRow (by decide) sampleRow_measured⟩

/-- The row with the single cell `BRANCH`, `OSS`. -/
def branchRow : Row integerLibc :=
  [⟨6, branch, 3, .STRING oss⟩]

/-- Its block has 13 bytes, and index 13 is written. -/
theorem branchRow_overrun :
    (∀ cell ∈ branchRow, cell.Measured) ∧ rowLength branchRow = 13 ∧
      (∃ data, dataCompact (fun _ => 0) branchRow = some data ∧ 13 ∈ data.written) ∧
      ¬ StaysInside (fun _ => 0) branchRow := by
  have overrun : ∃ data, dataCompact (fun _ => 0) branchRow = some data ∧ 13 ∈ data.written :=
    ⟨_, rfl, by decide⟩
  refine ⟨?_, by decide, overrun, fun inside => ?_⟩
  · intro cell member
    cases List.mem_singleton.mp member
    exact ⟨.inr ⟨_, rfl⟩, by decide, by decide⟩
  · obtain ⟨data, compacted, stored⟩ := overrun
    exact absurd (inside.stores data compacted 13 stored) (by decide)

/-! ## How far the stores reach -/

/-- One pass without overflow stores nothing above the cursor it leaves behind. -/
theorem written_compactCell_le (state : Compaction) {cell : Cell libc} (measured : cell.Measured)
    (small : state.i + cell.size < 2 ^ 32) {k : Nat}
    (stored : k ∈ (compactCell state cell).data.written) :
    k ≤ state.i + cell.size ∨ k ∈ state.data.written := by
  obtain ⟨text, printed, valLen⟩ := measured.printed
  have nameLen := measured.nameLen
  unfold CString.length at nameLen
  simp only [compactCell_eq state printed small, strcpy, Buffer.mem_written_storeAll, Buffer.store,
    List.mem_cons, List.length_append, List.length_singleton] at stored
  unfold Cell.size
  rcases stored with text | rfl | name | rfl | rfl | before
  · exact .inl (by omega)
  · exact .inl (by omega)
  · exact .inl (by omega)
  · exact .inl (by omega)
  · exact .inl (by omega)
  · exact .inr before

/-- As long as the block has room for the row, the loop reaches every cell, moves the cursor
by the size of the row and stores nothing above it. -/
theorem compactLoop_bounds (state : Compaction) (row : Row libc) (dataLen : Nat)
    (measured : ∀ cell ∈ row, cell.Measured) (room : state.i + rowSize row ≤ dataLen)
    (small : dataLen < 2 ^ 32) :
    (compactLoop dataLen state row).i = state.i + rowSize row ∧
      ∀ k ∈ (compactLoop dataLen state row).data.written,
        k ≤ state.i + rowSize row ∨ k ∈ state.data.written := by
  induction row generalizing state with
  | nil => exact ⟨rfl, fun k stored => .inr stored⟩
  | cons cell rest ih =>
      have cellMeasured := measured cell List.mem_cons_self
      obtain ⟨text, printed, -⟩ := cellMeasured.printed
      have size := cell.size_bounds
      rw [rowSize_cons] at room ⊢
      have next : (compactCell state cell).i = state.i + cell.size := by
        rw [compactCell_eq state printed (by omega)]
      obtain ⟨ends, bounds⟩ := ih (compactCell state cell)
        (fun other member => measured other (List.mem_cons_of_mem _ member)) (by omega)
      rw [compactLoop, if_pos (by omega)]
      refine ⟨by omega, fun k stored => ?_⟩
      rcases bounds k stored with inside | before
      · exact .inl (by omega)
      · exact (written_compactCell_le state cellMeasured (by omega) before).imp_left (by omega)

/-- **The overrun is one byte.** As long as the length of a row fits an `unsigned int`, the
largest index that `data_compact` writes is the length of the block it allocated. -/
theorem dataCompact_overrun (heap : Nat → UInt8) (row : Row libc) (nonempty : row ≠ [])
    (measured : ∀ cell ∈ row, cell.Measured) (small : 1 + rowSize row < 2 ^ 32) :
    ∃ data, dataCompact heap row = some data ∧ rowLength row ∈ data.written ∧
      ∀ k ∈ data.written, k ≤ rowLength row := by
  obtain ⟨count, compacted⟩ := dataCompact_eq heap nonempty
  have allocated := rowLength_eq row small
  have start : (Compaction.start heap).i = 1 := rfl
  obtain ⟨ends, bounds⟩ := compactLoop_bounds (.start heap) row (rowLength row) measured
    (by omega) (by omega)
  have inside : ∀ k ∈ ((compactLoop (rowLength row) (.start heap) row).data.store 0 count).written,
      k ≤ rowLength row := by
    intro k stored
    rcases List.mem_cons.mp stored with rfl | stored
    · exact Nat.zero_le _
    · have bound := (bounds k stored).resolve_right List.not_mem_nil
      omega
  refine ⟨_, compacted, ?_, inside⟩
  obtain ⟨front, cell, rfl⟩ := (List.eq_nil_or_concat' row).resolve_left nonempty
  have size := cell.size_bounds
  have parts : rowSize (front ++ [cell]) = rowSize front + cell.size := by simp [rowSize]
  obtain ⟨before, -⟩ := compactLoop_bounds (.start heap) front (rowLength (front ++ [cell]))
    (fun other member => measured other (List.mem_append_left _ member)) (by omega) (by omega)
  obtain ⟨k, stored, above⟩ := compactLoop_nul (rowLength (front ++ [cell])) (.start heap) front
    (measured cell (by simp)) (by omega)
  have stored := List.mem_cons_of_mem 0 stored
  have bound := inside k stored
  have last : k = rowLength (front ++ [cell]) := by omega
  exact last ▸ stored

end CPrograms.PocketDB
