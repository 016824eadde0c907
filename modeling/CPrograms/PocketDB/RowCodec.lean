import CPrograms.PocketDB.Row

/-!
# What a stored row holds, and what is read back from it

`data_compact` advances by the length bytes of a cell while `strcpy` and
`sprintf` write what the texts need, so the copy made by `strdup` ends at the
first text shorter than its length byte, and a longer text is overwritten by the
next cell (`image`). From there the reading direction is compared with the row:
it comes back whole exactly when the printed lengths agree with the length bytes.
-/

namespace CPrograms.PocketDB

open Library

variable {libc : Libc}

/-- The bytes `data_compact` stores in front of a cell's text. -/
def Cell.header (cell : Cell libc) : List UInt8 :=
  cell.dt :: cell.cellNameLen :: (cell.cellName.bytes ++ [cell.valLen])

/-- The bytes of the text printed for a cell. -/
def Cell.text (cell : Cell libc) : List UInt8 :=
  match cell.val.text? libc with
  | some text => text.bytes
  | none => []

/-- The bytes before the first NUL behind the column count of a stored row. -/
def image : Row libc → List UInt8
  | [] => []
  | cell :: rest =>
      if rest.isEmpty ∨ cell.text.length < cell.valLen.toNat then cell.header ++ cell.text
      else cell.header ++ cell.text.take cell.valLen.toNat ++ image rest

/-- The image of the last cell is its header and its text. -/
theorem image_last (cell : Cell libc) : image [cell] = cell.header ++ cell.text := by
  rw [image, if_pos (.inl rfl)]

/-- A text shorter than its length byte ends the image. -/
theorem image_cut {cell : Cell libc} (rest : Row libc)
    (short : cell.text.length < cell.valLen.toNat) :
    image (cell :: rest) = cell.header ++ cell.text := by
  rw [image, if_pos (.inr short)]

/-- Any other text gives as many bytes as its length byte says. -/
theorem image_cons {cell : Cell libc} {rest : Row libc} (more : rest ≠ [])
    (long : cell.valLen.toNat ≤ cell.text.length) :
    image (cell :: rest) = cell.header ++ cell.text.take cell.valLen.toNat ++ image rest := by
  rw [image, if_neg]
  simp only [List.isEmpty_iff, more, false_or, not_lt]
  exact long

/-- A cell whose name length is right, with two positive length bytes and a value. -/
structure Cell.Laid (cell : Cell libc) : Prop where
  nameLen : cell.cellNameLen.toNat = cell.cellName.length
  namePos : cell.cellNameLen ≠ 0
  valPos : cell.valLen ≠ 0
  typed : ∃ text, cell.val.text? libc = some text

/-- The bytes by which a cell advances the cursors. -/
def Cell.size (cell : Cell libc) : Nat :=
  3 + cell.cellNameLen.toNat + cell.valLen.toNat

/-- The bytes by which a row advances the cursors. -/
def rowSize (row : Row libc) : Nat :=
  (row.map Cell.size).sum

/-- A cell takes 3 to 513 bytes. -/
theorem Cell.size_bounds (cell : Cell libc) : 3 ≤ cell.size ∧ cell.size ≤ 513 := by
  have name := cell.cellNameLen.toNat_lt
  have val := cell.valLen.toNat_lt
  unfold Cell.size
  omega

/-- A row takes at most 513 bytes for each cell. -/
theorem rowSize_le (row : Row libc) : rowSize row ≤ 513 * row.length := by
  induction row with
  | nil => exact Nat.le_refl 0
  | cons cell rest ih =>
      have bound := cell.size_bounds
      simp only [rowSize, List.map_cons, List.sum_cons, List.length_cons] at ih ⊢
      omega

/-- The bytes of a cell and of the others. -/
theorem rowSize_cons (cell : Cell libc) (rest : Row libc) :
    rowSize (cell :: rest) = cell.size + rowSize rest := by
  simp only [rowSize, List.map_cons, List.sum_cons]

/-- A header is the name and three bytes. -/
theorem Cell.Laid.length_header {cell : Cell libc} (laid : cell.Laid) :
    cell.header.length = 3 + cell.cellNameLen.toNat := by
  have name := laid.nameLen
  simp only [Cell.header, List.length_cons, List.length_append, List.length_nil]
  unfold CString.length at name
  omega

/-- Small numbers do not wrap. -/
theorem u32_of_lt {n : Nat} (small : n < 2 ^ 32) : u32 n = n :=
  Nat.mod_eq_of_lt small

private theorem rowLengthLoop_eq (row : Row libc) (start : Nat)
    (small : start + rowSize row < 2 ^ 32) :
    rowLengthLoop row start = start + rowSize row := by
  induction row generalizing start with
  | nil => rfl
  | cons cell rest ih =>
      rw [rowSize_cons] at small ⊢
      unfold Cell.size at small ⊢
      rw [rowLengthLoop, u32_of_lt (n := start + 3) (by omega), u32_of_lt (by omega),
        ih _ (by omega)]
      omega

/-- Without overflow the block allocated for a row has one byte for the count and
the sizes of its cells. -/
theorem rowLength_eq (row : Row libc) (small : 1 + rowSize row < 2 ^ 32) :
    rowLength row = 1 + rowSize row :=
  rowLengthLoop_eq row 1 small

/-! ## Writing -/

/-- One pass without overflow: five stores, at the cursor and behind it. -/
theorem compactCell_eq (state : Compaction) {cell : Cell libc} {text : CString}
    (printed : cell.val.text? libc = some text) (small : state.i + cell.size < 2 ^ 32) :
    compactCell state cell =
      { data := strcpy
          ((strcpy ((state.data.store state.i cell.dt).store (state.i + 1) cell.cellNameLen)
            (state.i + 2) cell.cellName).store (state.i + 2 + cell.cellNameLen.toNat) cell.valLen)
          (state.i + 3 + cell.cellNameLen.toNat) text
        i := state.i + cell.size
        cols := u32 (state.cols + 1) } := by
  unfold Cell.size at small ⊢
  have i₁ : u32 (state.i + 1) = state.i + 1 := u32_of_lt (by omega)
  have i₂ : u32 (state.i + 1 + 1) = state.i + 2 := u32_of_lt (by omega)
  have i₃ : u32 (state.i + 2 + cell.cellNameLen.toNat) = state.i + 2 + cell.cellNameLen.toNat :=
    u32_of_lt (by omega)
  have i₄ : u32 (state.i + 2 + cell.cellNameLen.toNat + 1) =
      state.i + 3 + cell.cellNameLen.toNat := by rw [u32_of_lt (by omega)]; omega
  have i₅ : u32 (state.i + 3 + cell.cellNameLen.toNat + cell.valLen.toNat) =
      state.i + (3 + cell.cellNameLen.toNat + cell.valLen.toNat) := by
    rw [u32_of_lt (by omega)]; omega
  simp only [compactCell, printed, i₁, i₂, i₃, i₄, i₅]

/-- One pass lays the cell and a NUL down at the cursor and moves the cursor by the size of
the cell. -/
theorem compactCell_spec (state : Compaction) {cell : Cell libc} (laid : cell.Laid)
    (small : state.i + cell.size < 2 ^ 32) :
    (compactCell state cell).i = state.i + cell.size ∧
      (compactCell state cell).cols = u32 (state.cols + 1) ∧
      Buffer.Lays state.i (cell.header ++ (cell.text ++ [0])) state.data
        (compactCell state cell).data ∧
      state.i + (cell.header ++ cell.text).length ∈ (compactCell state cell).data.written := by
  obtain ⟨text, printed⟩ := laid.typed
  have name := laid.nameLen
  have textEq : cell.text = text.bytes := by simp only [Cell.text, printed]
  unfold CString.length at name
  have textStart : state.i + 3 + cell.cellNameLen.toNat = state.i + cell.header.length := by
    rw [laid.length_header, Nat.add_assoc]
  simp only [compactCell_eq state printed small, strcpy]
  refine ⟨trivial, trivial, ?_, ?_⟩
  · -- The five stores in order: type, name length, name, value length, text. The NUL of the
    -- name is overwritten by the value length.
    have sized := (state.data.lays_store state.i cell.dt).append
      (Buffer.lays_store _ (state.i + 1) cell.cellNameLen)
    have named := sized.append
      (Buffer.lays_storeAll _ (state.i + 2) (cell.cellName.bytes ++ [0])).left
    have valued := named.append (Buffer.lays_store _ _ cell.valLen)
    have header : [cell.dt] ++ [cell.cellNameLen] ++ cell.cellName.bytes ++ [cell.valLen] =
        cell.header := rfl
    have lays := valued.append (Buffer.lays_storeAll _ _ (text.bytes ++ [0]))
    rw [header, ← textStart] at lays
    have valueStart : state.i + ([cell.dt] ++ [cell.cellNameLen] ++ cell.cellName.bytes).length =
        state.i + 2 + cell.cellNameLen.toNat := by
      simp only [List.length_append, List.length_singleton]
      omega
    rw [valueStart] at lays
    rw [textEq]
    exact lays
  · rw [List.length_append, ← Nat.add_assoc, ← textStart, textEq]
    exact Buffer.mem_written_storeAll.mpr (.inl (by simp))

/-- What was written stays written. -/
theorem mem_written_compactCell (state : Compaction) (cell : Cell libc) {k : Nat}
    (stored : k ∈ state.data.written) : k ∈ (compactCell state cell).data.written := by
  simp only [compactCell]
  have sized : k ∈ ((state.data.store state.i cell.dt).store (u32 (state.i + 1))
      cell.cellNameLen).written :=
    List.mem_cons_of_mem _ (List.mem_cons_of_mem _ stored)
  have kept : k ∈ (strcpy _ (u32 (u32 (state.i + 1) + 1)) cell.cellName).written :=
    Buffer.mem_written_storeAll.mpr (.inr sized)
  split
  · exact Buffer.mem_written_storeAll.mpr (.inr (List.mem_cons_of_mem _ kept))
  · exact List.mem_cons_of_mem _ kept

/-- What was written stays written while the loop goes on. -/
theorem mem_written_compactLoop (dataLen : Nat) (state : Compaction) (row : Row libc) {k : Nat}
    (stored : k ∈ state.data.written) : k ∈ (compactLoop dataLen state row).data.written := by
  induction row generalizing state with
  | nil => exact stored
  | cons cell rest ih =>
      rw [compactLoop]
      split
      · exact ih _ (mem_written_compactCell state cell stored)
      · exact stored

/-- The loop lays the image of the row and a NUL down at the cursor it started from. -/
theorem compactLoop_spec (state : Compaction) (row : Row libc) (dataLen : Nat)
    (nonempty : row ≠ []) (laid : ∀ cell ∈ row, cell.Laid)
    (room : state.i + rowSize row = dataLen) (small : dataLen < 2 ^ 32) :
    Buffer.Lays state.i (image row ++ [0]) state.data (compactLoop dataLen state row).data ∧
      state.i + (image row).length ∈ (compactLoop dataLen state row).data.written := by
  induction row generalizing state with
  | nil => exact absurd rfl nonempty
  | cons cell rest ih =>
      have cellLaid := laid cell List.mem_cons_self
      have size := cell.size_bounds
      rw [rowSize_cons] at room
      obtain ⟨next, -, lays, nul⟩ := compactCell_spec state cellLaid (by omega)
      rw [compactLoop, if_pos (by omega)]
      cases rest with
      | nil =>
          rw [image_last, List.append_assoc]
          exact ⟨lays, nul⟩
      | cons second rest =>
          obtain ⟨restLays, restNul⟩ := ih (compactCell state cell)
            (List.cons_ne_nil _ _) (fun other member => laid other (List.mem_cons_of_mem _ member))
            (by omega)
          have textStart := cellLaid.length_header
          have sizeEq : cell.size = 3 + cell.cellNameLen.toNat + cell.valLen.toNat := rfl
          rw [next] at restLays restNul
          by_cases short : cell.text.length < cell.valLen.toNat
          · rw [image_cut _ short, List.append_assoc]
            refine ⟨lays.keep restLays ?_, mem_written_compactLoop _ _ _ nul⟩
            simp only [List.length_append, List.length_singleton]
            omega
          · have front : (cell.header ++ cell.text.take cell.valLen.toNat).length = cell.size := by
              rw [List.length_append, List.length_take, textStart, sizeEq]
              omega
            have cut : Buffer.Lays state.i (cell.header ++ cell.text.take cell.valLen.toNat)
                state.data (compactCell state cell).data := by
              rw [← List.take_append_drop cell.valLen.toNat cell.text, List.append_assoc,
                ← List.append_assoc] at lays
              exact lays.left
            rw [image_cons (List.cons_ne_nil _ _) (not_lt.mp short), List.append_assoc _ (image _)]
            rw [← front] at restLays restNul
            refine ⟨cut.append restLays, ?_⟩
            rwa [List.length_append, ← Nat.add_assoc]

private theorem compactLoop_cols (state : Compaction) (row : Row libc) (dataLen : Nat)
    (laid : ∀ cell ∈ row, cell.Laid) (room : state.i + rowSize row = dataLen)
    (small : dataLen < 2 ^ 32) (few : state.cols + row.length < 2 ^ 32) :
    (compactLoop dataLen state row).cols = state.cols + row.length := by
  induction row generalizing state with
  | nil => rfl
  | cons cell rest ih =>
      have size := cell.size_bounds
      rw [rowSize_cons] at room
      rw [List.length_cons] at few
      obtain ⟨next, counted, -⟩ := compactCell_spec state (laid cell List.mem_cons_self) (by omega)
      rw [u32_of_lt (by omega)] at counted
      rw [compactLoop, if_pos (by omega),
        ih _ (fun other member => laid other (List.mem_cons_of_mem _ member)) (by omega)
          (by omega), counted, List.length_cons]
      omega

private theorem nul_notMem_text (cell : Cell libc) : 0 ∉ cell.text := by
  unfold Cell.text
  split
  · next text _ => exact text.nulFree
  · exact List.not_mem_nil

/-- There is no NUL in a header. -/
theorem Cell.Laid.nul_notMem_header {cell : Cell libc} (laid : cell.Laid) : 0 ∉ cell.header := by
  have type : cell.dt ≠ 0 := by
    obtain ⟨text, printed⟩ := laid.typed
    cases kind : cell.val with
    | unset code other =>
        rw [kind] at printed
        exact absurd printed (by simp [CellValue.text?])
    | _ => simp [Cell.dt, kind, CellValue.dt]
  simp only [Cell.header, List.mem_cons, List.mem_append, List.not_mem_nil, or_false, not_or]
  exact ⟨type.symm, laid.namePos.symm, cell.cellName.nulFree, laid.valPos.symm⟩

/-- There is no NUL in the image of a row. -/
theorem nul_notMem_image {row : Row libc} (laid : ∀ cell ∈ row, cell.Laid) : 0 ∉ image row := by
  induction row with
  | nil => exact List.not_mem_nil
  | cons cell rest ih =>
      have header := (laid cell List.mem_cons_self).nul_notMem_header
      rw [image]
      split
      · simp only [List.mem_append, not_or]
        exact ⟨header, nul_notMem_text cell⟩
      · simp only [List.mem_append, not_or]
        exact ⟨⟨header, fun member => nul_notMem_text cell (List.mem_of_mem_take member)⟩,
          ih fun other member => laid other (List.mem_cons_of_mem _ member)⟩

private theorem ofNat_ne_zero_of_le {n : Nat} (positive : 0 < n) (few : n ≤ 255) :
    (0 : UInt8) ≠ UInt8.ofNat n := by
  intro same
  have value : (UInt8.ofNat n).toNat = n :=
    UInt8.toNat_ofNat_of_lt (by simp only [UInt8.size]; omega)
  have zero : (0 : UInt8).toNat = 0 := rfl
  rw [← same] at value
  omega

/-- What the tree keeps of a row of at most 255 cells: its count and its image. -/
theorem strdup_dataCompact (heap : Nat → UInt8) {row : Row libc} (nonempty : row ≠ [])
    (laid : ∀ cell ∈ row, cell.Laid) (few : row.length ≤ 255) :
    ∃ kept : CString, (dataCompact heap row).bind strdup = some kept ∧
      kept.bytes = UInt8.ofNat row.length :: image row := by
  have size := rowSize_le row
  have count := List.length_pos_iff.mpr nonempty
  have allocated := rowLength_eq row (by omega)
  obtain ⟨lays, nul⟩ := compactLoop_spec ⟨Buffer.fresh heap, 1, 0⟩ row (rowLength row) nonempty
    laid allocated.symm (by omega)
  have cols := compactLoop_cols ⟨Buffer.fresh heap, 1, 0⟩ row (rowLength row) laid allocated.symm
    (by omega) (by simp only; omega)
  simp only [Nat.zero_add] at cols
  refine ⟨⟨UInt8.ofNat row.length :: image row, ?_⟩, ?_, rfl⟩
  · simp only [List.mem_cons, not_or]
    exact ⟨ofNat_ne_zero_of_le count few, nul_notMem_image laid⟩
  · simp only [dataCompact, List.isEmpty_iff, nonempty, ↓reduceIte, Option.bind_some, cols]
    apply strdup_of_holds
    · apply Buffer.Holds.cons
      · exact Buffer.read_store_self _ _ _
      · -- The count byte is stored last, in front of the whole image.
        intro offset bound
        rw [Buffer.read_store_of_ne _ _ (by omega)]
        exact lays.holds offset bound
    · apply List.mem_cons_of_mem
      simpa only [CString.length, List.length_cons, Nat.add_comm] using nul

/-! ## Reading -/

/-- The byte behind a front part. -/
theorem byteAt_append (val : CString) {front tail : List UInt8} {byte : UInt8}
    (shape : val.bytes = front ++ byte :: tail) : byteAt val front.length = some byte := by
  rw [byteAt, shape, List.append_assoc, List.getElem?_append_right (Nat.le_refl _), Nat.sub_self]
  rfl

/-- Behind its NUL a stored value cannot be read. -/
theorem byteAt_outside (val : CString) {i : Nat} (outside : val.length < i) :
    byteAt val i = none := by
  rw [byteAt, List.getElem?_eq_none]
  simp only [List.length_append, List.length_cons, List.length_nil]
  unfold CString.length at outside
  omega

/-- The bytes behind a front part are copied. -/
theorem copyToTemp_append (val : CString) {front tail : List UInt8} {count : UInt8}
    (shape : val.bytes = front ++ tail) (short : count.toNat < 255) :
    ∃ text, copyToTemp val front.length count = some text ∧
      text.bytes = tail.take count.toNat := by
  have inside : front.length ≤ val.length := by
    rw [CString.length, shape, List.length_append]
    omega
  rw [copyToTemp, if_pos ⟨short, .inr inside⟩]
  refine ⟨_, rfl, ?_⟩
  change (val.bytes.drop front.length).take count.toNat = tail.take count.toNat
  rw [shape, List.drop_left]

/-- Where a cell's header stands, the cell is read with as much of the bytes behind
it as its length byte says. -/
theorem expandCell_spec (val : CString) {front tail : List UInt8} {cell : Cell libc}
    (shape : val.bytes = front ++ cell.header ++ tail) (laid : cell.Laid)
    (shortName : cell.cellNameLen.toNat < 255) (shortVal : cell.valLen.toNat < 255) :
    ∃ text : CString, text.bytes = tail.take cell.valLen.toNat ∧
      expandCell libc val front.length =
        some (⟨cell.cellNameLen, cell.cellName, cell.valLen, readValue libc cell.dt text⟩,
          front.length + cell.size) := by
  have name := laid.nameLen
  unfold CString.length at name
  have atType : val.bytes =
      front ++ cell.dt :: (cell.cellNameLen :: (cell.cellName.bytes ++ [cell.valLen]) ++ tail) := by
    rw [shape, List.append_assoc]
    rfl
  have atNameLen : val.bytes = (front ++ [cell.dt]) ++
      cell.cellNameLen :: (cell.cellName.bytes ++ [cell.valLen] ++ tail) := by
    rw [atType, List.append_assoc]
    rfl
  have atName : val.bytes = (front ++ [cell.dt, cell.cellNameLen]) ++
      (cell.cellName.bytes ++ ([cell.valLen] ++ tail)) := by
    rw [atType, List.append_assoc, List.cons_append, List.append_assoc]
    rfl
  have atValLen : val.bytes = (front ++ cell.dt :: cell.cellNameLen :: cell.cellName.bytes) ++
      cell.valLen :: tail := by
    rw [atName, List.append_assoc, List.append_assoc]
    rfl
  have type := byteAt_append val atType
  have nameLen := byteAt_append val atNameLen
  obtain ⟨nameText, copied, nameBytes⟩ := copyToTemp_append val atName shortName
  have nameEq : nameText = cell.cellName := by
    apply CString.ext
    rw [nameBytes, name, List.take_left]
  have valLen := byteAt_append val atValLen
  obtain ⟨text, read, textBytes⟩ := copyToTemp_append val shape shortVal
  refine ⟨text, textBytes, ?_⟩
  simp only [List.length_append, List.length_cons, List.length_nil, ← name] at nameLen copied valLen
  rw [List.length_append, laid.length_header, show front.length + (3 + cell.cellNameLen.toNat) =
    front.length + 2 + cell.cellNameLen.toNat + 1 by omega] at read
  rw [show front.length + (cell.cellNameLen.toNat + 1 + 1) =
    front.length + 2 + cell.cellNameLen.toNat by omega] at valLen
  have next : front.length + 2 + cell.cellNameLen.toNat + 1 + cell.valLen.toNat =
      front.length + cell.size := by
    unfold Cell.size
    omega
  simp only [expandCell, Option.bind_eq_bind, type, nameLen, copied, valLen, read,
    Option.bind_some, nameEq, next]

/-- The cells read so far stand in front. -/
theorem expandLoop_acc (val : CString) (count i : Nat) (acc : Row libc) :
    expandLoop libc val count i acc = (expandLoop libc val count i []).map (acc ++ ·) := by
  induction count generalizing i acc with
  | zero => simp [expandLoop]
  | succ count ih =>
      rw [expandLoop, expandLoop]
      cases expandCell libc val i with
      | none => rfl
      | some read =>
          simp only [Option.bind_eq_bind, Option.bind_some, linkedList_eq_append, List.nil_append]
          rw [ih _ (acc ++ [read.1]), ih _ [read.1], Option.map_map]
          simp only [Function.comp_def, List.append_assoc]

/-- The loop reads one cell and then the rest from where it ended. -/
theorem expandLoop_succ (val : CString) (count i : Nat) :
    expandLoop libc val (count + 1) i [] = (expandCell libc val i).bind fun read =>
      (expandLoop libc val count read.2 []).map (read.1 :: ·) := by
  rw [expandLoop]
  cases expandCell libc val i with
  | none => rfl
  | some read =>
      simp only [Option.bind_eq_bind, Option.bind_some, linkedList_eq_append, List.nil_append]
      rw [expandLoop_acc]
      rfl

/-- The loop reads as many cells as it counts. -/
theorem length_expandLoop (val : CString) (count i : Nat) {acc row : Row libc}
    (read : expandLoop libc val count i acc = some row) : row.length = acc.length + count := by
  induction count generalizing i acc with
  | zero =>
      rw [expandLoop, Option.some.injEq] at read
      rw [← read, Nat.add_zero]
  | succ count ih =>
      rw [expandLoop, Option.bind_eq_bind, Option.bind_eq_some_iff] at read
      obtain ⟨cell, -, rest⟩ := read
      have length := ih _ rest
      rw [linkedList_eq_append, List.length_append, List.length_singleton] at length
      omega

/-- At most 255 cells can be read back, as many as one byte can count. -/
theorem length_dataExpand_le (val : CString) {row : Row libc}
    (read : dataExpand libc val = some row) : row.length ≤ 255 := by
  rw [dataExpand, Option.bind_eq_bind, Option.bind_eq_some_iff] at read
  obtain ⟨count, -, cells⟩ := read
  have length := length_expandLoop val _ _ cells
  have bound := count.toNat_lt
  rw [List.length_nil] at length
  omega

/-! ## The round trip -/

/-- A value of one of the two types that are stored without loss. -/
def CellValue.Plain (val : CellValue libc) : Prop :=
  (∃ ival, val = .INT ival) ∨ ∃ sval, val = .STRING sval

/-- A cell with a plain value, both of whose length bytes are in range and whose
name length is right. -/
structure Cell.Sized (cell : Cell libc) : Prop where
  plain : cell.val.Plain
  nameLen : cell.cellNameLen.toNat = cell.cellName.length
  nameRange : 1 ≤ cell.cellNameLen.toNat ∧ cell.cellNameLen.toNat ≤ 253
  valRange : 1 ≤ cell.valLen.toNat ∧ cell.valLen.toNat ≤ 253

private theorem ne_zero_of_one_le {byte : UInt8} (positive : 1 ≤ byte.toNat) : byte ≠ 0 := by
  rintro rfl
  exact absurd positive (by decide)

/-- A sized cell can be laid down. -/
theorem Cell.Sized.laid {cell : Cell libc} (sized : cell.Sized) : cell.Laid where
  nameLen := sized.nameLen
  namePos := ne_zero_of_one_le sized.nameRange.1
  valPos := ne_zero_of_one_le sized.valRange.1
  typed := by
    rcases sized.plain with ⟨ival, kind⟩ | ⟨sval, kind⟩ <;> rw [kind] <;> exact ⟨_, rfl⟩

/-- A plain value is read back from the text printed for it. -/
theorem readValue_text {cell : Cell libc} (plain : cell.val.Plain) {text : CString}
    (same : text.bytes = cell.text) : readValue libc cell.dt text = cell.val := by
  rcases plain with ⟨ival, kind⟩ | ⟨sval, kind⟩
  · have printed : text = printD ival := CString.ext (by
      simpa [Cell.text, kind, CellValue.text?] using same)
    simp [readValue, Cell.dt, kind, CellValue.dt, printed]
  · have stored : text = sval := CString.ext (by
      simpa [Cell.text, kind, CellValue.text?] using same)
    simp [readValue, Cell.dt, kind, CellValue.dt, stored]

/-- The type, name and value of a cell: what is shown of it. -/
def Cell.data (cell : Cell libc) : UInt8 × CString × CellValue libc :=
  (cell.dt, cell.cellName, cell.val)

/-- Where a sized cell starts and its text is as long as its length byte says, the
cell itself is read. -/
theorem expandCell_exact (val : CString) {front tail : List UInt8} {cell : Cell libc}
    (sized : cell.Sized) (exactLen : cell.text.length = cell.valLen.toNat)
    (shape : val.bytes = front ++ cell.header ++ (cell.text ++ tail)) :
    expandCell libc val front.length = some (cell, front.length + cell.size) := by
  obtain ⟨text, bytes, read⟩ := expandCell_spec val shape sized.laid
    (by have := sized.nameRange; omega) (by have := sized.valRange; omega)
  rw [← exactLen, List.take_left] at bytes
  rw [read, readValue_text sized.plain bytes]

/-- The image of a cell of its exact length is followed by the next one. -/
theorem image_exact {cell : Cell libc} {rest : Row libc}
    (exactLen : cell.text.length = cell.valLen.toNat) :
    image (cell :: rest) = cell.header ++ (cell.text ++ image rest) := by
  cases rest with
  | nil => rw [image_last, image, List.append_nil]
  | cons second rest =>
      rw [image_cons (List.cons_ne_nil _ _) exactLen.ge, ← exactLen, List.take_length,
        List.append_assoc]

/-- A cell whose text fits its length byte exactly ends where the next one starts. -/
private theorem length_append_exact {cell : Cell libc} (laid : cell.Laid)
    (exactLen : cell.text.length = cell.valLen.toNat) (front : List UInt8) :
    (front ++ cell.header ++ cell.text).length = front.length + cell.size := by
  rw [List.length_append, List.length_append, laid.length_header, exactLen]
  unfold Cell.size
  omega

private theorem expandLoop_image_exact (val : CString) {front : List UInt8} {row : Row libc}
    (shape : val.bytes = front ++ image row) (sized : ∀ cell ∈ row, cell.Sized)
    (exactLen : ∀ cell ∈ row, cell.text.length = cell.valLen.toNat) :
    expandLoop libc val row.length front.length [] = some row := by
  induction row generalizing front with
  | nil => rfl
  | cons cell rest ih =>
      have head := sized cell List.mem_cons_self
      have headLen := exactLen cell List.mem_cons_self
      rw [image_exact headLen, ← List.append_assoc] at shape
      have next := length_append_exact head.laid headLen front
      have tail := @ih (front ++ cell.header ++ cell.text)
        (by rw [shape, List.append_assoc _ cell.text])
        (fun other member => sized other (List.mem_cons_of_mem _ member))
        (fun other member => exactLen other (List.mem_cons_of_mem _ member))
      rw [List.length_cons, expandLoop_succ, expandCell_exact val head headLen shape,
        Option.bind_some, ← next, tail]
      rfl

/-- A stored value whose first byte counts the row is read by the loop. -/
theorem dataExpand_of_bytes (val : CString) {row : Row libc} (few : row.length ≤ 255)
    (shape : val.bytes = UInt8.ofNat row.length :: image row) :
    dataExpand libc val = expandLoop libc val row.length 1 [] := by
  have count : byteAt val 0 = some (UInt8.ofNat row.length) := by
    rw [← List.nil_append (_ :: _)] at shape
    exact byteAt_append val shape
  have small : (UInt8.ofNat row.length).toNat = row.length :=
    UInt8.toNat_ofNat_of_lt (by simp only [UInt8.size]; omega)
  rw [dataExpand, count, Option.bind_eq_bind, Option.bind_some, small]

/-- **The row codec round-trips through storage.** A row of at most 255 sized cells
whose texts are as long as their length bytes say is read back unchanged from the
copy the tree keeps, whatever the heap held before. -/
theorem dataExpand_strdup_dataCompact (heap : Nat → UInt8) (row : Row libc)
    (count : 1 ≤ row.length ∧ row.length ≤ 255) (sized : ∀ cell ∈ row, cell.Sized)
    (exactLen : ∀ cell ∈ row, cell.text.length = cell.valLen.toNat) :
    ((dataCompact heap row).bind strdup).bind (dataExpand libc) = some row := by
  have nonempty : row ≠ [] := List.length_pos_iff.mp count.1
  obtain ⟨kept, stored, bytes⟩ := strdup_dataCompact heap nonempty
    (fun cell member => (sized cell member).laid) count.2
  rw [stored, Option.bind_some, dataExpand_of_bytes kept count.2 bytes]
  rw [← List.singleton_append] at bytes
  exact expandLoop_image_exact kept bytes sized exactLen

/-- `"BRANCH"` -/
def branch : CString := ⟨[66, 82, 65, 78, 67, 72], by decide⟩

/-- `"OSS"` -/
def oss : CString := ⟨[79, 83, 83], by decide⟩

/-- `"ROLL"` -/
def roll : CString := ⟨[82, 79, 76, 76], by decide⟩

/-- The sample row of `row_input`, with the smallest `int` as its number. -/
def sampleRow : Row integerLibc :=
  [⟨6, branch, 3, .STRING oss⟩, ⟨4, roll, 11, .INT (-2147483648)⟩]

/-- The cells of the sample row are sized. -/
theorem sampleRow_sized : ∀ cell ∈ sampleRow, cell.Sized := by
  intro cell member
  simp only [sampleRow, List.mem_cons, List.not_mem_nil, or_false] at member
  rcases member with rfl | rfl
  · exact ⟨.inr ⟨_, rfl⟩, by decide, by decide, by decide⟩
  · exact ⟨.inl ⟨_, rfl⟩, by decide, by decide, by decide⟩

/-- The sample row is read back as it was. -/
theorem sampleRow_roundTrip :
    ((dataCompact (fun _ => 255) sampleRow).bind strdup).bind (dataExpand integerLibc) =
      some sampleRow :=
  dataExpand_strdup_dataCompact _ sampleRow (by decide) sampleRow_sized (by decide)

/-! ## Rows with other lengths -/

/-- A string is as long as its length byte says; a printed number need not be. -/
def Cell.Entered (cell : Cell libc) : Prop :=
  cell.Sized ∧ ∀ sval, cell.val = .STRING sval → cell.text.length = cell.valLen.toNat

private theorem readValue_take_ne {cell : Cell libc} (entered : cell.Entered) {text : CString}
    (long : cell.valLen.toNat < cell.text.length)
    (cut : text.bytes = cell.text.take cell.valLen.toNat) :
    readValue libc cell.dt text ≠ cell.val := by
  rcases entered.1.plain with ⟨ival, kind⟩ | ⟨sval, kind⟩
  · have textEq : cell.text = (printD ival).bytes := by simp [Cell.text, kind, CellValue.text?]
    have read : readValue libc cell.dt text = .INT (atoi libc text) := by
      simp [readValue, Cell.dt, kind, CellValue.dt]
    rw [textEq] at long cut
    rw [read, kind]
    intro same
    exact atoi_take_printD_ne libc ival text entered.1.valRange.1 long cut
      (CellValue.INT.inj same)
  · exact absurd (entered.2 sval kind) (by omega)

/-- What is read where an entered cell starts shows the cell exactly when the text
printed for it fits its length byte. -/
private theorem expandCell_data (val : CString) {front tail : List UInt8} {cell : Cell libc}
    (entered : cell.Entered)
    (shape : val.bytes = front ++ cell.header ++ tail)
    (start : tail.take cell.valLen.toNat = cell.text.take cell.valLen.toNat) :
    ∃ read : Cell libc, expandCell libc val front.length =
        some (read, front.length + cell.size) ∧
      (read.data = cell.data ↔ cell.text.length ≤ cell.valLen.toNat) := by
  obtain ⟨text, bytes, read⟩ := expandCell_spec val shape entered.1.laid
    (by have := entered.1.nameRange; omega) (by have := entered.1.valRange; omega)
  rw [start] at bytes
  refine ⟨_, read, ?_⟩
  by_cases fits : cell.text.length ≤ cell.valLen.toNat
  · rw [List.take_of_length_le fits] at bytes
    simp only [fits, iff_true, Cell.data, Cell.dt, Prod.mk.injEq, true_and]
    have value := readValue_text entered.1.plain bytes
    exact ⟨congrArg CellValue.dt value, value⟩
  · have value := readValue_take_ne entered (not_le.mp fits) bytes
    simp only [fits, iff_false, Cell.data, Prod.mk.injEq, true_and, not_and]
    exact fun _ same => value same

/-- A row is shown when its first cell is, and the rest from where that cell ends. -/
private theorem shows_cons {val : CString} {i next : Nat} {cell read : Cell libc}
    (found : expandCell libc val i = some (read, next)) (rest : Row libc) :
    (∃ row, expandLoop libc val (cell :: rest).length i [] = some row ∧
        row.map Cell.data = (cell :: rest).map Cell.data) ↔
      read.data = cell.data ∧
        ∃ row, expandLoop libc val rest.length next [] = some row ∧
          row.map Cell.data = rest.map Cell.data := by
  rw [List.length_cons, expandLoop_succ, found, Option.bind_some]
  constructor
  · rintro ⟨row, loop, same⟩
    obtain ⟨tail, tailLoop, rfl⟩ := Option.map_eq_some_iff.mp loop
    obtain ⟨first, others⟩ := List.cons.inj same
    exact ⟨first, tail, tailLoop, others⟩
  · rintro ⟨first, tail, tailLoop, others⟩
    refine ⟨read :: tail, ?_, ?_⟩
    · rw [tailLoop]
      rfl
    · rw [List.map_cons, List.map_cons, first, others]

/-- Behind the NUL of a stored value no cell is read. -/
private theorem expandLoop_outside (val : CString) {i : Nat} {row : Row libc} (more : row ≠ [])
    (outside : val.length < i) : expandLoop libc val row.length i [] = none := by
  obtain ⟨cell, rest, rfl⟩ := List.exists_cons_of_ne_nil more
  rw [List.length_cons, expandLoop_succ, expandCell, byteAt_outside val outside]
  rfl

/-- **What survives in a stored row.** Every cell is shown as entered exactly when no
printed text is longer than its length byte says and none but the last is shorter. -/
theorem expandLoop_image_iff (val : CString) {front : List UInt8} {row : Row libc}
    (shape : val.bytes = front ++ image row) (entered : ∀ cell ∈ row, cell.Entered) :
    (∃ read, expandLoop libc val row.length front.length [] = some read ∧
        read.map Cell.data = row.map Cell.data) ↔
      (∀ cell ∈ row, cell.text.length ≤ cell.valLen.toNat) ∧
        ∀ cell ∈ row.dropLast, cell.text.length = cell.valLen.toNat := by
  induction row generalizing front with
  | nil => simp [expandLoop]
  | cons cell rest ih =>
      have head := entered cell List.mem_cons_self
      have others : ∀ other ∈ rest, other.Entered :=
        fun other member => entered other (List.mem_cons_of_mem _ member)
      by_cases last : rest = []
      · subst last
        rw [image_last, ← List.append_assoc] at shape
        obtain ⟨read, found, data⟩ := expandCell_data val head shape rfl
        rw [shows_cons found, data]
        simp [expandLoop]
      · rw [List.dropLast_cons_of_ne_nil last]
        rcases lt_trichotomy cell.text.length cell.valLen.toNat with short | exactLen | long
        · -- The image ends here, and the next cell would be read behind its NUL.
          rw [image_cut rest short, ← List.append_assoc] at shape
          obtain ⟨read, found, -⟩ := expandCell_data val head shape rfl
          have outside : val.length < front.length + cell.size := by
            rw [CString.length, shape, List.length_append, List.length_append,
              head.1.laid.length_header]
            unfold Cell.size
            omega
          rw [shows_cons found, expandLoop_outside val last outside]
          refine iff_of_false ?_ ?_
          · rintro ⟨-, row, loop, -⟩
            cases loop
          · rintro ⟨-, exactAll⟩
            exact absurd (exactAll cell List.mem_cons_self) (by omega)
        · have next := length_append_exact head.1.laid exactLen front
          rw [image_exact exactLen, ← List.append_assoc] at shape
          have tail := @ih (front ++ cell.header ++ cell.text)
            (by rw [shape, List.append_assoc _ cell.text]) others
          rw [shows_cons (expandCell_exact val head.1 exactLen shape), ← next, tail]
          simp only [List.mem_cons, forall_eq_or_imp, exactLen, le_refl, true_and]
        · rw [image_cons last long.le, List.append_assoc, ← List.append_assoc] at shape
          have start : (cell.text.take cell.valLen.toNat ++ image rest).take cell.valLen.toNat =
              cell.text.take cell.valLen.toNat := by
            rw [List.take_append_of_le_length (by rw [List.length_take]; omega), List.take_take,
              min_self]
          obtain ⟨read, found, data⟩ := expandCell_data val head shape start
          rw [shows_cons found, data]
          refine iff_of_false (fun shown => ?_) (fun all => ?_)
          · exact absurd shown.1 (by omega)
          · exact absurd (all.1 cell List.mem_cons_self) (by omega)

end CPrograms.PocketDB
