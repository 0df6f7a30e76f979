import SochDB.PackedRows

/-!
The writers of packed rows as the source runs them: one appends to a vector and goes back
for each offset, the other fills a stack buffer of the right size. Both build the bytes
that `packCells` describes, and no write leaves its buffer.
-/
namespace RowWriters
open LittleEndian WalRecords PackedRows List Option

/-- `buf[pos..pos + bytes.len()].copy_from_slice(bytes)`, which panics out of bounds. -/
def copyInto (buf : Bytes) (pos : Nat) (bytes : Bytes) : Option Bytes :=
  if pos + bytes.length ≤ buf.length then
    some (buf.take pos ++ bytes ++ buf.drop (pos + bytes.length))
  else none

def valueSize : Option SochValue → Nat
  | none | some .null => 0
  | some (.bool _) => 1
  | some (.int _) | some (.uint _) | some (.float _) => 8
  | some (.text s) => 4 + s.bytes.length
  | some (.binary b) => 4 + b.length
  | some (.nested _) => 0

def writeValueToSlice (buf : Bytes) (pos : Nat) : SochValue → Option (Bytes × Nat)
  | .null => some (buf, 0)
  | .bool b => (copyInto buf pos [if b then 1 else 0]).map (·, 1)
  | .int i => (copyInto buf pos (leBytes 8 i.toUInt64.toNat)).map (·, 8)
  | .uint u => (copyInto buf pos (leBytes 8 u.toNat)).map (·, 8)
  | .float bits => (copyInto buf pos (leBytes 8 bits.toNat)).map (·, 8)
  | .text s => do
    let buf ← copyInto buf pos (leBytes 4 s.bytes.length)
    (copyInto buf (pos + 4) s.bytes).map (·, 4 + s.bytes.length)
  | .binary b => do
    let buf ← copyInto buf pos (leBytes 4 b.length)
    (copyInto buf (pos + 4) b).map (·, 4 + b.length)
  | .nested _ => some (buf, 0)

def appendCell (offsetsStart dataStart : Nat) (data : Bytes) (cell : Option SochValue × Nat) :
    Option Bytes := do
  let data ← copyInto data (offsetsStart + cell.2 * 4) (leBytes 4 (data.length - dataStart))
  pure (data ++ (cell.1.map writeValue).getD [])

/-- The loop of `pack` and of `pack_slice_large`. -/
def packVector (k : Nat) (values : List (Option SochValue)) : Option Bytes :=
  let bits := values.zipIdx.foldl (fun bits cell => if isNull cell.1 then setBit bits cell.2 else bits)
    (List.replicate (nullBitmapSize k) 0)
  values.zipIdx.foldlM (appendCell bits.length (bits.length + k * 4)) (bits ++ List.replicate (k * 4) 0)

def fillCell (offsetsStart dataStart : Nat) (state : Bytes × Nat) (cell : Option SochValue × Nat) :
    Option (Bytes × Nat) := do
  let buf ← copyInto state.1 (offsetsStart + cell.2 * 4) (leBytes 4 (state.2 - dataStart))
  match cell.1 with
  | some value =>
    let (buf, written) ← writeValueToSlice buf state.2 value
    pure (buf, state.2 + written)
  | none => pure (buf, state.2)

def bufferSizeSlice (k : Nat) (values : List (Option SochValue)) : Nat :=
  nullBitmapSize k + k * 4 + (values.map valueSize).sum

def packSliceSmall (k : Nat) (values : List (Option SochValue)) : Option Bytes :=
  let buf := values.zipIdx.foldl (fun bits cell => if isNull cell.1 then setBit bits cell.2 else bits)
    (List.replicate (bufferSizeSlice k values) 0)
  let dataStart := nullBitmapSize k + k * 4
  (values.zipIdx.foldlM (fillCell (nullBitmapSize k) dataStart) (buf, dataStart)).map Prod.fst

def packSlice (schema : PackedTableSchema) (values : List (Option SochValue)) : Option Bytes :=
  if bufferSizeSlice schema.columns.length values ≤ 512 then
    packSliceSmall schema.columns.length values
  else packVector schema.columns.length values

def pack (schema : PackedTableSchema) (values : Row) : Option Bytes :=
  packVector schema.columns.length (PackedRow.cells schema values)

def written (cell : Option SochValue) : Bytes := (cell.map writeValue).getD []

theorem copyInto_middle (before after : Bytes) {old bytes : Bytes} (size : bytes.length = old.length)
    {pos : Nat} (place : pos = before.length) :
    copyInto (before ++ old ++ after) pos bytes = some (before ++ bytes ++ after) := by
  subst place
  unfold copyInto
  rw [if_pos]
  · have rest : before.length + bytes.length = (before ++ old).length := by
      rw [length_append, size]
    rw [rest, drop_left, append_assoc before old, take_left]
  · simp only [length_append]
    omega

theorem writeValueToSlice_zeros (before after : Bytes) (value : SochValue) {pos : Nat}
    (place : pos = before.length) :
    writeValueToSlice (before ++ List.replicate (valueSize (some value)) 0 ++ after) pos value =
      some (before ++ writeValue value ++ after, (writeValue value).length) := by
  have block : ∀ b : Bytes, (do
      let buf ← copyInto (before ++ List.replicate (4 + b.length) 0 ++ after) pos (leBytes 4 b.length)
      (copyInto buf (pos + 4) b).map (·, 4 + b.length)) =
        some (before ++ (leBytes 4 b.length ++ b) ++ after, 4 + b.length) := by
    intro b
    have parts : before ++ List.replicate (4 + b.length) 0 ++ after =
        before ++ List.replicate 4 0 ++ (List.replicate b.length 0 ++ after) := by
      rw [replicate_add]
      simp only [append_assoc]
    rw [parts, copyInto_middle _ _ (by simp) place, bind_eq_bind, bind_some,
      ← append_assoc]
    rw [copyInto_middle _ _ (by simp) (by rw [length_append, leBytes_length, place])]
    simp only [map_some, append_assoc]
  cases value with
  | null | nested => simp [writeValueToSlice, valueSize, writeValue]
  | bool b =>
    rw [writeValueToSlice, valueSize, copyInto_middle _ _ (by simp) place]
    rfl
  | int | uint | float =>
    rw [writeValueToSlice, valueSize, copyInto_middle _ _ (by simp) place]
    simp [writeValue]
  | text s =>
    have both := block s.bytes
    simp only [writeValueToSlice, valueSize, writeValue, length_append, leBytes_length]
    exact both
  | binary b =>
    have both := block b
    simp only [writeValueToSlice, valueSize, writeValue, length_append, leBytes_length]
    exact both

variable {k i : Nat} (bits offsets : Bytes) (cells : List (Option SochValue))

theorem append_cells (data : Bytes) (todo : List (Option SochValue)) (indexed : offsets.length = i * 4)
    (count : i + todo.length = k) :
    (todo.zipIdx i).foldlM (appendCell bits.length (bits.length + k * 4))
        (bits ++ offsets ++ List.replicate (todo.length * 4) 0 ++ data) =
      some (bits ++ offsets ++ (writeCells data.length todo).1 ++ data ++
        (writeCells data.length todo).2) := by
  induction todo generalizing offsets data i with
  | nil => simp [writeCells]
  | cons cell todo ih =>
    rw [zipIdx_cons, foldlM_cons, appendCell]
    have size : (bits ++ offsets ++ List.replicate ((cell :: todo).length * 4) 0 ++ data).length -
        (bits.length + k * 4) = data.length := by
      simp only [length_append, length_replicate, length_cons, indexed] at count ⊢
      omega
    have parts : bits ++ offsets ++ List.replicate ((cell :: todo).length * 4) 0 ++ data =
        bits ++ offsets ++ List.replicate 4 0 ++ (List.replicate (todo.length * 4) 0 ++ data) := by
      rw [length_cons, Nat.add_mul, Nat.add_comm, replicate_add]
      simp only [append_assoc]
    rw [size, parts, copyInto_middle _ _ (by simp) (by rw [length_append, indexed])]
    simp only [Option.bind_eq_bind, Option.bind_some, Option.pure_def]
    have next := ih (offsets ++ leBytes 4 data.length) (data ++ (cell.map writeValue).getD [])
      (i := i + 1) (by rw [length_append, leBytes_length, indexed]; omega)
      (by rw [← count, length_cons]; omega)
    simp only [append_assoc, length_append] at next ⊢
    rw [next]
    simp only [writeCells, append_assoc]

theorem fillCell_zeros (zeros data after : Bytes) (cell : Option SochValue)
    (indexed : offsets.length = i * 4) (table : i * 4 + 4 + zeros.length = k * 4) :
    fillCell bits.length (bits.length + k * 4)
        (bits ++ offsets ++ List.replicate 4 0 ++ zeros ++ data ++
          List.replicate (valueSize cell) 0 ++ after, bits.length + k * 4 + data.length) (cell, i) =
      some (bits ++ offsets ++ leBytes 4 data.length ++ zeros ++ data ++ written cell ++ after,
        bits.length + k * 4 + data.length + (written cell).length) := by
  have offset : bits.length + k * 4 + data.length - (bits.length + k * 4) = data.length := by omega
  have recorded : copyInto (bits ++ offsets ++ List.replicate 4 0 ++ zeros ++ data ++
      List.replicate (valueSize cell) 0 ++ after) (bits.length + i * 4) (leBytes 4 data.length) =
      some (bits ++ offsets ++ leBytes 4 data.length ++ zeros ++ data ++
        List.replicate (valueSize cell) 0 ++ after) := by
    have size : (leBytes 4 data.length).length = (List.replicate 4 (0 : UInt8)).length := by simp
    have place : bits.length + i * 4 = (bits ++ offsets).length := by
      rw [length_append, indexed]
    have placed := copyInto_middle (bits ++ offsets)
      (zeros ++ data ++ List.replicate (valueSize cell) 0 ++ after) size place
    simpa only [append_assoc] using placed
  unfold fillCell
  simp only [offset, recorded, Option.bind_eq_bind, Option.bind_some, Option.pure_def]
  cases cell with
  | none => simp [written, valueSize]
  | some value =>
    have here : bits.length + k * 4 + data.length =
        (bits ++ offsets ++ leBytes 4 data.length ++ zeros ++ data).length := by
      simp only [length_append, leBytes_length, indexed]
      omega
    simp only [writeValueToSlice_zeros _ after value here, bind_some]
    rfl

theorem fill_cells (data : Bytes) (todo : List (Option SochValue)) (indexed : offsets.length = i * 4)
    (count : i + todo.length = k) :
    ((todo.zipIdx i).foldlM (fillCell bits.length (bits.length + k * 4))
        (bits ++ offsets ++ List.replicate (todo.length * 4) 0 ++ data ++
          List.replicate (todo.map valueSize).sum 0, bits.length + k * 4 + data.length)).map Prod.fst =
      some (bits ++ offsets ++ (writeCells data.length todo).1 ++ data ++
        (writeCells data.length todo).2) := by
  induction todo generalizing offsets data i with
  | nil => simp [writeCells]
  | cons cell todo ih =>
    rw [length_cons] at count
    have parts : bits ++ offsets ++ List.replicate ((cell :: todo).length * 4) 0 ++ data ++
        List.replicate ((cell :: todo).map valueSize).sum 0 =
        bits ++ offsets ++ List.replicate 4 0 ++ List.replicate (todo.length * 4) 0 ++ data ++
          List.replicate (valueSize cell) 0 ++ List.replicate (todo.map valueSize).sum 0 := by
      rw [length_cons, Nat.add_mul, Nat.add_comm, replicate_add, map_cons, sum_cons,
        replicate_add]
      simp only [append_assoc]
    have turn := fillCell_zeros bits offsets (List.replicate (todo.length * 4) 0) data
      (List.replicate (todo.map valueSize).sum 0) cell indexed (k := k)
      (by rw [length_replicate]; omega)
    have next := ih (offsets ++ leBytes 4 data.length) (data ++ written cell) (i := i + 1)
      (by rw [length_append, leBytes_length, indexed]; omega) (by omega)
    rw [zipIdx_cons, foldlM_cons, parts, turn, bind_eq_bind, bind_some]
    simp only [append_assoc, length_append, Nat.add_assoc] at next ⊢
    rw [next]
    simp only [writeCells, written, append_assoc]

theorem setBit_append {bits : Bytes} (inside : i / 8 < bits.length) (rest : Bytes) :
    setBit (bits ++ rest) i = setBit bits i ++ rest := by
  apply ext_getElem?
  intro j
  by_cases within : j < bits.length
  · have kept : j < (setBit bits i).length := by
      rw [setBit, length_modify]
      exact within
    rw [List.getElem?_append_left kept, setBit, setBit, List.getElem?_modify, List.getElem?_modify,
      List.getElem?_append_left within]
  · have past : i / 8 ≠ j := by omega
    rw [setBit, setBit, List.getElem?_modify, List.getElem?_append_right (Nat.le_of_not_lt within),
      List.getElem?_append_right (by rw [length_modify]; omega), length_modify]
    simp [past]

theorem setBit_length (i : Nat) : (setBit bits i).length = bits.length :=
  length_modify _ _ _

def setNulls (bits : Bytes) (cells : List (Option SochValue × Nat)) : Bytes :=
  cells.foldl (fun bits cell => if isNull cell.1 then setBit bits cell.2 else bits) bits

theorem setNulls_length (cells : List (Option SochValue × Nat)) :
    (setNulls bits cells).length = bits.length := by
  induction cells generalizing bits with
  | nil => rfl
  | cons cell cells ih =>
    rw [setNulls, foldl_cons, ← setNulls, ih]
    split
    · exact setBit_length bits cell.2
    · rfl

theorem setNulls_append {bits : Bytes} {cells : List (Option SochValue × Nat)}
    (inside : ∀ cell ∈ cells, cell.2 / 8 < bits.length) (rest : Bytes) :
    setNulls (bits ++ rest) cells = setNulls bits cells ++ rest := by
  induction cells generalizing bits with
  | nil => rfl
  | cons cell cells ih =>
    have first := inside cell mem_cons_self
    have later : ∀ other ∈ cells, other.2 / 8 < bits.length := fun other member =>
      inside other (mem_cons_of_mem cell member)
    rw [setNulls, setNulls, foldl_cons, foldl_cons, ← setNulls, ← setNulls]
    split
    · rw [setBit_append first, ih]
      intro other member
      rw [setBit_length]
      exact later other member
    · exact ih later

theorem nullBits_eq :
    nullBits cells = setNulls (List.replicate (nullBitmapSize cells.length) 0) cells.zipIdx := rfl

theorem nullBits_length :
    (nullBits cells).length = nullBitmapSize cells.length := by
  rw [nullBits_eq, setNulls_length, length_replicate]

theorem zipIdx_inside {cells : List (Option SochValue)} {cell : Option SochValue × Nat}
    (member : cell ∈ cells.zipIdx) : cell.2 / 8 < nullBitmapSize cells.length := by
  have index := snd_lt_of_mem_zipIdx member
  unfold nullBitmapSize
  omega

theorem packVector_eq :
    packVector cells.length cells = some (packCells cells) := by
  have loop := append_cells (nullBits cells) [] [] cells (i := 0) rfl (Nat.zero_add _)
  simp only [append_nil, length_nil] at loop
  exact loop

theorem packSliceSmall_eq :
    packSliceSmall cells.length cells = some (packCells cells) := by
  have buffer : setNulls (List.replicate (bufferSizeSlice cells.length cells) 0) cells.zipIdx =
      nullBits cells ++ List.replicate (cells.length * 4) 0 ++
        List.replicate (cells.map valueSize).sum 0 := by
    unfold bufferSizeSlice
    rw [replicate_add, replicate_add, append_assoc, setNulls_append, nullBits_eq,
      append_assoc]
    intro cell member
    rw [length_replicate]
    exact zipIdx_inside member
  have loop := fill_cells (nullBits cells) [] [] cells (i := 0) rfl (Nat.zero_add _)
  simp only [append_nil, length_nil, Nat.add_zero, nullBits_length] at loop
  unfold packSliceSmall
  rw [← setNulls, buffer]
  exact loop

theorem packSlice_eq_pack (schema : PackedTableSchema) (values : Row) :
    packSlice schema (PackedRow.cells schema values) =
        some (PackedRow.pack schema values).asBytes ∧
      pack schema values = some (PackedRow.pack schema values).asBytes := by
  have count : (PackedRow.cells schema values).length = schema.columns.length := length_map _
  have vector := packVector_eq (PackedRow.cells schema values)
  have small := packSliceSmall_eq (PackedRow.cells schema values)
  rw [count] at vector small
  constructor
  · unfold packSlice
    split
    · exact small
    · exact vector
  · exact vector

end RowWriters
