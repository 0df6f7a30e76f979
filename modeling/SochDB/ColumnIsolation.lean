import SochDB.RowLayouts
import SochDB.RowWriters

/-!
What a column of a packed row reads. A column starts to read where its own value was
written and is not told where that value ends, so it is kept apart from the columns after
it only when its own bytes are enough for what its type reads.
-/
namespace ColumnIsolation
open LittleEndian KeyedMaps Utf8 WalRecords PackedRows RowLayouts RowWriters List

section Layout

def dataOf (cells : List (Option SochValue)) : Bytes := cells.flatMap written

theorem dataOf_split (cells : List (Option SochValue)) (i : Nat) :
    dataOf cells = dataOf (cells.take i) ++ dataOf (cells.drop i) := by
  conv => lhs; rw [← take_append_drop i cells]
  exact flatMap_append

variable {i : Nat} {bits : Bytes} (position : Nat)

section
variable (cells : List (Option SochValue))

theorem writeCells_data :
    (writeCells position cells).2 = dataOf cells := by
  induction cells generalizing position with
  | nil => rfl
  | cons cell cells ih => simp only [writeCells, dataOf, flatMap_cons, ih, written]

theorem writeCells_table_length :
    (writeCells position cells).1.length = cells.length * 4 := by
  induction cells generalizing position with
  | nil => rfl
  | cons cell cells ih =>
    simp only [writeCells, length_append, leBytes_length, ih, length_cons]
    omega

theorem writeCells_offset (inside : i < cells.length) :
    ((writeCells position cells).1.drop (i * 4)).take 4 =
      leBytes 4 (position + (dataOf (cells.take i)).length) := by
  induction cells generalizing position i with
  | nil => cases inside
  | cons cell cells ih =>
    cases i with
    | zero =>
      exact take_left' (leBytes_length 4 position)
    | succ i =>
      have rest := ih (position + (written cell).length) (i := i) (by simpa using inside)
      have skip : (i + 1) * 4 = 4 + i * 4 := by omega
      simp only [writeCells, skip]
      rw [← drop_drop, drop_left' (leBytes_length 4 position)]
      simp only [take_succ_cons, dataOf, flatMap_cons, length_append]
      rw [← Nat.add_assoc]
      exact rest

end

theorem or_and_ne_zero (x y z : UInt8) : ((x ||| y) &&& z != 0) = ((x &&& z != 0) || (y &&& z != 0)) := by
  have distributes : (x ||| y) &&& z = (x &&& z) ||| (y &&& z) :=
    UInt8.toBitVec_inj.mp BitVec.and_or_distrib_right
  rw [distributes, Bool.eq_iff_iff]
  simp only [bne_iff_ne, ne_eq, UInt8.or_eq_zero_iff, Bool.or_eq_true]
  tauto

theorem testBit_setBit (inside : i / 8 < bits.length) (j : Nat) :
    testBit (setBit bits i) j = (testBit bits j || decide (i = j)) := by
  unfold testBit setBit
  by_cases sameByte : i / 8 = j / 8
  · have byte : (bits.modify (i / 8) (· ||| 1 <<< UInt8.ofNat (i % 8))).getD (j / 8) 0 =
        bits.getD (j / 8) 0 ||| bitByte i := by
      rw [sameByte] at inside
      simp [List.getD, sameByte, List.getElem?_eq_getElem inside, bitByte]
    rw [byte, or_and_ne_zero]
    change (_ || (bitByte i &&& bitByte j != 0)) = _
    rw [bitByte_and]
    have index : i % 8 = j % 8 ↔ i = j := by omega
    rw [decide_eq_decide.mpr index]
  · have byte : (bits.modify (i / 8) (· ||| 1 <<< UInt8.ofNat (i % 8))).getD (j / 8) 0 =
        bits.getD (j / 8) 0 := by
      simp [List.getD, sameByte]
    have different : i ≠ j := by
      intro same
      exact sameByte (by rw [same])
    rw [byte, decide_eq_false different, Bool.or_false]

theorem testBit_setNulls {cells : List (Option SochValue × Nat)}
    (inside : ∀ cell ∈ cells, cell.2 / 8 < bits.length) (j : Nat) :
    testBit (setNulls bits cells) j =
      (testBit bits j || cells.any fun cell => isNull cell.1 && decide (cell.2 = j)) := by
  induction cells generalizing bits with
  | nil => simp [setNulls]
  | cons cell cells ih =>
    have first := inside cell mem_cons_self
    rw [setNulls, foldl_cons, ← setNulls, any_cons]
    cases null : isNull cell.1 with
    | true =>
      rw [if_pos rfl, ih, testBit_setBit first, Bool.true_and, Bool.or_assoc]
      intro other member
      rw [setBit_length]
      exact inside other (mem_cons_of_mem cell member)
    | false =>
      rw [if_neg Bool.false_ne_true, ih, Bool.false_and, Bool.false_or]
      intro other member
      exact inside other (mem_cons_of_mem cell member)

theorem testBit_nullBits {cells : List (Option SochValue)} {cell : Option SochValue}
    (here : cells[i]? = some cell) : testBit (nullBits cells) i = isNull cell := by
  have quiet : testBit (List.replicate (nullBitmapSize cells.length) 0) i = false := by
    have byte : (List.replicate (nullBitmapSize cells.length) (0 : UInt8)).getD (i / 8) 0 = 0 := by
      rw [getD_eq_getElem?_getD, List.getElem?_replicate]
      split <;> rfl
    unfold testBit
    rw [byte]
    simp
  rw [nullBits_eq, testBit_setNulls, quiet, Bool.false_or]
  · rw [Bool.eq_iff_iff, any_eq_true]
    constructor
    · intro ⟨other, member, both⟩
      rw [Bool.and_eq_true, decide_eq_true_eq] at both
      have there := mem_zipIdx_iff_getElem?.mp member
      rw [both.2, here] at there
      rw [Option.some.inj there]
      exact both.1
    · intro null
      refine ⟨(cell, i), mem_zipIdx_iff_getElem?.mpr here, ?_⟩
      rw [null, decide_eq_true rfl]
      rfl
  · intro cell member
    rw [length_replicate]
    exact zipIdx_inside member

theorem testBit_append (inside : i / 8 < bits.length) (rest : Bytes) :
    testBit (bits ++ rest) i = testBit bits i := by
  unfold testBit
  rw [getD_append _ _ _ _ inside]

theorem readValue_nil (colType : PackedColumnType) : readValue [] colType = .null := by
  cases colType <;> rfl

theorem getColumn_packed {cells : List (Option SochValue)} (few : cells.length < 65536)
    (fits : (dataOf cells).length < 2 ^ 32) {cell : Option SochValue} (here : cells[i]? = some cell)
    (colType : PackedColumnType) :
    (rowAs cells.length (packCells cells)).getColumn i colType =
      some (if isNull cell then .null else readValue (dataOf (cells.drop i)) colType) := by
  have inside : i < cells.length := (List.getElem?_eq_some_iff.mp here).1
  have all : readable cells.length = cells.length := Nat.mod_eq_of_lt few
  have bitmap := nullBits_length cells
  have whole : packCells cells = nullBits cells ++ ((writeCells 0 cells).1 ++ dataOf cells) := by
    rw [packCells, writeCells_data, append_assoc]
  have bit : testBit (packCells cells) i = isNull cell := by
    rw [whole, testBit_append (by rw [bitmap]; exact bitmap_holds inside), testBit_nullBits here]
  unfold PackedRow.getColumn
  simp only [rowAs, numCols_toNat, all, bit]
  rw [if_neg (by omega)]
  cases null : isNull cell with
  | true => rfl
  | false =>
    have before : (dataOf (cells.take i)).length ≤ (dataOf cells).length := by
      rw [dataOf_split cells i, length_append]
      exact Nat.le_add_right _ _
    have entry : (((packCells cells).drop (nullBitmapSize cells.length + i * 4)).take 4) =
        leBytes 4 (dataOf (cells.take i)).length := by
      rw [whole, ← drop_drop, ← bitmap, drop_left, drop_append_of_le_length,
        take_append_of_le_length, writeCells_offset 0 cells inside, Nat.zero_add]
      · rw [length_drop, writeCells_table_length]
        omega
      · rw [writeCells_table_length]
        omega
    have offset : ofLe (leBytes 4 (dataOf (cells.take i)).length) = (dataOf (cells.take i)).length :=
      ofLe_leBytes (by omega)
    have start : (packCells cells).drop (nullBitmapSize cells.length + cells.length * 4 +
        (dataOf (cells.take i)).length) = dataOf (cells.drop i) := by
      rw [whole, dataOf_split cells i, ← append_assoc, ← append_assoc, drop_left']
      simp only [length_append, bitmap, writeCells_table_length]
    simp only [Bool.false_eq_true, if_false, entry, offset, start]
    split
    · rename_i past
      rw [drop_eq_nil_of_le past] at start
      rw [← start, readValue_nil]
    · rfl

end Layout

section Reading
variable {colType : PackedColumnType} {own rest : Bytes}

def enough (bytes : Bytes) : PackedColumnType → Bool
  | .null => true
  | .bool => 1 ≤ bytes.length
  | .int64 | .uint64 | .float64 => 8 ≤ bytes.length
  | .text | .binary => 4 ≤ bytes.length ∧ 4 + ofLe (bytes.take 4) ≤ bytes.length

theorem readBlock_of_enough (four : 4 ≤ own.length) (block : 4 + ofLe (own.take 4) ≤ own.length) :
    readBlock (own ++ rest) = some ((own.drop 4).take (ofLe (own.take 4))) := by
  unfold readBlock
  rw [if_neg (by rw [length_append]; omega), take_append_of_le_length four]
  rw [if_neg (by rw [length_append]; omega), drop_append_of_le_length four,
    take_append_of_le_length (by rw [length_drop]; omega)]

theorem readBlock_whole (four : 4 ≤ own.length) (block : 4 + ofLe (own.take 4) ≤ own.length) :
    readBlock own = some ((own.drop 4).take (ofLe (own.take 4))) := by
  have alone : readBlock (own ++ []) = _ := readBlock_of_enough four block
  rwa [append_nil] at alone

theorem readValue_of_enough (ample : enough own colType = true) (rest : Bytes) :
    readValue (own ++ rest) colType = readValue own colType := by
  have word : 8 ≤ own.length → readWord (own ++ rest) = readWord own := by
    intro eight
    unfold readWord
    rw [if_neg (by rw [length_append]; omega), if_neg (by omega),
      take_append_of_le_length eight]
  have block : 4 ≤ own.length ∧ 4 + ofLe (own.take 4) ≤ own.length →
      readBlock (own ++ rest) = readBlock own := by
    intro ⟨four, whole⟩
    rw [readBlock_of_enough four whole, readBlock_whole four whole]
  cases colType with
  | null => rfl
  | bool =>
    cases own with
    | nil => cases ample
    | cons b own => rfl
  | int64 | uint64 | float64 =>
    have eight : 8 ≤ own.length := of_decide_eq_true ample
    simp only [readValue, word eight]
  | text | binary =>
    simp only [readValue, block (of_decide_eq_true ample)]

theorem readValue_of_short (short : enough own colType = false) : readValue own colType = .null := by
  have word : ¬ 8 ≤ own.length → readWord own = none := fun few => if_pos (Nat.lt_of_not_le few)
  have block : ¬ (4 ≤ own.length ∧ 4 + ofLe (own.take 4) ≤ own.length) → readBlock own = none := by
    intro few
    unfold readBlock
    split
    · rfl
    · rw [if_pos (by omega)]
  cases colType with
  | null => cases short
  | bool =>
    cases own with
    | nil => rfl
    | cons b own => simp [enough] at short
  | int64 | uint64 | float64 => simp only [readValue, word (of_decide_eq_false short), Option.map_none, Option.getD_none]
  | text | binary =>
    simp [readValue, block (of_decide_eq_false short)]

/-- A column of this type makes a value out of these bytes: there are enough of them and
    those of a text are UTF-8. -/
def legible (bytes : Bytes) (colType : PackedColumnType) : Bool :=
  colType ≠ .null && enough bytes colType &&
    (colType ≠ .text || isUtf8 ((bytes.drop 4).take (ofLe (bytes.take 4))))

theorem readValue_ne_null (bytes : Bytes) (colType : PackedColumnType) :
    readValue bytes colType ≠ .null ↔ legible bytes colType = true := by
  by_cases short : enough bytes colType = false
  · rw [readValue_of_short short]
    simp [legible, short]
  · have ample : enough bytes colType = true := by simpa using short
    have word : 8 ≤ bytes.length → ∃ w, readWord bytes = some w := fun eight =>
      ⟨_, if_neg (Nat.not_lt.mpr eight)⟩
    have block : 4 ≤ bytes.length ∧ 4 + ofLe (bytes.take 4) ≤ bytes.length →
        readBlock bytes = some ((bytes.drop 4).take (ofLe (bytes.take 4))) :=
      fun ⟨four, whole⟩ => readBlock_whole four whole
    cases colType with
    | null => simp [legible, readValue]
    | bool =>
      cases bytes with
      | nil => cases ample
      | cons b bytes => simp [legible, readValue, ample]
    | int64 | uint64 | float64 =>
      obtain ⟨w, read⟩ := word (of_decide_eq_true ample)
      simp [legible, readValue, ample, read]
    | text =>
      rw [readValue, block (of_decide_eq_true ample), Option.bind_some, Str.fromUtf8]
      by_cases valid : isUtf8 ((bytes.drop 4).take (ofLe (bytes.take 4))) = true
      · simp [legible, ample, valid]
      · simp [legible, ample, valid]
    | binary => simp [legible, readValue, ample, block (of_decide_eq_true ample)]

theorem readValue_writeValue {value : SochValue} (typed : HasType colType value) (present : value ≠ .null)
    (small : (writeValue value).length < 2 ^ 32) : readValue (writeValue value) colType = value := by
  have word : ∀ n, n < 2 ^ 64 → readWord (leBytes 8 n) = some (UInt64.ofNat n) := by
    intro n fits
    unfold readWord
    rw [if_neg (by rw [leBytes_length]; omega), take_of_length_le (by rw [leBytes_length]),
      ofLe_leBytes fits]
  have block : ∀ b : Bytes, (leBytes 4 b.length ++ b).length < 2 ^ 32 →
      readBlock (leBytes 4 b.length ++ b) = some b := by
    intro b short
    rw [length_append, leBytes_length] at short
    have length : ofLe ((leBytes 4 b.length ++ b).take 4) = b.length := by
      rw [take_left' (leBytes_length 4 b.length), ofLe_leBytes (by omega)]
    rw [readBlock_whole (by rw [length_append, leBytes_length]; omega)
      (by rw [length, length_append, leBytes_length]), length, drop_left' (leBytes_length 4 b.length),
      take_length]
  cases value with
  | null => exact absurd rfl present
  | bool b =>
    cases colType with
    | bool => cases b <;> rfl
    | _ => cases typed
  | int v =>
    cases colType with
    | int64 => simp [readValue, writeValue, word _ v.toUInt64.toNat_lt]
    | _ => cases typed
  | uint v =>
    cases colType with
    | uint64 => simp [readValue, writeValue, word _ v.toNat_lt]
    | _ => cases typed
  | float v =>
    cases colType with
    | float64 => simp [readValue, writeValue, word _ v.toNat_lt]
    | _ => cases typed
  | text s =>
    cases colType with
    | text =>
      have text : Str.fromUtf8 s.bytes = some s := Str.fromUtf8_some.mpr rfl
      simp [readValue, writeValue, block s.bytes small, text]
    | _ => cases typed
  | binary b =>
    cases colType with
    | binary => simp [readValue, writeValue, block b small]
    | _ => cases typed
  | nested content => cases colType <;> cases typed

theorem enough_written {value : SochValue} (typed : HasType colType value) (present : value ≠ .null)
    (small : (writeValue value).length < 2 ^ 32) : enough (writeValue value) colType = true := by
  by_contra short
  rw [Bool.not_eq_true] at short
  exact present ((readValue_writeValue typed present small).symm.trans (readValue_of_short short))

end Reading

section Isolation

def readBack (schema : PackedTableSchema) (values : Row) (i : Nat) (colType : PackedColumnType) :
    Option SochValue :=
  (RowWriters.pack schema values).bind fun data =>
    (PackedRow.fromBytes data schema.columns.length).toOption.bind (·.getColumn i colType)

def alone (values : Row) (name : Str) : Row := retain (fun other _ => other = name) values

/-- The column is null, or its own value fills what its type reads, or even with all that
    the later columns write there is nothing that the type can read. -/
def Undisturbed (cell : Option SochValue) (later : Bytes) (colType : PackedColumnType) : Prop :=
  isNull cell = true ∨ enough (written cell) colType = true ∨
    legible (written cell ++ later) colType = false

variable {schema : PackedTableSchema} {values : Row} {i : Nat} {col : PackedColumnDef}

def laterData (schema : PackedTableSchema) (values : Row) (i : Nat) : Bytes :=
  dataOf ((PackedRow.cells schema values).drop (i + 1))

theorem cells_at (here : schema.columns[i]? = some col) (values : Row) :
    (PackedRow.cells schema values)[i]? = some (get values col.name) := by
  rw [PackedRow.cells, List.getElem?_map, here]
  rfl

theorem dataOf_from (here : schema.columns[i]? = some col) (values : Row) :
    dataOf ((PackedRow.cells schema values).drop i) =
      written (get values col.name) ++ laterData schema values i := by
  obtain ⟨inside, cell⟩ := List.getElem?_eq_some_iff.mp (cells_at here values)
  rw [drop_eq_getElem_cons inside, cell]
  rfl

theorem readBack_eq (few : schema.columns.length < 65536)
    (fits : (dataOf (PackedRow.cells schema values)).length < 2 ^ 32)
    (here : schema.columns[i]? = some col) (colType : PackedColumnType) :
    readBack schema values i colType = some (if isNull (get values col.name) then .null
      else readValue (written (get values col.name) ++ laterData schema values i) colType) := by
  have count : (PackedRow.cells schema values).length = schema.columns.length := length_map _
  have long : minSize schema.columns.length ≤
      (packCells (PackedRow.cells schema values)).length := by
    rw [packCells, length_append, length_append, nullBits_length,
      writeCells_table_length, count]
    exact Nat.le_add_right _ _
  have opened : (PackedRow.fromBytes (packCells (PackedRow.cells schema values))
      schema.columns.length).toOption =
        some (rowAs schema.columns.length (packCells (PackedRow.cells schema values))) := by
    rw [fromBytes_eq, if_pos long]
  have read := getColumn_packed (by rw [count]; exact few) fits (cells_at here values) colType
  rw [count, dataOf_from here] at read
  rw [readBack, (packSlice_eq_pack schema values).2, Option.bind_some]
  exact (congrArg (·.bind (·.getColumn i colType)) opened).trans read

theorem get_alone (values : Row) (name other : Str) :
    get (alone values name) other = if other = name then get values other else none := by
  rw [alone, get_retain]
  by_cases same : other = name
  · cases get values other <;> simp [same]
  · simp [same]

theorem laterData_alone (distinctNames : (schema.columns.map PackedColumnDef.name).Nodup)
    (here : schema.columns[i]? = some col) (values : Row) :
    laterData schema (alone values col.name) i = [] := by
  unfold laterData dataOf
  rw [flatMap_eq_nil_iff]
  intro cell member
  obtain ⟨j, at_j⟩ := mem_iff_getElem?.mp member
  rw [List.getElem?_drop, PackedRow.cells, List.getElem?_map, Option.map_eq_some_iff] at at_j
  obtain ⟨other, there, rfl⟩ := at_j
  have different : other.name ≠ col.name := by
    intro same
    have names : (schema.columns.map PackedColumnDef.name)[i + 1 + j]? =
        (schema.columns.map PackedColumnDef.name)[i]? := by
      rw [List.getElem?_map, List.getElem?_map, here, there]
      exact congrArg some same
    have inside : i + 1 + j < (schema.columns.map PackedColumnDef.name).length := by
      rw [length_map]
      exact (List.getElem?_eq_some_iff.mp there).1
    have := (List.getElem?_inj inside distinctNames).mp names
    omega
  rw [get_alone, if_neg different]
  rfl

theorem written_alone_le (values : Row) (name other : Str) :
    (written (get (alone values name) other)).length ≤ (written (get values other)).length := by
  rw [get_alone]
  split
  · exact Nat.le_refl _
  · exact Nat.zero_le _

theorem alone_fits (fits : (dataOf (PackedRow.cells schema values)).length < 2 ^ 32) (name : Str) :
    (dataOf (PackedRow.cells schema (alone values name))).length < 2 ^ 32 := by
  apply Nat.lt_of_le_of_lt _ fits
  unfold dataOf PackedRow.cells
  rw [length_flatMap, length_flatMap, map_map, map_map]
  exact sum_le_sum fun col _ => written_alone_le values name col.name

theorem written_fits (fits : (dataOf (PackedRow.cells schema values)).length < 2 ^ 32)
    (here : schema.columns[i]? = some col) : (written (get values col.name)).length < 2 ^ 32 := by
  rw [dataOf_split _ i, dataOf_from here, length_append, length_append] at fits
  omega

/-- Reading on into the later columns changes nothing exactly when the column is
    undisturbed. -/
theorem undisturbed_iff (cell : Option SochValue) (later : Bytes) (colType : PackedColumnType) :
    some (if isNull cell then SochValue.null else readValue (written cell ++ later) colType) =
        some (if isNull cell then SochValue.null else readValue (written cell) colType) ↔
      Undisturbed cell later colType := by
  unfold Undisturbed
  rw [Option.some.injEq]
  cases isNull cell with
  | true => simp
  | false =>
    cases ample : enough (written cell) colType with
    | true => simp [readValue_of_enough ample]
    | false =>
      have illegible := (readValue_ne_null (written cell ++ later) colType).not
      rw [readValue_of_short ample]
      simpa using illegible

/-- Under the limits of the format all writers agree, a value of its column's type is
    read back, and what a column reads is what it would read if no other column had a
    value exactly when it is undisturbed. -/
theorem columns_kept_apart_iff (schema : PackedTableSchema)
    (distinctNames : (schema.columns.map PackedColumnDef.name).Nodup)
    (few : schema.columns.length < 65536) (values : Row)
    (fits : (dataOf (PackedRow.cells schema values)).length < 2 ^ 32) :
    (RowWriters.packSlice schema (PackedRow.cells schema values) = RowWriters.pack schema values ∧
      (RowWriters.pack schema values).isSome) ∧
    ∀ i col, schema.columns[i]? = some col →
      (∀ value, get values col.name = some value → HasType col.colType value →
        readBack schema values i col.colType = some value) ∧
      (isNull (get values col.name) = true → readBack schema values i col.colType = some .null) ∧
      (readBack schema values i col.colType = readBack schema (alone values col.name) i col.colType ↔
        Undisturbed (get values col.name) (laterData schema values i) col.colType) := by
  obtain ⟨slices, whole⟩ := packSlice_eq_pack schema values
  refine ⟨⟨slices.trans whole.symm, by rw [whole]; rfl⟩, fun i col here => ?_⟩
  have read := readBack_eq few fits here col.colType
  have readAlone := readBack_eq few (alone_fits fits col.name) here col.colType
  rw [get_alone, if_pos rfl, laterData_alone distinctNames here, append_nil] at readAlone
  have small := written_fits fits here
  refine ⟨?_, ?_, ?_⟩
  · intro value supplied typed
    rw [supplied] at small read
    rw [read]
    cases null : isNull (some value) with
    | true =>
      cases value with
      | null => rfl
      | _ => cases null
    | false =>
      have present : value ≠ .null := by
        rintro rfl
        cases null
      have ample := enough_written typed present small
      have back := readValue_of_enough ample (laterData schema values i)
      rw [readValue_writeValue typed present small] at back
      exact congrArg some back
  · intro null
    rw [read, if_pos null]
  · rw [read, readAlone]
    exact undisturbed_iff (get values col.name) (laterData schema values i) col.colType

def twoIntegers : PackedTableSchema where
  name := ⟨[116], by decide⟩
  columns := [⟨⟨[97], by decide⟩, .int64, true⟩, ⟨⟨[98], by decide⟩, .int64, true⟩]

theorem array_column_reads_its_neighbour :
    let a : Str := ⟨[97], by decide⟩
    let b : Str := ⟨[98], by decide⟩
    let values : Row := (((∅ : Row).insert a (.nested [])).insert b (.int 7))
    let flagged : Row := (((∅ : Row).insert a (.bool true)).insert b (.int 7))
    readBack twoIntegers values 0 .int64 = some (.int 7) ∧
      readBack twoIntegers (alone values a) 0 .int64 = some .null ∧
      readBack twoIntegers flagged 0 .int64 = some (.int 1793) ∧
      readBack twoIntegers (alone flagged a) 0 .int64 = some .null := by
  decide +kernel

theorem two_integers_kept_apart :
    let a : Str := ⟨[97], by decide⟩
    let b : Str := ⟨[98], by decide⟩
    let values : Row := (((∅ : Row).insert a (.int 5)).insert b (.int 7))
    (twoIntegers.columns.map PackedColumnDef.name).Nodup ∧ twoIntegers.columns.length < 65536 ∧
      (dataOf (PackedRow.cells twoIntegers values)).length < 2 ^ 32 ∧
      readBack twoIntegers values 0 .int64 = some (.int 5) ∧
      readBack twoIntegers values 0 .int64 = readBack twoIntegers (alone values a) 0 .int64 := by
  intro a b values
  have distinct : (twoIntegers.columns.map PackedColumnDef.name).Nodup := by decide
  have few : twoIntegers.columns.length < 65536 := by decide
  have fits : (dataOf (PackedRow.cells twoIntegers values)).length < 2 ^ 32 := by decide +kernel
  have supplied : get values a = some (.int 5) := by decide +kernel
  have first := (columns_kept_apart_iff twoIntegers distinct few values fits).2 0 ⟨a, .int64, true⟩ rfl
  have undisturbed : Undisturbed (get values a) (laterData twoIntegers values 0) .int64 := by
    rw [supplied]
    exact Or.inr (Or.inl (by decide +kernel))
  exact ⟨distinct, few, fits, first.1 (.int 5) supplied trivial, first.2.2.mpr undisturbed⟩

end Isolation
end ColumnIsolation
