import SochDB.Library.KeyedMaps
import SochDB.Library.Utf8
import SochDB.WalRecords

/-!
The packed row format: a bitmap of the columns that are null, one offset per column and
the encoded values. A row read under the schema that packed it gives back the values that
have the type of their column.
-/
namespace PackedRows
open LittleEndian KeyedMaps Utf8 WalRecords List

/-- Floating-point numbers are their bit patterns. Arrays, objects and references are one
    constructor, because no modelled function looks inside them. -/
inductive SochValue where
  | null
  | bool (b : Bool)
  | int (i : Int64)
  | uint (u : UInt64)
  | float (bits : UInt64)
  | text (s : Str)
  | binary (b : Bytes)
  | nested (content : Bytes)
  deriving DecidableEq

abbrev Row := Map Str SochValue

inductive PackedColumnType where
  | bool | int64 | uint64 | float64 | text | binary | null
  deriving DecidableEq, Repr

structure PackedColumnDef where
  name : Str
  colType : PackedColumnType
  nullable : Bool
  deriving DecidableEq

structure PackedTableSchema where
  name : Str
  columns : List PackedColumnDef
  deriving DecidableEq

namespace PackedTableSchema
variable (schema : PackedTableSchema)

def columnIndex (name : Str) : Option Nat := schema.columns.findIdx? fun c => c.name = name

def column (idx : Nat) : Option PackedColumnDef := schema.columns[idx]?

def numColumns : Nat := schema.columns.length

end PackedTableSchema

def isNull : Option SochValue → Bool
  | none | some .null => true
  | _ => false

def writeValue : SochValue → Bytes
  | .null => []
  | .bool b => [if b then 1 else 0]
  | .int i => leBytes 8 i.toUInt64.toNat
  | .uint u => leBytes 8 u.toNat
  | .float bits => leBytes 8 bits.toNat
  | .text s => leBytes 4 s.bytes.length ++ s.bytes
  | .binary b => leBytes 4 b.length ++ b
  | .nested _ => []

/-- `data[..8]` as a 64-bit number, if there are that many bytes. -/
def readWord (data : Bytes) : Option UInt64 :=
  if data.length < 8 then none else some (UInt64.ofNat (ofLe (data.take 8)))

def readBlock (data : Bytes) : Option Bytes :=
  if data.length < 4 then none
  else
    let len := ofLe (data.take 4)
    if data.length < 4 + len then none else some ((data.drop 4).take len)

def readValue (data : Bytes) : PackedColumnType → SochValue
  | .null => .null
  | .bool =>
    match data with
    | [] => .null
    | b :: _ => .bool (b != 0)
  | .int64 => ((readWord data).map fun w => .int w.toInt64).getD .null
  | .uint64 => ((readWord data).map .uint).getD .null
  | .float64 => ((readWord data).map .float).getD .null
  | .text => ((readBlock data).bind fun b => (Str.fromUtf8 b).map .text).getD .null
  | .binary => ((readBlock data).map .binary).getD .null

def HasType : PackedColumnType → SochValue → Prop
  | _, .null => True
  | .bool, .bool _ => True
  | .int64, .int _ => True
  | .uint64, .uint _ => True
  | .float64, .float _ => True
  | .text, .text _ => True
  | .binary, .binary _ => True
  | _, _ => False

theorem readValue_hasType (data : Bytes) (colType : PackedColumnType) :
    HasType colType (readValue data colType) := by
  cases colType with
  | null => trivial
  | bool => cases data <;> trivial
  | int64 | uint64 | float64 => cases word : readWord data <;> simp [readValue, word, HasType]
  | text =>
    cases read : (readBlock data).bind fun b => (Str.fromUtf8 b).map SochValue.text with
    | none => simp [readValue, read, HasType]
    | some value =>
      obtain ⟨b, _, text⟩ := Option.bind_eq_some_iff.mp read
      obtain ⟨s, _, rfl⟩ := Option.map_eq_some_iff.mp text
      simp [readValue, read, HasType]
  | binary => cases read : readBlock data <;> simp [readValue, read, HasType]

theorem readBlock_short {data block : Bytes} (read : readBlock data = some block) :
    block.length < 2 ^ 32 := by
  unfold readBlock at read
  split at read
  · cases read
  · simp only at read
    split at read
    · cases read
    · cases read
      have size : (data.take 4).length = 4 := by
        rw [length_take]
        omega
      have small := ofLe_lt (data.take 4)
      rw [size] at small
      rw [length_take]
      omega

def nullBitmapSize (k : Nat) : Nat := (k + 7) / 8

def setBit (bits : Bytes) (i : Nat) : Bytes :=
  bits.modify (i / 8) (· ||| 1 <<< UInt8.ofNat (i % 8))

def testBit (data : Bytes) (i : Nat) : Bool := data.getD (i / 8) 0 &&& 1 <<< UInt8.ofNat (i % 8) != 0

def nullBits (cells : List (Option SochValue)) : Bytes :=
  cells.zipIdx.foldl (fun bits cell => if isNull cell.1 then setBit bits cell.2 else bits)
    (List.replicate (nullBitmapSize cells.length) 0)

/-- The offsets and the data of the cells, from a position in the data section on. An
    offset keeps its low 32 bits. -/
def writeCells (position : Nat) : List (Option SochValue) → Bytes × Bytes
  | [] => ([], [])
  | cell :: cells =>
    let value := (cell.map writeValue).getD []
    let rest := writeCells (position + value.length) cells
    (leBytes 4 position ++ rest.1, value ++ rest.2)

def packCells (cells : List (Option SochValue)) : Bytes :=
  nullBits cells ++ (writeCells 0 cells).1 ++ (writeCells 0 cells).2

structure PackedRow where
  data : Bytes
  numCols : UInt16
  nullBitmapSize : Nat

namespace PackedRow

def cells (schema : PackedTableSchema) (values : Row) : List (Option SochValue) :=
  schema.columns.map fun col => get values col.name

def pack (schema : PackedTableSchema) (values : Row) : PackedRow where
  data := packCells (cells schema values)
  numCols := UInt16.ofNat schema.columns.length
  nullBitmapSize := PackedRows.nullBitmapSize schema.columns.length

/-- Both the stack and the heap variant of the source build these bytes. -/
def packSlice (schema : PackedTableSchema) (values : List (Option SochValue)) : PackedRow where
  data := packCells values
  numCols := UInt16.ofNat schema.columns.length
  nullBitmapSize := PackedRows.nullBitmapSize schema.columns.length

def asBytes (row : PackedRow) : Bytes := row.data

def fromBytes (data : Bytes) (numCols : Nat) : Except SochDBError PackedRow :=
  let minSize := PackedRows.nullBitmapSize numCols + numCols * 4
  if data.length < minSize then
    .error (.internal ("PackedRow data too short: " ++ toString data.length ++ " < " ++ toString minSize))
  else .ok ⟨data, UInt16.ofNat numCols, PackedRows.nullBitmapSize numCols⟩

variable (row : PackedRow)

def getColumn (idx : Nat) (colType : PackedColumnType) : Option SochValue :=
  if idx ≥ row.numCols.toNat then none
  else if testBit row.data idx then some .null
  else
    let offset := ofLe ((row.data.drop (row.nullBitmapSize + idx * 4)).take 4)
    let valueStart := row.nullBitmapSize + row.numCols.toNat * 4 + offset
    if valueStart ≥ row.data.length then some .null
    else some (readValue (row.data.drop valueStart) colType)

def getByName (schema : PackedTableSchema) (name : Str) : Option SochValue :=
  (schema.columnIndex name).bind fun idx =>
    (schema.column idx).bind fun col => row.getColumn idx col.colType

/-- A null is left out where the column is declared not null. -/
def unpack (schema : PackedTableSchema) : Row :=
  schema.columns.zipIdx.foldl (fun result col =>
    match row.getColumn col.2 col.1.colType with
    | some value => if value ≠ .null ∨ col.1.nullable then result.insert col.1.name value else result
    | none => result) ∅

def unpackToVec (schema : PackedTableSchema) : List SochValue :=
  schema.columns.zipIdx.map fun col => (row.getColumn col.2 col.1.colType).getD .null

variable {row} {schema : PackedTableSchema}
variable {idx : Nat} {name : Str}

theorem getColumn_hasType {colType : PackedColumnType} {value : SochValue}
    (read : row.getColumn idx colType = some value) : HasType colType value := by
  unfold getColumn at read
  split at read
  · cases read
  · split at read
    · cases read
      cases colType <;> trivial
    · simp only at read
      split at read
      · cases read
        cases colType <;> trivial
      · cases read
        exact readValue_hasType _ colType

theorem columnIndex_spec (found : schema.columnIndex name = some idx) :
    ∃ col, schema.columns[idx]? = some col ∧ col.name = name := by
  obtain ⟨within, named, _⟩ := List.findIdx?_eq_some_iff_getElem.mp found
  exact ⟨schema.columns[idx], List.getElem?_eq_getElem within, of_decide_eq_true named⟩

theorem columnIndex_of_column {col : PackedColumnDef} (here : schema.columns[idx]? = some col) :
    ∃ first, schema.columnIndex col.name = some first := by
  apply Option.isSome_iff_exists.mp
  rw [PackedTableSchema.columnIndex, List.findIdx?_isSome, any_eq_true]
  exact ⟨col, mem_of_getElem? here, decide_eq_true rfl⟩

theorem getByName_eq {col : PackedColumnDef} (found : schema.columnIndex name = some idx)
    (here : schema.columns[idx]? = some col) :
    row.getByName schema name = row.getColumn idx col.colType := by
  rw [getByName, found, Option.bind_some, PackedTableSchema.column, here, Option.bind_some]

def unpacked (row : PackedRow) (col : PackedColumnDef × Nat) : Option (Str × SochValue) :=
  ((row.getColumn col.2 col.1.colType).filter fun value => value ≠ .null ∨ col.1.nullable).map
    fun value => (col.1.name, value)

theorem get_unpack (name : Str) :
    get (row.unpack schema) name = lastValue (schema.columns.zipIdx.filterMap (unpacked row)) name := by
  have step : row.unpack schema =
      schema.columns.zipIdx.foldl (fun result col => assign result (unpacked row col)) ∅ := by
    unfold unpack
    congr 1
    funext result col
    unfold unpacked
    cases row.getColumn col.2 col.1.colType with
    | none => rfl
    | some value => 
      by_cases kept : value ≠ .null ∨ col.1.nullable = true <;> simp [Option.filter, kept, assign]
  rw [step, get_assignments, get_empty, Option.or_none]

theorem mem_unpacked {value : SochValue} :
    (name, value) ∈ schema.columns.zipIdx.filterMap (unpacked row) ↔
      ∃ idx col, schema.columns[idx]? = some col ∧ col.name = name ∧
        row.getColumn idx col.colType = some value ∧ (value ≠ .null ∨ col.nullable = true) := by
  simp only [mem_filterMap, Prod.exists, mem_zipIdx_iff_getElem?, unpacked, Option.map_eq_some_iff,
    Option.filter_eq_some_iff, Prod.mk.injEq, decide_eq_true_eq]
  constructor
  · rintro ⟨col, idx, here, v, ⟨read, kept⟩, rfl, rfl⟩
    exact ⟨idx, col, here, rfl, read, kept⟩
  · rintro ⟨idx, col, here, rfl, read, kept⟩
    exact ⟨col, idx, here, value, ⟨read, kept⟩, rfl, rfl⟩

theorem isEmpty_unpack : isEmpty (row.unpack schema) = false ↔
    ∃ idx col value, schema.columns[idx]? = some col ∧ row.getColumn idx col.colType = some value ∧
      (value ≠ .null ∨ col.nullable = true) := by
  rw [← Bool.not_eq_true, KeyedMaps.isEmpty_iff, not_forall]
  constructor
  · rintro ⟨name, held⟩
    obtain ⟨value, found⟩ := Option.ne_none_iff_exists'.mp held
    rw [get_unpack] at found
    obtain ⟨idx, col, here, _, read, kept⟩ := mem_unpacked.mp (lastValue_mem name found)
    exact ⟨idx, col, value, here, read, kept⟩
  · rintro ⟨idx, col, value, here, read, kept⟩
    refine ⟨col.name, ?_⟩
    rw [get_unpack, ← ne_eq, ← Option.isSome_iff_ne_none, lastValue_isSome]
    exact mem_map.mpr ⟨(col.name, value), mem_unpacked.mpr ⟨idx, col, here, rfl, read, kept⟩, rfl⟩

def OneValuePerName (schema : PackedTableSchema) (row : PackedRow) : Prop :=
  ∀ i j a b, schema.columns[i]? = some a → schema.columns[j]? = some b → a.name = b.name →
    (row.getColumn i a.colType).getD .null = (row.getColumn j b.colType).getD .null

theorem unpackToVec_at (idx : Nat) : (row.unpackToVec schema)[idx]? =
    (schema.columns[idx]?).map fun col => (row.getColumn idx col.colType).getD .null := by
  rw [unpackToVec, List.getElem?_map, List.getElem?_zipIdx, Option.map_map]
  simp [Function.comp_def]

theorem oneValuePerName_iff : OneValuePerName schema row ↔
    row.unpackToVec schema = schema.columns.map fun col => (row.getByName schema col.name).getD .null := by
  constructor
  · intro one
    apply ext_getElem?
    intro idx
    rw [unpackToVec_at, List.getElem?_map]
    cases here : schema.columns[idx]? with
    | none => rfl
    | some col =>
      obtain ⟨first, found⟩ := columnIndex_of_column here
      obtain ⟨other, there, named⟩ := columnIndex_spec found
      rw [Option.map_some, Option.map_some, getByName_eq found there]
      exact congrArg some (one idx first col other here there named.symm)
  · intro same
    have named : ∀ i a, schema.columns[i]? = some a →
        (row.getColumn i a.colType).getD .null = (row.getByName schema a.name).getD .null := by
      intro i a here
      have at_i := congrArg (·[i]?) same
      simp only [unpackToVec_at, List.getElem?_map, here, Option.map_some] at at_i
      exact Option.some.inj at_i
    intro i j a b here there name
    rw [named i a here, named j b there, name]

theorem unpack_value (one : OneValuePerName schema row)
    (member : name ∈ schema.columns.map PackedColumnDef.name) :
    (get (row.unpack schema) name).getD .null = (row.getByName schema name).getD .null := by
  obtain ⟨col, inside, rfl⟩ := mem_map.mp member
  obtain ⟨idx, here⟩ := mem_iff_getElem?.mp inside
  obtain ⟨first, found⟩ := columnIndex_of_column here
  obtain ⟨other, there, named⟩ := columnIndex_spec found
  rw [get_unpack, getByName_eq found there]
  cases last : lastValue (schema.columns.zipIdx.filterMap (unpacked row)) col.name with
  | some value =>
    obtain ⟨j, b, at_j, same, read, _⟩ := mem_unpacked.mp (lastValue_mem col.name last)
    have equal := one j first b other at_j there (same.trans named.symm)
    rw [read] at equal
    exact equal
  | none =>
    -- no column of this name is shown, so the first one holds no value
    rw [Option.getD_none]
    by_contra holds
    cases read : row.getColumn first other.colType with
    | none => exact holds (by rw [read, Option.getD_none])
    | some value =>
      have shown := mem_unpacked.mpr ⟨first, other, there, named, read, Or.inl fun null =>
        holds (by rw [read, null, Option.getD_some])⟩
      have some := (lastValue_isSome col.name).mpr (mem_map.mpr ⟨_, shown, rfl⟩)
      rw [last] at some
      cases some

end PackedRow
end PackedRows
