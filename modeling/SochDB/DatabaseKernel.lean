import SochDB.PackedRows
import SochDB.RowKeys
import SochDB.StorageEngine

/-!
The database kernel over the storage engine: the table catalog, the key-value calls and
the calls for packed table rows. Row insertions are remembered in `inserted`, which no
function reads, so that a result can be compared with what went into a table.
-/
namespace DatabaseKernel
open KeyedMaps Utf8 WalRecords BloomFilter MemTables StorageEngine PackedRows RowKeys

inductive ColumnType where
  | int64 | uint64 | float64 | text | binary | bool
  deriving DecidableEq, Repr

structure ColumnDef where
  name : Str
  colType : ColumnType
  nullable : Bool
  deriving DecidableEq

structure TableSchema where
  name : Str
  columns : List ColumnDef
  deriving DecidableEq

def packedType : ColumnType → PackedColumnType
  | .int64 => .int64
  | .uint64 => .uint64
  | .float64 => .float64
  | .text => .text
  | .binary => .binary
  | .bool => .bool

def toPackedSchema (schema : TableSchema) : PackedTableSchema where
  name := schema.name
  columns := schema.columns.map fun col => ⟨col.name, packedType col.colType, col.nullable⟩

structure Catalog where
  tables : Map Str TableSchema
  packedSchemas : Map Str PackedTableSchema
  inSync : ∀ name, get packedSchemas name = (get tables name).map toPackedSchema

namespace Catalog

def new : Catalog := ⟨∅, ∅, by simp⟩

def insert (catalog : Catalog) (schema : TableSchema) : Catalog where
  tables := catalog.tables.insert schema.name schema
  packedSchemas := catalog.packedSchemas.insert schema.name (toPackedSchema schema)
  inSync := by
    intro name
    rw [get_insert, get_insert]
    split
    · rfl
    · exact catalog.inSync name

def erase (catalog : Catalog) (name : Str) : Catalog where
  tables := catalog.tables.erase name
  packedSchemas := catalog.packedSchemas.erase name
  inSync := by
    intro other
    rw [get_erase, get_erase]
    split
    · rfl
    · exact catalog.inSync other

end Catalog

structure Insertion where
  table : Str
  rowId : UInt64
  row : Bytes
  deriving DecidableEq

structure Database (H : KeyHashes) where
  storage : DurableStorage H
  catalog : Catalog
  inserted : List Insertion

def tableNotFound (table : Str) : SochDBError :=
  .invalidArgument ("Table '" ++ table.display ++ "' not found")

def minScanPrefixLen : Nat := 2

def prefixTooShort (length : Nat) : SochDBError :=
  .invalidArgument ("Prefix too short: " ++ toString length ++ " bytes (minimum " ++
    toString minScanPrefixLen ++ " required). Use scan_unchecked() for unrestricted scans.")

namespace Database
variable {H : KeyHashes} (crc : Crc32fast) (db : Database H)

def openWith (ourPid : UInt32) (file : Bytes) (kind : MemTableType) (enableOrderedIndex : Bool) :
    Database H × Except SochDBError RecoveryStats :=
  let recovered := (DurableStorage.openWith crc ourPid file kind enableOrderedIndex).recover crc
  (⟨recovered.1, .new, []⟩, recovered.2)

def getTableSchema (name : Str) : Option TableSchema := get db.catalog.tables name

def registerTable (schema : TableSchema) : Database H × Except SochDBError Unit :=
  if (db.getTableSchema schema.name).isSome then
    (db, .error (.invalidArgument ("Table '" ++ schema.name.display ++ "' already exists")))
  else ({ db with catalog := db.catalog.insert schema }, .ok ())

def updateTableSchema (oldName : Str) (schema : TableSchema) : Database H × Except SochDBError Unit :=
  if (db.getTableSchema oldName).isSome then
    ({ db with catalog := (db.catalog.erase oldName).insert schema }, .ok ())
  else (db, .error (tableNotFound oldName))

def beginTransaction (now : UInt64) : Database H × Nat :=
  ({ db with storage := (db.storage.beginTransaction crc now).1 }, (db.storage.beginTransaction crc now).2)

def beginReadOnlyFast : Database H × Nat :=
  ({ db with storage := db.storage.beginReadOnlyFast.1 }, db.storage.beginReadOnlyFast.2)

def abortReadOnlyFast (txn : Nat) : Database H :=
  { db with storage := db.storage.abortReadOnlyFast txn }

def commit (txn : Nat) (shouldSync : Bool) (now : UInt64) : Database H × Except SochDBError Nat :=
  ({ db with storage := (db.storage.commit crc txn shouldSync now).1 },
    (db.storage.commit crc txn shouldSync now).2)

def abort (txn : Nat) (now : UInt64) : Database H :=
  { db with storage := db.storage.abort crc txn now }

def put (txn : Nat) (now : UInt64) (key value : Bytes) : Database H × Except SochDBError Unit :=
  ({ db with storage := (db.storage.writeRefs crc txn now key value).1 },
    (db.storage.writeRefs crc txn now key value).2)

def get (txn : Nat) (key : Bytes) : Database H × Except SochDBError (Option Bytes) :=
  ({ db with storage := (db.storage.read txn key).1 }, (db.storage.read txn key).2)

def delete (txn : Nat) (now : UInt64) (key : Bytes) : Database H × Except SochDBError Unit :=
  ({ db with storage := (db.storage.delete crc txn now key).1 }, (db.storage.delete crc txn now key).2)

/-- The answer of the store. The compaction that a scan may make changes no later read or
    scan by prefix, and the database goes on with the index as it was. -/
def scan (txn : Nat) (pre : Bytes) : Except SochDBError (List Pair) :=
  if pre.length < minScanPrefixLen then .error (prefixTooShort pre.length) else (db.storage.scan txn pre).2

/-- Keys that are not text are left out. -/
def scanPath (txn : Nat) (pre : Str) : Except SochDBError (List (Str × Bytes)) :=
  (db.scan txn pre.bytes).map fun results =>
    results.filterMap fun pair => (Str.fromUtf8 pair.1).map fun path => (path, pair.2)

def putRow (txn : Nat) (now : UInt64) (table : Str) (rowId : UInt64) (row : PackedRow) :
    Database H × Except SochDBError Unit :=
  let key := KeyBuffer.formatRowKey table rowId
  match db.put crc txn now key row.asBytes with
  | (db, .ok ()) => ({ db with inserted := ⟨table, rowId, row.asBytes⟩ :: db.inserted }, .ok ())
  | (db, .error e) => (db, .error e)

def insertRow (txn : Nat) (now : UInt64) (table : Str) (rowId : UInt64) (values : Row) :
    Database H × Except SochDBError Unit :=
  match KeyedMaps.get db.catalog.packedSchemas table with
  | none => (db, .error (tableNotFound table))
  | some packedSchema => db.putRow crc txn now table rowId (PackedRow.pack packedSchema values)

/-- The columns of a row that are in the schema, nulls included. -/
def project (packedSchema : PackedTableSchema) (row : PackedRow) (columns : List Str) : Row :=
  columns.foldl (fun result name =>
    match row.getByName packedSchema name with
    | none => result
    | some value => result.insert name value) ∅

def readRow (txn : Nat) (table : Str) (rowId : UInt64) (columns : Option (List Str)) :
    Database H × Except SochDBError (Option Row) :=
  match db.getTableSchema table with
  | none => (db, .error (tableNotFound table))
  | some schema =>
    match db.get txn (KeyBuffer.formatRowKey table rowId) with
    | (db, .error e) => (db, .error e)
    | (db, .ok none) => (db, .ok none)
    | (db, .ok (some bytes)) =>
      match KeyedMaps.get db.catalog.packedSchemas table with
      | none => (db, .error (.internal "Packed schema not found"))
      | some packedSchema =>
        match PackedRow.fromBytes bytes packedSchema.numColumns with
        | .error e => (db, .error e)
        | .ok row =>
          let names := columns.getD (schema.columns.map ColumnDef.name)
          (db, .ok (some (project packedSchema row names)))

theorem get_project (packedSchema : PackedTableSchema) (row : PackedRow) (columns : List Str) (name : Str) :
    KeyedMaps.get (project packedSchema row columns) name =
      if name ∈ columns then row.getByName packedSchema name else none := by
  have step : project packedSchema row columns = columns.foldl (fun result column =>
      assign result ((row.getByName packedSchema column).map fun value => (column, value))) ∅ := by
    unfold project
    congr 1
    funext result column
    cases row.getByName packedSchema column <;> rfl
  rw [step, get_assignments, get_empty, Option.or_none]
  have listed : ∀ value, (name, value) ∈ columns.filterMap (fun column =>
      (row.getByName packedSchema column).map fun value => (column, value)) ↔
        name ∈ columns ∧ row.getByName packedSchema name = some value := by
    intro value
    simp only [List.mem_filterMap, Option.map_eq_some_iff, Prod.mk.injEq]
    constructor
    · rintro ⟨column, member, v, read, rfl, rfl⟩
      exact ⟨member, read⟩
    · rintro ⟨member, read⟩
      exact ⟨name, member, value, read, rfl, rfl⟩
  cases last : lastValue (columns.filterMap fun column =>
      (row.getByName packedSchema column).map fun value => (column, value)) name with
  | some value =>
    obtain ⟨member, read⟩ := (listed value).mp (lastValue_mem name last)
    rw [if_pos member, read]
  | none =>
    split
    · rename_i member
      cases read : row.getByName packedSchema name with
      | none => rfl
      | some value =>
        have some := (lastValue_isSome name).mpr (List.mem_map.mpr ⟨_, (listed value).mpr ⟨member, read⟩, rfl⟩)
        rw [last] at some
        cases some
    · rfl

end Database
end DatabaseKernel
