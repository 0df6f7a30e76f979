import SochDB.Columnar
import SochDB.DatabaseKernel

/-!
Path queries and their three front ends: materialised rows, a lazy iterator and typed
columns. Each of them scans, tests the shape of a key and counts offset and limit on its
own, so each is modelled with its own loop.
-/
namespace Queries
open KeyedMaps Utf8 WalRecords BloomFilter PackedRows RowKeys DatabaseKernel Columnar

/-- The order in which the values of a `HashMap` of rows come out. Its hasher is seeded at
    random, so nothing more is known about it. -/
structure RowOrder where
  intoValues : Map Bytes Row → List Row
  perm : ∀ m, (intoValues m).Perm ((pairs m).map Prod.snd)

def RowOrder.insertion : RowOrder := ⟨fun m => (pairs m).map Prod.snd, fun _ => List.Perm.refl _⟩

structure QueryBuilder where
  txn : Nat
  pathPrefix : Str
  columns : Option (List Str)
  limit : Option Nat
  offset : Option Nat

structure QueryResult where
  columns : List Str
  rows : List Row
  rowsScanned : Nat
  bytesRead : Nat

def skip {α : Type} (offset : Option Nat) (rows : List α) : List α :=
  match offset with
  | some n => rows.drop n
  | none => rows

def truncate {α : Type} (limit : Option Nat) (rows : List α) : List α :=
  match limit with
  | some n => rows.take n
  | none => rows

def slashText : Str := Str.ascii "/"

def tableName (path : Str) : Str := ((path.split slash).head?).getD path

/-- A key of the form `table/row_id`. -/
def isRowPath (path : Str) : Bool := (path.split slash).length = 2

/-- The value of a column in the format with one key per column. -/
def deserializeValue : Bytes → SochValue
  | [] => .null
  | tag :: rest =>
    if tag = 0 then .null
    else if tag = 1 ∧ 8 ≤ rest.length then ((readWord rest).map fun w => .int w.toInt64).getD .null
    else if tag = 2 ∧ 8 ≤ rest.length then ((readWord rest).map .uint).getD .null
    else if tag = 3 ∧ 8 ≤ rest.length then ((readWord rest).map .float).getD .null
    else if tag = 4 then .text (Str.fromUtf8Lossy rest)
    else if tag = 5 ∧ 1 ≤ rest.length then .bool (rest.headD 0 != 0)
    else if tag = 6 then .binary rest
    else .text (Str.fromUtf8Lossy (tag :: rest))

def shownColumns (packedSchema : PackedTableSchema) (columns : Option (List Str)) (packed : PackedRow) :
    Row :=
  match columns with
  | some cols => Database.project packedSchema packed cols
  | none => packed.unpack packedSchema

def packedStep (packedSchema : PackedTableSchema) (columns : Option (List Str))
    (acc : List Row × Nat) (entry : Str × Bytes) : List Row × Nat :=
  if isRowPath entry.1 then
    let bytesRead := acc.2 + entry.2.length
    match PackedRow.fromBytes entry.2 packedSchema.numColumns with
    | .error _ => (acc.1, bytesRead)
    | .ok packed =>
      let row := shownColumns packedSchema columns packed
      if isEmpty row then (acc.1, bytesRead) else (acc.1 ++ [row], bytesRead)
  else acc

def legacyStep (columns : Option (List Str)) (acc : Map Bytes Row × Nat) (entry : Str × Bytes) :
    Map Bytes Row × Nat :=
  match entry.1.split slash with
  | first :: second :: third :: rest =>
    let rowKey := first.bytes ++ slash :: second.bytes
    let colName := Str.join slashText (third :: rest)
    if columns.any fun cols => !cols.contains colName then acc
    else
      (upsert acc.1 rowKey ∅ fun row => row.insert colName (deserializeValue entry.2),
        acc.2 + entry.2.length)
  | _ => acc

def columnNames (rows : List Row) : List Str := (rows.flatMap fun row => (pairs row).map Prod.fst).dedup

structure QueryRowIterator where
  results : List (Str × Bytes)
  packedSchema : Option PackedTableSchema
  columns : Option (List Str)
  offset : Nat
  limit : Option Nat
  yielded : Nat
  skipped : Nat

namespace QueryRowIterator

def rowValues (packedSchema : PackedTableSchema) (columns : Option (List Str)) (packed : PackedRow) :
    List SochValue :=
  match columns with
  | some cols => cols.map fun name => (packed.getByName packedSchema name).getD .null
  | none => packed.unpackToVec packedSchema

/-- The loop of `next`. An undecodable row is an item, but it does not count as yielded. -/
def advance (iter : QueryRowIterator) :
    List (Str × Bytes) → Option (Except SochDBError (List SochValue)) × QueryRowIterator
  | [] => (none, { iter with results := [] })
  | entry :: rest =>
    if !isRowPath entry.1 then advance iter rest
    else if iter.skipped < iter.offset then advance { iter with skipped := iter.skipped + 1 } rest
    else
      match iter.packedSchema with
      | none => (some (.ok [.binary entry.2]), { iter with results := rest, yielded := iter.yielded + 1 })
      | some packedSchema =>
        match PackedRow.fromBytes entry.2 packedSchema.numColumns with
        | .error e => (some (.error e), { iter with results := rest })
        | .ok packed =>
          (some (.ok (rowValues packedSchema iter.columns packed)),
            { iter with results := rest, yielded := iter.yielded + 1 })

def next (iter : QueryRowIterator) :
    Option (Except SochDBError (List SochValue)) × QueryRowIterator :=
  if iter.limit.any (· ≤ iter.yielded) then (none, iter) else iter.advance iter.results

/-- The items of at most this many calls of `next`, up to the first that gives none. -/
def items : Nat → QueryRowIterator → List (Except SochDBError (List SochValue))
  | 0, _ => []
  | calls + 1, iter =>
    match iter.next with
    | (none, _) => []
    | (some item, iter) => item :: items calls iter

end QueryRowIterator

structure ColumnarQueryResult where
  columns : List Str
  data : List TypedColumn
  rowCount : Nat
  bytesRead : Nat

namespace ColumnarQueryResult

def empty : ColumnarQueryResult := ⟨[], [], 0, 0⟩

def rowValues (result : ColumnarQueryResult) (idx : Nat) : Option (List SochValue) :=
  result.data.mapM fun column => column.valueAt idx

def pushRow (result : ColumnarQueryResult) (packedSchema : PackedTableSchema) (packed : PackedRow) :
    ColumnarQueryResult :=
  { result with
    data := List.zipWith (fun column name => column.pushValue (packed.getByName packedSchema name))
      result.data result.columns
    rowCount := result.rowCount + 1 }

/-- The loop over the scanned entries; the limit ends it before the next row is decoded. -/
def collect (packedSchema : PackedTableSchema) (offset limit : Option Nat) (skipped : Nat)
    (result : ColumnarQueryResult) : List (Str × Bytes) → ColumnarQueryResult
  | [] => result
  | entry :: rest =>
    if !isRowPath entry.1 then collect packedSchema offset limit skipped result rest
    else if offset.any (skipped < ·) then collect packedSchema offset limit (skipped + 1) result rest
    else if limit.any (· ≤ result.rowCount) then result
    else
      let result := { result with bytesRead := result.bytesRead + entry.2.length }
      match PackedRow.fromBytes entry.2 packedSchema.numColumns with
      | .error _ => collect packedSchema offset limit skipped result rest
      | .ok packed =>
        collect packedSchema offset limit skipped (result.pushRow packedSchema packed) rest

end ColumnarQueryResult

def newColumn (packedSchema : PackedTableSchema) (name : Str) : TypedColumn :=
  TypedColumn.new
    ((((packedSchema.columnIndex name).bind packedSchema.column).map PackedColumnDef.colType).getD .text)

namespace QueryBuilder
variable {H : KeyHashes} (db : Database H) (q : QueryBuilder)

def schema : Option TableSchema := db.getTableSchema (tableName q.pathPrefix)

def packedSchema : Option PackedTableSchema := get db.catalog.packedSchemas (tableName q.pathPrefix)

/-- A registered table queried by its bare name is scanned by `table/`, so that tables whose
    names extend it stay apart. -/
def scanText : Str :=
  if (q.schema db).isSome && !q.pathPrefix.bytes.contains slash then q.pathPrefix.append slashText
  else q.pathPrefix

def finish (found : List Row × Nat) : QueryResult :=
  let rows := truncate q.limit (skip q.offset found.1)
  ⟨q.columns.getD (columnNames rows), rows, rows.length, found.2⟩

def execute (order : RowOrder) : Except SochDBError QueryResult :=
  (db.scanPath q.txn (q.scanText db)).map fun results =>
    match q.schema db with
    | some schema =>
      let packedSchema := (q.packedSchema db).getD (toPackedSchema schema)
      q.finish (results.foldl (packedStep packedSchema q.columns) ([], 0))
    | none =>
      let found := results.foldl (legacyStep q.columns) (∅, 0)
      q.finish (order.intoValues found.1, found.2)

def executeIter : Except SochDBError QueryRowIterator :=
  (db.scanPath q.txn q.pathPrefix).map fun results =>
    ⟨results, q.packedSchema db, q.columns, q.offset.getD 0, q.limit, 0, 0⟩

def asColumnar : Except SochDBError ColumnarQueryResult :=
  match q.packedSchema db with
  | none => .ok ColumnarQueryResult.empty
  | some packedSchema =>
    let names := q.columns.getD (((q.schema db).map fun s => s.columns.map ColumnDef.name).getD [])
    if names.isEmpty then .ok ColumnarQueryResult.empty
    else
      (db.scanPath q.txn q.pathPrefix).map fun results =>
        ColumnarQueryResult.collect packedSchema q.offset q.limit 0
          ⟨names, names.map (newColumn packedSchema), 0, 0⟩ results

end QueryBuilder
end Queries
