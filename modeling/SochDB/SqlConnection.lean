import SochDB.Queries
import SochDB.SqlExpressions

/-!
The SQL connection over the database kernel: row ids, the statements that read and write
rows, table definitions, and the transaction that a connection holds open. A statement
takes the state of the database and of the connection to new ones and to a result.
-/
namespace SqlConnection
open KeyedMaps Utf8 WalRecords BloomFilter PackedRows RowKeys DatabaseKernel Queries SqlExpressions

structure OrderByItem where
  expr : Expr
  asc : Bool

structure Assignment where
  column : Str
  value : Expr

inductive DataType where
  | tinyInt | smallInt | int | bigInt | float | double | decimal (precision scale : Option UInt32)
  | char (size : Option UInt32) | varchar (size : Option UInt32) | text
  | binary (size : Option UInt32) | varbinary (size : Option UInt32) | blob
  | date | time | timestamp | dateTime | interval
  | boolean
  | json | jsonb
  | vector (dimensions : UInt32) | embedding (dimensions : UInt32)
  | custom (name : Str)

inductive ColumnConstraint where
  | notNull | null | unique | primaryKey | other
  deriving DecidableEq

structure SqlColumnDef where
  name : Str
  dataType : DataType
  constraints : List ColumnConstraint

structure CreateTableStmt where
  ifNotExists : Bool
  name : Str
  columns : List SqlColumnDef

structure DropTableStmt where
  ifExists : Bool
  names : List Str

inductive AlterColumnOp where
  | setType (dataType : DataType)
  | setNotNull
  | dropNotNull
  | setDefault
  | dropDefault

inductive AlterTableOp where
  | addColumn (col : SqlColumnDef)
  | dropColumn (name : Str)
  | alterColumn (name : Str) (operation : AlterColumnOp)
  | addConstraint
  | dropConstraint
  | renameTable (newName : Str)
  | renameColumn (oldName newName : Str)

structure AlterTableStmt where
  name : Str
  operations : List AlterTableOp

/-- An error of the kernel is kept behind the text that the connection puts before it. -/
inductive SqlError where
  | executionError (context : String) (cause : SochDBError)
  | transactionError (message : String)
  | commitError (context : String) (cause : SochDBError)
  | invalidArgument (message : String)
  | notImplemented (message : String)
  | tableNotFound (table : Str)
  | permissionDenied (message : String)
  deriving DecidableEq

inductive ExecutionResult where
  | rows (columns : List Str) (rows : List Row)
  | rowsAffected (count : Nat)
  | ok
  | transactionOk

structure Orders {α : Type} (cmp : α → α → Ordering) (l : List α) : Prop where
  swapped : ∀ a ∈ l, ∀ b ∈ l, cmp b a = (cmp a b).swap
  transitive : ∀ a ∈ l, ∀ b ∈ l, ∀ c ∈ l, cmp a b ≠ .gt → cmp b c ≠ .gt → cmp a c ≠ .gt

/-- `sort_by` of the standard library. It is stable when the comparison orders the list; on
    another comparison it still keeps the elements. -/
structure SortBy where
  sortBy : (Row → Row → Ordering) → List Row → List Row
  perm : ∀ cmp l, (sortBy cmp l).Perm l
  stable : ∀ cmp l, Orders cmp l → sortBy cmp l = l.insertionSort fun a b => cmp a b ≠ .gt

structure Platform where
  crc : Crc32fast
  host : Host
  order : RowOrder
  sort : SortBy

def SortBy.insertion : SortBy where
  sortBy := fun cmp l => l.insertionSort fun a b => cmp a b ≠ .gt
  perm := fun _ l => List.perm_insertionSort _ l
  stable := fun _ _ _ => rfl

def Platform.plain : Platform := ⟨ieee, .plain, .insertion, .insertion⟩

/-- The clock readings of one statement, and whether its commit forces the log. -/
structure Moment where
  started : UInt64
  wrote : Nat → UInt64
  ended : UInt64
  shouldSync : Bool

def Moment.zero : Moment := ⟨0, fun _ => 0, 0, true⟩

structure Connection where
  activeTxn : Option Nat
  explicitTxn : Bool
  nextRowIds : Map Str UInt64

def Connection.new : Connection := ⟨none, false, ∅⟩

def sqlTypeToDbType : DataType → ColumnType
  | .tinyInt | .smallInt | .int | .bigInt => .int64
  | .float | .double | .decimal .. => .float64
  | .boolean => .bool
  | .binary _ | .varbinary _ | .blob => .binary
  | _ => .text

def toColumnDef (col : SqlColumnDef) : ColumnDef :=
  ⟨col.name, sqlTypeToDbType col.dataType, !col.constraints.contains .notNull⟩

def extractOrderByColumn : Expr → Str
  | .column ref => ref.column
  | _ => Str.empty

def compareRows (host : Host) (orderBy : List OrderByItem) (a b : Row) : Ordering :=
  match orderBy with
  | [] => .eq
  | item :: rest =>
    let col := extractOrderByColumn item.expr
    let cmp := compareOptionalValues host (get a col) (get b col)
    let cmp := if item.asc then cmp else cmp.swap
    if cmp ≠ .eq then cmp else compareRows host rest a b

def star : Str := Str.ascii "*"

/-- No column list, or one with a star in it, asks for all columns. -/
def requested (columns : List Str) : Option (List Str) :=
  if columns.isEmpty || columns.contains star then none else some columns

section Statements
variable {H : KeyHashes} (platform : Platform) (moment : Moment) (db : Database H) (conn : Connection)

def ensureWriteTxn : Database H × Connection × Nat :=
  match conn.activeTxn with
  | some txn => (db, conn, txn)
  | none =>
    let begun := db.beginTransaction platform.crc moment.started
    (begun.1, { conn with activeTxn := some begun.2 }, begun.2)

/-- The open transaction is forgotten before its commit is tried. -/
def autoCommitIfImplicit : Database H × Connection × Except SqlError Unit :=
  if conn.explicitTxn then (db, conn, .ok ())
  else
    match conn.activeTxn with
    | none => (db, conn, .ok ())
    | some txn =>
      let committed := db.commit platform.crc txn moment.shouldSync moment.ended
      (committed.1, { conn with activeTxn := none },
        match committed.2 with
        | .ok _ => .ok ()
        | .error e => .error (.executionError "Commit failed: " e))

def nextRowId (table : Str) : Connection × UInt64 :=
  let counter := (get conn.nextRowIds table).getD 0 + 1
  ({ conn with nextRowIds := conn.nextRowIds.insert table counter }, counter)

def queryAlone (table : Str) (columns : Option (List Str)) :
    Database H × Except SochDBError QueryResult :=
  let begun := db.beginReadOnlyFast
  let result := QueryBuilder.execute begun.1 ⟨begun.2, table, columns, none, none⟩ platform.order
  (begun.1.abortReadOnlyFast begun.2, result)

/-- The counter of a table starts at the number of its rows. -/
def initRowIdCounter (table : Str) : Database H × Connection :=
  if (get conn.nextRowIds table).isSome then (db, conn)
  else
    let queried := queryAlone platform db table none
    let maxId := match queried.2 with
      | .ok result => UInt64.ofNat result.rowsScanned
      | .error _ => 0
    (queried.1, { conn with nextRowIds := conn.nextRowIds.insert table maxId })

def satisfies (whereClause : Option Expr) (params : List SochValue) (row : Row) : Bool :=
  match whereClause with
  | some expr => rowMatches platform.host expr row params
  | none => true

def sortRows (orderBy : List OrderByItem) (rows : List Row) : List Row :=
  if orderBy.isEmpty then rows else platform.sort.sortBy (compareRows platform.host orderBy) rows

def select (table : Str) (columns : List Str) (whereClause : Option Expr) (orderBy : List OrderByItem)
    (limit offset : Option Nat) (params : List SochValue) :
    Database H × Except SqlError ExecutionResult :=
  let queried := queryAlone platform db table (requested columns)
  (queried.1,
    match queried.2 with
    | .error e => .error (.executionError "Query failed: " e)
    | .ok result =>
      let rows := result.rows.filter (satisfies platform whereClause params)
      let rows := truncate limit (skip offset (sortRows platform orderBy rows))
      let names := (requested columns).getD ((rows.head?.map fun row => (pairs row).map Prod.fst).getD [])
      .ok (.rows names rows))

/-- The values of a row of VALUES. Expressions that are neither literals nor parameters
    become nulls, and those past the last column are dropped. -/
def rowValues (colNames : List Str) (params : List SochValue) (rowExprs : List Expr) : Row :=
  (colNames.zip rowExprs).foldl
    (fun values given => values.insert given.1 ((givenValue params given.2).getD .null)) ∅

def insertEach (db : Database H) (conn : Connection) (txn : Nat) (table : Str) (colNames : List Str)
    (params : List SochValue) (inserted : Nat) :
    List (List Expr) → Database H × Connection × Except SqlError Nat
  | [] => (db, conn, .ok inserted)
  | rowExprs :: rows =>
    let next := nextRowId conn table
    match db.insertRow platform.crc txn (moment.wrote inserted) table next.2
        (rowValues colNames params rowExprs) with
    | (db, .error e) => (db, next.1, .error (.executionError "Insert failed: " e))
    | (db, .ok ()) => insertEach db next.1 txn table colNames params (inserted + 1) rows

def finish (db : Database H) (conn : Connection) :
    Except SqlError Nat → Database H × Connection × Except SqlError ExecutionResult
  | .error e => (db, conn, .error e)
  | .ok count =>
    match autoCommitIfImplicit platform moment db conn with
    | (db, conn, .error e) => (db, conn, .error e)
    | (db, conn, .ok ()) => (db, conn, .ok (.rowsAffected count))

def insertColumns (table : Str) (columns : Option (List Str)) : Option (List Str) :=
  columns.or ((db.getTableSchema table).map fun schema => schema.columns.map ColumnDef.name)

def insert (table : Str) (columns : Option (List Str)) (rows : List (List Expr))
    (params : List SochValue) : Database H × Connection × Except SqlError ExecutionResult :=
  let (db, conn, txn) := ensureWriteTxn platform moment db conn
  let (db, conn) := initRowIdCounter platform db conn table
  match insertColumns db table columns with
  | none =>
    (db, conn, .error (.invalidArgument "INSERT requires column names when table has no schema"))
  | some colNames =>
    let (db, conn, done) := insertEach platform moment db conn txn table colNames params 0 rows
    finish platform moment db conn done

def rowIdOf (key : Bytes) : Option UInt64 :=
  (Str.fromUtf8 key).bind fun path =>
    match parts path.bytes with
    | [_, id] => parseU64 id
    | _ => none

def findAmong (db : Database H) (txn : Nat) (table : Str) (target : Row) :
    List Bytes → Database H × Option UInt64
  | [] => (db, none)
  | key :: keys =>
    match rowIdOf key with
    | none => findAmong db txn table target keys
    | some rowId =>
      match db.readRow txn table rowId none with
      | (db, .ok (some row)) =>
        if rowsEqual row target then (db, some rowId) else findAmong db txn table target keys
      | (db, _) => findAmong db txn table target keys

/-- A row is found again by its values, among all keys that start with the table's name. -/
def findRowId (table : Str) (target : Row) (txn : Nat) : Database H × Except SqlError (Option UInt64) :=
  match db.scan txn table.bytes with
  | .error e => (db, .error (.executionError "Scan failed: " e))
  | .ok entries =>
    let found := findAmong db txn table target (entries.map Prod.fst)
    (found.1, .ok found.2)

def assignedValue (params : List SochValue) (row : Row) (value : Expr) : SochValue :=
  match givenValue params value with
  | some given => given
  | none => (evalExpr platform.host row params value).getD .null

/-- All assignments are evaluated on the old row. -/
def image (assignments : List Assignment) (params : List SochValue) (row : Row) : Row :=
  assignments.foldl (fun values assignment =>
    values.insert assignment.column (assignedValue platform params row assignment.value)) row

/-- Look every matching row up again and hand its id to the statement; a row that is not
    found is passed over. -/
def forEachMatch (db : Database H) (txn : Nat) (table : Str) (whereClause : Option Expr)
    (params : List SochValue)
    (change : Database H → Nat → Row → UInt64 → Database H × Except SqlError Unit) (done : Nat) :
    List Row → Database H × Except SqlError Nat
  | [] => (db, .ok done)
  | row :: rows =>
    if satisfies platform whereClause params row then
      match findRowId db table row txn with
      | (db, .error e) => (db, .error e)
      | (db, .ok none) => forEachMatch db txn table whereClause params change done rows
      | (db, .ok (some rowId)) =>
        match change db done row rowId with
        | (db, .error e) => (db, .error e)
        | (db, .ok ()) => forEachMatch db txn table whereClause params change (done + 1) rows
    else forEachMatch db txn table whereClause params change done rows

def scanAndChange (context : String) (table : Str) (whereClause : Option Expr) (params : List SochValue)
    (change : Nat → Database H → Nat → Row → UInt64 → Database H × Except SqlError Unit) :
    Database H × Connection × Except SqlError ExecutionResult :=
  let (db, conn, txn) := ensureWriteTxn platform moment db conn
  match QueryBuilder.execute db ⟨txn, table, none, none, none⟩ platform.order with
  | .error e => (db, conn, .error (.executionError context e))
  | .ok result =>
    let (db, changed) := forEachMatch platform db txn table whereClause params (change txn) 0 result.rows
    finish platform moment db conn changed

def updateRow (table : Str) (assignments : List Assignment) (params : List SochValue) (txn : Nat)
    (db : Database H) (done : Nat) (row : Row) (rowId : UInt64) : Database H × Except SqlError Unit :=
  match db.insertRow platform.crc txn (moment.wrote done) table rowId
      (image platform assignments params row) with
  | (db, .error e) => (db, .error (.executionError "Update failed: " e))
  | (db, .ok ()) => (db, .ok ())

def update (table : Str) (assignments : List Assignment) (whereClause : Option Expr)
    (params : List SochValue) : Database H × Connection × Except SqlError ExecutionResult :=
  scanAndChange platform moment db conn "Scan for update failed: " table whereClause params
    (updateRow platform moment table assignments params)

/-- The key is formatted without the bound on its length that insertion has. -/
def deleteKey (table : Str) (rowId : UInt64) : Bytes := table.bytes ++ slash :: decimal rowId.toNat

def deleteRow (table : Str) (txn : Nat) (db : Database H) (done : Nat) (_row : Row) (rowId : UInt64) :
    Database H × Except SqlError Unit :=
  match db.delete platform.crc txn (moment.wrote done) (deleteKey table rowId) with
  | (db, .error e) => (db, .error (.executionError "Delete failed: " e))
  | (db, .ok ()) => (db, .ok ())

def delete (table : Str) (whereClause : Option Expr) (params : List SochValue) :
    Database H × Connection × Except SqlError ExecutionResult :=
  scanAndChange platform moment db conn "Scan for delete failed: " table whereClause params
    (deleteRow platform moment table)

def begin : Database H × Connection × Except SqlError ExecutionResult :=
  if conn.activeTxn.isSome then (db, conn, .error (.transactionError "Transaction already active"))
  else
    let begun := db.beginTransaction platform.crc moment.started
    (begun.1, { conn with activeTxn := some begun.2, explicitTxn := true }, .ok .transactionOk)

def commit : Database H × Connection × Except SqlError ExecutionResult :=
  match conn.activeTxn with
  | none => (db, conn, .error (.transactionError "No active transaction"))
  | some txn =>
    let committed := db.commit platform.crc txn moment.shouldSync moment.ended
    (committed.1, { conn with activeTxn := none, explicitTxn := false },
      match committed.2 with
      | .ok _ => .ok .transactionOk
      | .error e => .error (.commitError "Commit failed: " e))

/-- Savepoints are ignored. -/
def rollback : Database H × Connection × Except SqlError ExecutionResult :=
  match conn.activeTxn with
  | none => (db, conn, .error (.transactionError "No active transaction"))
  | some txn =>
    (db.abort platform.crc txn moment.ended, { conn with activeTxn := none, explicitTxn := false },
      .ok .transactionOk)

def tableExists (table : Str) : Bool := (db.getTableSchema table).isSome

def scanAll (table : Str) (columns : List Str) : Database H × Except SqlError (List Row) :=
  let queried := queryAlone platform db table (requested columns)
  (queried.1,
    match queried.2 with
    | .error e => .error (.executionError "Scan failed: " e)
    | .ok result => .ok result.rows)

def evalJoinPredicate (expr : Expr) (row : Row) (params : List SochValue) : Option Bool :=
  (evalExpr platform.host row params expr).map isTrue

end Statements

section Definitions
variable {H : KeyHashes} (db : Database H)

def createTable (stmt : CreateTableStmt) : Database H × Except SqlError ExecutionResult :=
  if (db.getTableSchema stmt.name).isSome then
    if stmt.ifNotExists then (db, .ok .ok)
    else (db, .error (.invalidArgument ("Table '" ++ stmt.name.display ++ "' already exists")))
  else
    match db.registerTable ⟨stmt.name, stmt.columns.map toColumnDef⟩ with
    | (db, .error e) => (db, .error (.executionError "Create table failed: " e))
    | (db, .ok ()) => (db, .ok .ok)

/-- Nothing is removed, neither the schema nor the rows. -/
def dropTable (stmt : DropTableStmt) : Database H × Except SqlError ExecutionResult :=
  let table := stmt.names.headD Str.empty
  if (db.getTableSchema table).isNone then
    if stmt.ifExists then (db, .ok .ok) else (db, .error (.tableNotFound table))
  else (db, .ok .ok)

def columnNotFound (name : Str) (schema : TableSchema) : SqlError :=
  .invalidArgument ("Column '" ++ name.display ++ "' not found in table '" ++ schema.name.display ++ "'")

def changeColumn (schema : TableSchema) (name : Str) (change : ColumnDef → ColumnDef) :
    Except SqlError TableSchema :=
  match schema.columns.findIdx? fun col => col.name = name with
  | none => .error (columnNotFound name schema)
  | some idx => .ok { schema with columns := schema.columns.modify idx change }

def alterColumn : AlterColumnOp → ColumnDef → ColumnDef
  | .setType dataType, col => { col with colType := sqlTypeToDbType dataType }
  | .setNotNull, col => { col with nullable := false }
  | .dropNotNull, col => { col with nullable := true }
  | .setDefault, col | .dropDefault, col => col

def alterSchema (schema : TableSchema) : AlterTableOp → Except SqlError TableSchema
  | .addColumn col =>
    if schema.columns.any fun c => c.name = col.name then
      .error (.invalidArgument ("Column '" ++ col.name.display ++ "' already exists in table '" ++
        schema.name.display ++ "'"))
    else .ok { schema with columns := schema.columns ++ [toColumnDef col] }
  | .dropColumn name =>
    match schema.columns.findIdx? fun col => col.name = name with
    | none => .error (columnNotFound name schema)
    | some idx => .ok { schema with columns := schema.columns.eraseIdx idx }
  | .renameColumn oldName newName => changeColumn schema oldName fun col => { col with name := newName }
  | .renameTable newName => .ok { schema with name := newName }
  | .alterColumn name operation => changeColumn schema name (alterColumn operation)
  | .addConstraint | .dropConstraint => .error (.notImplemented "ADD/DROP CONSTRAINT not yet implemented")

def alterTable (stmt : AlterTableStmt) : Database H × Except SqlError ExecutionResult :=
  match db.getTableSchema stmt.name with
  | none => (db, .error (.tableNotFound stmt.name))
  | some schema =>
    match stmt.operations.foldlM alterSchema schema with
    | .error e => (db, .error e)
    | .ok schema =>
      match db.updateTableSchema stmt.name schema with
      | (db, .error e) => (db, .error (.executionError "ALTER TABLE failed: " e))
      | (db, .ok ()) => (db, .ok .ok)

end Definitions
end SqlConnection
