import SochDB.SqlConnection

/-!
The executor of parsed statements over a connection: permissions, the single-table SELECT,
joins of scanned tables, and the statements that go straight to the connection. What an
aggregation computes from the rows it is given is a parameter.
-/
namespace SqlBridge
open KeyedMaps Utf8 BloomFilter PackedRows RowKeys DatabaseKernel Queries SqlExpressions
open SqlConnection

inductive SelectItem where
  | wildcard
  | qualifiedWildcard (table : Str)
  | expr (e : Expr) (label : Option Str)

inductive JoinType where
  | inner | left | right | full | cross
  deriving DecidableEq, Repr

inductive JoinCondition where
  | on (expr : Expr)
  | usingCols (cols : List Str)
  | natural

inductive TableRef where
  | table (name : Str) (label : Option Str)
  | subquery
  | join (left : TableRef) (joinType : JoinType) (right : TableRef) (condition : Option JoinCondition)
  | function

structure SelectStmt where
  columns : List SelectItem
  tables : Option (List TableRef)
  whereClause : Option Expr
  groupBy : List Expr
  having : Option Expr
  orderBy : List OrderByItem
  limit : Option Expr
  offset : Option Expr

inductive InsertSource where
  | values (rows : List (List Expr))
  | query
  | default

structure InsertStmt where
  table : Str
  columns : Option (List Str)
  source : InsertSource

structure UpdateStmt where
  table : Str
  assignments : List Assignment
  whereClause : Option Expr

structure DeleteStmt where
  table : Str
  whereClause : Option Expr

inductive PermissionOp where
  | select | create | update | delete
  deriving DecidableEq, Repr

structure TablePermission where
  operation : PermissionOp
  condition : Expr

inductive Statement where
  | select (stmt : SelectStmt)
  | insert (stmt : InsertStmt)
  | update (stmt : UpdateStmt)
  | delete (stmt : DeleteStmt)
  | createTable (stmt : CreateTableStmt)
  | dropTable (stmt : DropTableStmt)
  | alterTable (stmt : AlterTableStmt)
  | createIndex
  | dropIndex
  | begin
  | commit
  | rollback
  | savepoint
  | release
  | explain
  | defineScope
  | removeScope
  | defineTablePermissions (table : Str) (permissions : List TablePermission)
  | relate
  | liveSelect
  | defineEvent

/-- Scopes are left out, because no statement reads them. -/
structure Bridge where
  conn : Connection
  tablePermissions : Map Str (List TablePermission)

def Bridge.new (conn : Connection) : Bridge := ⟨conn, ∅⟩

abbrev Aggregation :=
  SelectStmt → List Row → List SochValue → Option Nat → Option Nat → Except SqlError ExecutionResult

section Aggregates

def upperByte (b : UInt8) : UInt8 := if 97 ≤ b ∧ b ≤ 122 then b - 32 else b

def isAggFn (name : Str) : Bool :=
  ["COUNT", "SUM", "AVG", "MEAN", "MIN", "MAX", "MEDIAN", "STDDEV", "STDDEV_SAMP", "STDEV", "SD"].any
    fun known => name.bytes.map upperByte = (Str.ascii known).bytes

mutual

def containsAggregate : Expr → Bool
  | .function name args _ => isAggFn name || anyAggregate args
  | .binaryOp left _ right => containsAggregate left || containsAggregate right
  | .unaryOp _ inner | .isNull inner _ => containsAggregate inner
  | .case parts => anyAggregate parts
  | _ => false

def anyAggregate : List Expr → Bool
  | [] => false
  | expr :: rest => containsAggregate expr || anyAggregate rest

end

def isAggregateQuery (select : SelectStmt) : Bool :=
  !select.groupBy.isEmpty || select.columns.any fun
    | .expr e _ => containsAggregate e
    | _ => false

end Aggregates

def permissionName : PermissionOp → String
  | .select => "Select"
  | .create => "Create"
  | .update => "Update"
  | .delete => "Delete"

/-- A table without rules allows everything; one with rules denies what no rule names. -/
def checkTablePermission (bridge : Bridge) (table : Str) (op : PermissionOp) : Except SqlError Unit :=
  match get bridge.tablePermissions table with
  | none => .ok ()
  | some permissions =>
    match permissions.find? fun p => p.operation = op with
    | none => .error (.permissionDenied (permissionName op ++ " not permitted on table '" ++
        table.display ++ "' (no matching permission rule)"))
    | some perm =>
      match perm.condition with
      | .literal (.boolean false) => .error (.permissionDenied (permissionName op ++
          " denied on table '" ++ table.display ++ "' by table permission rule"))
      | _ => .ok ()

def extractSelectColumns (items : List SelectItem) : List Str :=
  items.map fun
    | .wildcard => star
    | .qualifiedWildcard table => table.append (Str.ascii ".*")
    | .expr e label => label.getD (match e with
      | .column ref => ref.column
      | .function name _ _ => name.append (Str.ascii "()")
      | _ => Str.ascii "?column?")

def extractLimit : Option Expr → Except SqlError (Option Nat)
  | some (.literal (.integer n)) => .ok (some n.toUInt64.toNat)
  | some _ => .error (.invalidArgument "LIMIT/OFFSET must be an integer literal")
  | none => .ok none

section Joins
variable (platform : Platform)

def dot : UInt8 := 46

/-- A column under its qualified and under its plain name. -/
def qualify (table : Str) (row : Row) : Row :=
  (pairs row).foldl (fun merged e =>
    (merged.insert ((table.append (Str.ascii ".")).append e.1) e.2).insert e.1 e.2) ∅

/-- Plain names of the left row win. -/
def mergeRows (left right : Row) : Row :=
  (pairs right).foldl (fun merged e =>
    if (get merged e.1).isNone || e.1.bytes.contains dot then merged.insert e.1 e.2 else merged) left

def nullRow (rows : List Row) : Row :=
  match rows with
  | [] => ∅
  | sample :: _ => mapValues (fun _ => .null) sample

def usingMatches (left right : Row) (cols : List Str) : Bool :=
  cols.all fun col => (get left col).any fun l => (get right col).any fun r => valueEq l r

/-- Both join loops: the pairs that match, left by left, and the nulls of an outer join. -/
def joinRows (matching : Row → Row → Bool) (joinType : JoinType) (leftRows rightRows : List Row) :
    List Row :=
  let keepsLeft := joinType = .left ∨ joinType = .full
  let keepsRight := joinType = .right ∨ joinType = .full
  let probe := fun left =>
    let hits := rightRows.filter (matching left)
    if hits.isEmpty ∧ keepsLeft then [mergeRows left (nullRow rightRows)] else hits.map (mergeRows left)
  let unmatched := rightRows.filter fun right => !leftRows.any fun left => matching left right
  leftRows.flatMap probe ++
    if keepsRight then unmatched.map (mergeRows (nullRow leftRows)) else []

def columnKey (ref : ColumnRef) : Str :=
  match ref.table with
  | some table => (table.append (Str.ascii ".")).append ref.column
  | none => ref.column

def extractEquiJoinKeys : Expr → Option (Str × Str)
  | .binaryOp (.column l) .eq (.column r) => some (columnKey l, columnKey r)
  | _ => none

def hashMatches (leftKey rightKey : Str) (left right : Row) : Bool :=
  (get left leftKey).any fun l => (get right rightKey).any fun r =>
    platform.host.debugText l = platform.host.debugText r

def onMatches (expr : Expr) (params : List SochValue) (left right : Row) : Bool :=
  (evalJoinPredicate platform expr (mergeRows left right) params).getD false

def executeJoin (leftRows rightRows : List Row) (joinType : JoinType) (condition : Option JoinCondition)
    (params : List SochValue) : Except SqlError (List Row) :=
  match condition with
  | some .natural => .error (.notImplemented "NATURAL JOIN not yet supported")
  | some (.on expr) =>
    match extractEquiJoinKeys expr with
    | some (leftKey, rightKey) =>
      .ok (joinRows (hashMatches platform leftKey rightKey) joinType leftRows rightRows)
    | none => .ok (joinRows (onMatches platform expr params) joinType leftRows rightRows)
  | some (.usingCols cols) =>
    .ok (joinRows (fun left right => usingMatches left right cols) joinType leftRows rightRows)
  | none => .ok (joinRows (fun _ _ => true) joinType leftRows rightRows)

/-- The comparison of joined rows orders truth values and not unsigned numbers. -/
def compareJoined : SochValue → SochValue → Ordering
  | .int a, .int b => compare a.toInt b.toInt
  | .float a, .float b => (partialCmp a b).getD .eq
  | .text a, .text b => bytesCmp a.bytes b.bytes
  | .bool a, .bool b => compare a.toNat b.toNat
  | .null, .null => .eq
  | .null, _ => .lt
  | _, .null => .gt
  | _, _ => .eq

def compareOptionalJoined : Option SochValue → Option SochValue → Ordering
  | none, none => .eq
  | none, some _ => .lt
  | some _, none => .gt
  | some a, some b => compareJoined a b

def extractOrderColumn : Expr → Str
  | .column ref => columnKey ref
  | _ => Str.empty

def compareJoinedRows (orderBy : List OrderByItem) (a b : Row) : Ordering :=
  match orderBy with
  | [] => .eq
  | item :: rest =>
    let col := extractOrderColumn item.expr
    let cmp := compareOptionalJoined (get a col) (get b col)
    let cmp := if item.asc then cmp else cmp.swap
    if cmp ≠ .eq then cmp else compareJoinedRows rest a b

def sortNames (names : List Str) : List Str := names.insertionSort fun a b => bytesCmp a.bytes b.bytes ≠ .gt

def shortName (name : Str) : Str := ((name.split dot).getLast?).getD name

def allColumns (rows : List Row) : List Str :=
  match rows with
  | [] => []
  | row :: _ =>
    let names := (pairs row).map Prod.fst
    let qualified := sortNames (names.filter fun name => name.bytes.contains dot)
    if qualified.isEmpty then sortNames names else qualified

/-- A column by its name, or else the first whose qualified name ends in it. -/
def joinedColumn (row : Row) (col : Str) : SochValue :=
  match get row col with
  | some value => value
  | none =>
    (((pairs row).find? fun e => (dot :: col.bytes).isSuffixOf e.1.bytes).map Prod.snd).getD .null

def projectJoinRows (selectColumns : List Str) (rows : List Row) : List Str × List Row :=
  match requested selectColumns with
  | none =>
    let names := allColumns rows
    (names.map shortName, rows.map fun row =>
      names.foldl (fun shown name => shown.insert (shortName name) ((get row name).getD .null)) ∅)
  | some cols =>
    (cols, rows.map fun row => cols.foldl (fun shown col => shown.insert col (joinedColumn row col)) ∅)

end Joins

section Execution
variable {H : KeyHashes} (platform : Platform) (aggregate : Aggregation) (moment : Moment)

def resolveTableRef (db : Database H) (params : List SochValue) :
    TableRef → Database H × Except SqlError (List Row)
  | .table name label =>
    match scanAll platform db name [] with
    | (db, .error e) => (db, .error e)
    | (db, .ok rows) => (db, .ok (rows.map (qualify (label.getD name))))
  | .join left joinType right condition =>
    match resolveTableRef db params left with
    | (db, .error e) => (db, .error e)
    | (db, .ok leftRows) =>
      match resolveTableRef db params right with
      | (db, .error e) => (db, .error e)
      | (db, .ok rightRows) => (db, executeJoin platform leftRows rightRows joinType condition params)
  | .subquery => (db, .error (.notImplemented "Subqueries in FROM not yet supported"))
  | .function => (db, .error (.notImplemented "Table functions not yet supported"))

def finishJoin (select : SelectStmt) (params : List SochValue) (rows : List Row) :
    Except SqlError ExecutionResult := do
  let rows := match select.whereClause with
    | some expr => rows.filter fun row => (evalJoinPredicate platform expr row params).getD false
    | none => rows
  if isAggregateQuery select then
    let limit ← extractLimit select.limit
    let offset ← extractLimit select.offset
    aggregate select rows params limit offset
  else
    let rows := if select.orderBy.isEmpty then rows
      else platform.sort.sortBy (compareJoinedRows select.orderBy) rows
    let offset ← extractLimit select.offset
    let limit ← extractLimit select.limit
    let shown := projectJoinRows (extractSelectColumns select.columns) (truncate limit (skip offset rows))
    .ok (.rows shown.1 shown.2)

def executeJoinSelect (db : Database H) (select : SelectStmt) (tableRef : TableRef)
    (params : List SochValue) : Database H × Except SqlError ExecutionResult :=
  match resolveTableRef platform db params tableRef with
  | (db, .error e) => (db, .error e)
  | (db, .ok rows) => (db, finishJoin platform aggregate select params rows)

def executeTableSelect (db : Database H) (select : SelectStmt) (table : Str) (limit offset : Option Nat)
    (params : List SochValue) : Database H × Except SqlError ExecutionResult :=
  if isAggregateQuery select then
    match SqlConnection.select platform db table [] select.whereClause [] none none params with
    | (db, .error e) => (db, .error e)
    | (db, .ok (.rows _ rows)) => (db, aggregate select rows params limit offset)
    | (db, .ok _) => (db, aggregate select [] params limit offset)
  else
    SqlConnection.select platform db table (extractSelectColumns select.columns) select.whereClause
      select.orderBy limit offset params

def executeSelect (db : Database H) (bridge : Bridge) (select : SelectStmt) (params : List SochValue) :
    Database H × Except SqlError ExecutionResult :=
  match select.tables with
  | none => (db, .error (.invalidArgument "SELECT requires FROM clause"))
  | some [.join left joinType right condition] =>
    executeJoinSelect platform aggregate db select (.join left joinType right condition) params
  | some [.subquery] => (db, .error (.notImplemented "Subqueries not yet supported"))
  | some [.function] => (db, .error (.notImplemented "Table functions not yet supported"))
  | some [.table table _] =>
    let checked : Except SqlError (Option Nat × Option Nat) := do
      checkTablePermission bridge table .select
      let limit ← extractLimit select.limit
      let offset ← extractLimit select.offset
      .ok (limit, offset)
    match checked with
    | .error e => (db, .error e)
    | .ok window => executeTableSelect platform aggregate db select table window.1 window.2 params
  | some _ => (db, .error (.notImplemented "Multi-table queries (comma-separated) not yet supported"))

def permitted (db : Database H) (bridge : Bridge) (table : Str) (op : PermissionOp)
    (run : Database H × Connection × Except SqlError ExecutionResult) :
    Database H × Bridge × Except SqlError ExecutionResult :=
  match checkTablePermission bridge table op with
  | .error e => (db, bridge, .error e)
  | .ok () => (run.1, { bridge with conn := run.2.1 }, run.2.2)

def executeInsert (db : Database H) (bridge : Bridge) (insert : InsertStmt) (params : List SochValue) :
    Database H × Bridge × Except SqlError ExecutionResult :=
  permitted db bridge insert.table .create
    (match insert.source with
    | .values rows => SqlConnection.insert platform moment db bridge.conn insert.table insert.columns rows params
    | .query => (db, bridge.conn, .error (.notImplemented "INSERT ... SELECT not yet supported"))
    | .default => (db, bridge.conn, .error (.notImplemented "INSERT DEFAULT VALUES not yet supported")))

def executeUpdate (db : Database H) (bridge : Bridge) (update : UpdateStmt) (params : List SochValue) :
    Database H × Bridge × Except SqlError ExecutionResult :=
  permitted db bridge update.table .update
    (SqlConnection.update platform moment db bridge.conn update.table update.assignments update.whereClause
      params)

def executeDelete (db : Database H) (bridge : Bridge) (delete : DeleteStmt) (params : List SochValue) :
    Database H × Bridge × Except SqlError ExecutionResult :=
  permitted db bridge delete.table .delete
    (SqlConnection.delete platform moment db bridge.conn delete.table delete.whereClause params)

def executeCreateTable (db : Database H) (stmt : CreateTableStmt) :
    Database H × Except SqlError ExecutionResult :=
  if stmt.ifNotExists && tableExists db stmt.name then (db, .ok .ok) else createTable db stmt

def executeDropTable (db : Database H) (stmt : DropTableStmt) :
    Database H × Except SqlError ExecutionResult :=
  if stmt.ifExists && stmt.names.any fun name => !tableExists db name then (db, .ok .ok)
  else dropTable db stmt

def unimplemented (message : String) (db : Database H) (bridge : Bridge) :
    Database H × Bridge × Except SqlError ExecutionResult :=
  (db, bridge, .error (.notImplemented message))

def keeping (bridge : Bridge) (run : Database H × Except SqlError ExecutionResult) :
    Database H × Bridge × Except SqlError ExecutionResult :=
  (run.1, bridge, run.2)

def forwarding (bridge : Bridge) (run : Database H × Connection × Except SqlError ExecutionResult) :
    Database H × Bridge × Except SqlError ExecutionResult :=
  (run.1, { bridge with conn := run.2.1 }, run.2.2)

def executeStatement (db : Database H) (bridge : Bridge) (params : List SochValue) :
    Statement → Database H × Bridge × Except SqlError ExecutionResult
  | .select stmt => keeping bridge (executeSelect platform aggregate db bridge stmt params)
  | .insert stmt => executeInsert platform moment db bridge stmt params
  | .update stmt => executeUpdate platform moment db bridge stmt params
  | .delete stmt => executeDelete platform moment db bridge stmt params
  | .createTable stmt => keeping bridge (executeCreateTable db stmt)
  | .dropTable stmt => keeping bridge (executeDropTable db stmt)
  | .alterTable stmt => keeping bridge (alterTable db stmt)
  | .createIndex | .dropIndex | .defineScope | .removeScope => (db, bridge, .ok .ok)
  | .begin => forwarding bridge (SqlConnection.begin platform moment db bridge.conn)
  | .commit => forwarding bridge (SqlConnection.commit platform moment db bridge.conn)
  | .rollback => forwarding bridge (SqlConnection.rollback platform moment db bridge.conn)
  | .savepoint => unimplemented "SAVEPOINT not yet implemented" db bridge
  | .release => unimplemented "RELEASE SAVEPOINT not yet implemented" db bridge
  | .explain => unimplemented "EXPLAIN not yet implemented" db bridge
  | .defineTablePermissions table permissions =>
    (db, { bridge with tablePermissions := bridge.tablePermissions.insert table permissions }, .ok .ok)
  | .relate =>
    unimplemented "RELATE not yet implemented — graph execution engine required" db bridge
  | .liveSelect =>
    unimplemented "LIVE SELECT not yet implemented — CDC subscription engine required" db bridge
  | .defineEvent =>
    unimplemented "DEFINE EVENT not yet implemented — event trigger engine required" db bridge

end Execution
end SqlBridge
