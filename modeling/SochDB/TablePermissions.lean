import SochDB.SqlBridge

/-!
Permission rules of tables against the statements that name them. A rule is looked up
where a statement reaches the connection, so whether a denied table is refused depends on
the shape of the statement alone; a join goes around the rules.
-/
namespace TablePermissions
open KeyedMaps Utf8 WalRecords BloomFilter PackedRows DatabaseKernel SqlExpressions
open SqlConnection SqlBridge

def tablesOf : TableRef → List Str
  | .table name _ => [name]
  | .join left _ right _ => tablesOf left ++ tablesOf right
  | .subquery | .function => []

/-- The tables of a statement with what it does to each of them. -/
def touched : Statement → List (Str × PermissionOp)
  | .select stmt => ((stmt.tables.getD []).flatMap tablesOf).map fun table => (table, .select)
  | .insert stmt => [(stmt.table, .create)]
  | .update stmt => [(stmt.table, .update)]
  | .delete stmt => [(stmt.table, .delete)]
  | _ => []

def literallyFalse (rule : TablePermission) : Prop := rule.condition = .literal (.boolean false)

/-- The one table of a statement that the bridge looks up in its rules. -/
def lookedUp : Statement → Option (Str × PermissionOp)
  | .select stmt =>
    match stmt.tables with
    | some [.table name _] => some (name, .select)
    | _ => none
  | .insert stmt => some (stmt.table, .create)
  | .update stmt => some (stmt.table, .update)
  | .delete stmt => some (stmt.table, .delete)
  | _ => none

/-- The statement writes to the table or selects from it alone, and of several rules for the
    operation the first is literally false. -/
def Guarded (bridge : Bridge) (stmt : Statement) : Prop :=
  ∃ table op rules, lookedUp stmt = some (table, op) ∧ get bridge.tablePermissions table = some rules ∧
    ∀ rule, (rules.find? fun p => p.operation = op) = some rule → literallyFalse rule

def isDenial : SqlError → Bool
  | .permissionDenied _ => true
  | _ => false

def refused {α : Type} : Except SqlError α → Bool
  | .error e => isDenial e
  | .ok _ => false

theorem refused_iff {α : Type} (result : Except SqlError α) :
    refused result = true ↔ ∃ message, result = .error (.permissionDenied message) := by
  constructor
  · intro yes
    cases result with
    | ok value => cases yes
    | error e =>
      cases e with
      | permissionDenied message => exact ⟨message, rfl⟩
      | _ => cases yes
  · rintro ⟨message, rfl⟩
    rfl

section Check
variable (bridge : Bridge) (table : Str) (op : PermissionOp)

theorem check_refuses_iff : refused (checkTablePermission bridge table op) = true ↔
    ∃ rules, get bridge.tablePermissions table = some rules ∧
      ∀ rule, (rules.find? fun p => p.operation = op) = some rule → literallyFalse rule := by
  unfold checkTablePermission
  cases known : get bridge.tablePermissions table with
  | none => simp [refused]
  | some rules =>
    cases found : rules.find? fun p => p.operation = op with
    | none => simp [refused, isDenial, found]
    | some rule =>
      simp only [Option.some.injEq, exists_eq_left', found, forall_eq']
      unfold literallyFalse
      split <;> simp_all [refused, isDenial]

theorem check_only_refuses {e : SqlError} (failed : checkTablePermission bridge table op = .error e) :
    refused (checkTablePermission bridge table op) = true := by
  unfold checkTablePermission at failed ⊢
  repeat' split at failed
  all_goals cases failed
  · rfl
  · rfl

end Check

section Connection
variable {H : KeyHashes} (platform : Platform) (moment : Moment) (db : Database H) (conn : Connection)

theorem autoCommit_unrefused : refused (autoCommitIfImplicit platform moment db conn).2.2 = false := by
  unfold autoCommitIfImplicit
  repeat' split
  all_goals first
    | rfl
    | (dsimp only; split <;> rfl)

theorem finish_unrefused (done : Except SqlError Nat) (fine : refused done = false) :
    refused (SqlConnection.finish platform moment db conn done).2.2 = false := by
  have committed := autoCommit_unrefused platform moment db conn
  cases done with
  | error e =>
    exact fine
  | ok count =>
    simp only [SqlConnection.finish]
    split
    · rename_i failed
      rw [failed] at committed
      exact committed
    · rfl

theorem select_unrefused (table : Str) (columns : List Str) (whereClause : Option Expr)
    (orderBy : List OrderByItem) (limit offset : Option Nat) (params : List SochValue) :
    refused (SqlConnection.select platform db table columns whereClause orderBy limit offset params).2 =
      false := by
  unfold SqlConnection.select
  dsimp only
  split <;> rfl

theorem insertEach_unrefused (txn : Nat) (table : Str) (colNames : List Str) (params : List SochValue)
    (inserted : Nat) (rows : List (List Expr)) :
    refused (SqlConnection.insertEach platform moment db conn txn table colNames params inserted rows).2.2 =
      false := by
  induction rows generalizing db conn inserted with
  | nil => rfl
  | cons row rows ih =>
    simp only [SqlConnection.insertEach]
    split
    · rfl
    · exact ih _ _ _

theorem insert_unrefused (table : Str) (columns : Option (List Str)) (rows : List (List Expr))
    (params : List SochValue) :
    refused (SqlConnection.insert platform moment db conn table columns rows params).2.2 = false := by
  unfold SqlConnection.insert
  dsimp only
  split
  · rfl
  · exact finish_unrefused _ _ _ _ _ (insertEach_unrefused ..)

theorem findRowId_unrefused (table : Str) (target : Row) (txn : Nat) :
    refused (findRowId db table target txn).2 = false := by
  unfold findRowId
  split <;> rfl

theorem forEachMatch_unrefused (txn : Nat) (table : Str) (whereClause : Option Expr)
    (params : List SochValue)
    (change : Database H → Nat → Row → UInt64 → Database H × Except SqlError Unit)
    (fine : ∀ db done row rowId, refused (change db done row rowId).2 = false) (done : Nat)
    (rows : List Row) :
    refused (forEachMatch platform db txn table whereClause params change done rows).2 = false := by
  induction rows generalizing db done with
  | nil => rfl
  | cons row rows ih =>
    simp only [forEachMatch]
    split
    · have located := findRowId_unrefused db table row txn
      split
      · rename_i failed
        rw [failed] at located
        exact located
      · exact ih _ _
      · rename_i changing rowId _
        have changed := fine changing done row rowId
        split
        · rename_i failed
          rw [failed] at changed
          exact changed
        · exact ih _ _
    · exact ih _ _

theorem scanAndChange_unrefused (context : String) (table : Str) (whereClause : Option Expr)
    (params : List SochValue)
    (change : Nat → Database H → Nat → Row → UInt64 → Database H × Except SqlError Unit)
    (fine : ∀ txn db done row rowId, refused (change txn db done row rowId).2 = false) :
    refused (scanAndChange platform moment db conn context table whereClause params change).2.2 = false := by
  unfold scanAndChange
  dsimp only
  split
  · rfl
  · exact finish_unrefused _ _ _ _ _ (forEachMatch_unrefused _ _ _ _ _ _ _ (fine _) _ _)

theorem update_unrefused (table : Str) (assignments : List Assignment) (whereClause : Option Expr)
    (params : List SochValue) :
    refused (SqlConnection.update platform moment db conn table assignments whereClause params).2.2 =
      false := by
  apply scanAndChange_unrefused
  intro txn db done row rowId
  unfold updateRow
  split <;> rfl

theorem delete_unrefused (table : Str) (whereClause : Option Expr) (params : List SochValue) :
    refused (SqlConnection.delete platform moment db conn table whereClause params).2.2 = false := by
  apply scanAndChange_unrefused
  intro txn db done row rowId
  unfold deleteRow
  split <;> rfl

theorem scanAll_unrefused (table : Str) (columns : List Str) :
    refused (scanAll platform db table columns).2 = false := by
  unfold scanAll
  dsimp only
  split <;> rfl

end Connection

section Selects
variable {H : KeyHashes} (platform : Platform) (db : Database H) (params : List SochValue)
variable (select : SelectStmt)

theorem executeJoin_unrefused (left right : List Row) (joinType : JoinType)
    (condition : Option JoinCondition) :
    refused (executeJoin platform left right joinType condition params) = false := by
  unfold executeJoin
  split
  · rfl
  · split <;> rfl
  · rfl
  · rfl

theorem resolveTableRef_unrefused (ref : TableRef) :
    refused (resolveTableRef platform db params ref).2 = false := by
  induction ref generalizing db with
  | table name label =>
    have scanned := scanAll_unrefused platform db name []
    simp only [resolveTableRef]
    split
    · rename_i failed
      rw [failed] at scanned
      exact scanned
    · rfl
  | subquery => rfl
  | function => rfl
  | join left joinType right condition leftFine rightFine =>
    have first := leftFine db
    simp only [resolveTableRef]
    split
    · rename_i failed
      rw [failed] at first
      exact first
    · rename_i between _ _
      have second := rightFine between
      split
      · rename_i failed
        rw [failed] at second
        exact second
      · exact executeJoin_unrefused ..

theorem extractLimit_unrefused (limit : Option Expr) : refused (extractLimit limit) = false := by
  unfold extractLimit
  split <;> rfl

theorem bind_unrefused {α β : Type} {first : Except SqlError α} {next : α → Except SqlError β}
    (fine : refused first = false) (rest : ∀ value, refused (next value) = false) :
    refused (first.bind next) = false := by
  cases first with
  | error e => exact fine
  | ok value => exact rest value

variable (aggregate : SelectStmt → List Row → List SochValue → Option Nat → Option Nat → ExecutionResult)

/-- Aggregation never fails. -/
def aggregation : Aggregation :=
  fun select rows params limit offset => .ok (aggregate select rows params limit offset)

theorem finishJoin_unrefused (rows : List Row) :
    refused (finishJoin platform (aggregation aggregate) select params rows) = false := by
  unfold finishJoin
  dsimp only
  split
  · apply bind_unrefused (extractLimit_unrefused _)
    intro limit
    apply bind_unrefused (extractLimit_unrefused _)
    intro offset
    rfl
  · apply bind_unrefused (extractLimit_unrefused _)
    intro offset
    apply bind_unrefused (extractLimit_unrefused _)
    intro limit
    rfl

theorem executeJoinSelect_unrefused (ref : TableRef) :
    refused (executeJoinSelect platform (aggregation aggregate) db select ref params).2 = false := by
  have resolved := resolveTableRef_unrefused platform db params ref
  unfold executeJoinSelect
  split
  · rename_i failed
    rw [failed] at resolved
    exact resolved
  · exact finishJoin_unrefused ..

theorem executeTableSelect_unrefused (table : Str) (limit offset : Option Nat) :
    refused (executeTableSelect platform (aggregation aggregate) db select table limit offset params).2 =
      false := by
  unfold executeTableSelect
  split
  · have selected := select_unrefused platform db table [] select.whereClause [] none none params
    split
    · rename_i failed
      rw [failed] at selected
      exact selected
    · rfl
    · rfl
  · exact select_unrefused ..

end Selects

section Statements
variable {H : KeyHashes} (platform : Platform) (moment : Moment) (db : Database H) (bridge : Bridge)
variable (params : List SochValue)
variable (aggregate : SelectStmt → List Row → List SochValue → Option Nat → Option Nat → ExecutionResult)

def answer (stmt : Statement) : Except SqlError ExecutionResult :=
  (executeStatement platform (aggregation aggregate) moment db bridge params stmt).2.2

theorem permitted_unrefused {table : Str} {op : PermissionOp}
    {run : Database H × Connection × Except SqlError ExecutionResult}
    (allowed : checkTablePermission bridge table op = .ok ()) (fine : refused run.2.2 = false) :
    refused (permitted db bridge table op run).2.2 = false := by
  simp only [permitted, allowed]
  exact fine

theorem answer_of_failed_lookup {stmt : Statement} {table : Str} {op : PermissionOp} {e : SqlError}
    (looked : lookedUp stmt = some (table, op))
    (failed : checkTablePermission bridge table op = .error e) :
    answer platform moment db bridge params aggregate stmt = .error e := by
  unfold answer
  cases stmt with
  | select select =>
    simp only [lookedUp] at looked
    split at looked
    · rename_i from_one
      cases looked
      simp only [executeStatement, keeping, executeSelect, from_one, failed, bind, Except.bind]
    · cases looked
  | insert stmt | update stmt | delete stmt =>
    cases looked
    simp only [executeStatement, executeInsert, executeUpdate, executeDelete, permitted, failed]
  | _ => cases looked

theorem select_unrefused_of_allowed {select : SelectStmt}
    (allowed : ∀ table op, lookedUp (.select select) = some (table, op) →
      checkTablePermission bridge table op = .ok ()) :
    refused (executeSelect platform (aggregation aggregate) db bridge select params).2 = false := by
  unfold executeSelect
  split
  · rfl
  · exact executeJoinSelect_unrefused ..
  · rfl
  · rfl
  · rename_i table label from_one
    have fine := allowed table .select (by simp only [lookedUp, from_one])
    simp only [fine, bind, Except.bind]
    have limited := extractLimit_unrefused select.limit
    have shifted := extractLimit_unrefused select.offset
    cases limit : extractLimit select.limit with
    | error e =>
      rw [limit] at limited
      exact limited
    | ok n =>
      cases offset : extractLimit select.offset with
      | error e =>
        rw [offset] at shifted
        exact shifted
      | ok m => exact executeTableSelect_unrefused ..
  · rfl

theorem answer_unrefused_of_allowed {stmt : Statement} (touches : touched stmt ≠ [])
    (allowed : ∀ table op, lookedUp stmt = some (table, op) →
      checkTablePermission bridge table op = .ok ()) :
    refused (answer platform moment db bridge params aggregate stmt) = false := by
  cases stmt with
  | select select => exact select_unrefused_of_allowed platform db bridge params aggregate allowed
  | insert stmt =>
    apply permitted_unrefused _ _ (allowed _ _ rfl)
    split
    · exact insert_unrefused ..
    · rfl
    · rfl
  | update stmt => exact permitted_unrefused _ _ (allowed _ _ rfl) (update_unrefused ..)
  | delete stmt => exact permitted_unrefused _ _ (allowed _ _ rfl) (delete_unrefused ..)
  | _ => exact absurd rfl touches

/-- A statement that names a table is refused exactly if it is not a SELECT from a join or from
    several tables and the first rule for its operation denies, and then on every database. -/
theorem refused_iff_guarded (stmt : Statement) (touches : touched stmt ≠ []) :
    ((∃ message, answer platform moment db bridge params aggregate stmt =
        .error (.permissionDenied message)) ↔ Guarded bridge stmt) ∧
      (Guarded bridge stmt → ∀ other : Database H, answer platform moment other bridge params aggregate stmt =
        answer platform moment db bridge params aggregate stmt) := by
  have everywhere : Guarded bridge stmt → ∃ message, ∀ other : Database H,
      answer platform moment other bridge params aggregate stmt = .error (.permissionDenied message) := by
    rintro ⟨t, o, rules, looked, known, first⟩
    have refusal := (check_refuses_iff bridge t o).mpr ⟨rules, known, first⟩
    obtain ⟨message, failed⟩ := (refused_iff _).mp refusal
    exact ⟨message, fun other => answer_of_failed_lookup platform moment other bridge params aggregate looked failed⟩
  refine ⟨⟨?_, ?_⟩, ?_⟩
  · intro denial
    have refusal := (refused_iff _).mpr denial
    by_contra unguarded
    have allowed : ∀ t o, lookedUp stmt = some (t, o) → checkTablePermission bridge t o = .ok () := by
      intro t o looked
      cases outcome : checkTablePermission bridge t o with
      | ok _ => rfl
      | error e =>
        obtain ⟨rules, known, first⟩ :=
          (check_refuses_iff bridge t o).mp (check_only_refuses bridge t o outcome)
        exact absurd ⟨t, o, rules, looked, known, first⟩ unguarded
    rw [answer_unrefused_of_allowed platform moment db bridge params aggregate touches allowed] at refusal
    cases refusal
  · intro guarded
    obtain ⟨message, denied⟩ := everywhere guarded
    exact ⟨message, denied db⟩
  · intro guarded other
    obtain ⟨message, denied⟩ := everywhere guarded
    rw [denied, denied]

end Statements

section Leak

def secret : Str := Str.ascii "secret"

def pinColumn : Str := Str.ascii "pin"

def guardian : Bridge :=
  ⟨.new, AList.insert secret [⟨.select, .literal (.boolean false)⟩] ∅⟩

def selectFrom (ref : TableRef) : Statement :=
  .select ⟨[.wildcard], some [ref], none, [], none, [], none, none⟩

def vault (pin : Int64) : Database lengthHashes :=
  let schema := fun name column => TableSchema.mk (Str.ascii name) [⟨Str.ascii column, .int64, false⟩]
  let row := fun column (value : Int64) => (AList.insert (Str.ascii column) (.int value) ∅ : Row)
  let db := (Database.openWith ieee 1 [] .standard true).1
  let db := (db.registerTable (schema "public" "id")).1
  let db := (db.registerTable (schema "secret" "pin")).1
  let (db, txn) := db.beginTransaction ieee 0
  let db := (db.insertRow ieee txn 0 (Str.ascii "public") 1 (row "id" 7)).1
  let db := (db.insertRow ieee txn 0 secret 1 (row "pin" pin)).1
  (db.commit ieee txn true 0).1

def pinsOf : Except SqlError ExecutionResult → Option (List (Option SochValue))
  | .ok (.rows _ rows) => some (rows.map fun row => get row pinColumn)
  | _ => none

theorem plain_select_is_refused :
    ∃ message, answer .plain .zero (vault 1) guardian [] (fun _ _ _ _ _ => .ok)
      (selectFrom (.table secret none)) = .error (.permissionDenied message) :=
  (refused_iff_guarded .plain .zero (vault 1) guardian [] (fun _ _ _ _ _ => .ok)
    (selectFrom (.table secret none)) (by decide)).1.mpr
    ⟨secret, .select, _, rfl, rfl, fun rule found => by cases found; rfl⟩

/-- The same table is read by a join. -/
example : pinsOf (answer .plain .zero (vault 1) guardian [] (fun _ _ _ _ _ => .ok)
    (selectFrom (.join (.table (Str.ascii "public") none) .inner (.table secret none) none))) =
      some [some (.int 1)] := by
  decide +kernel

end Leak
end TablePermissions
