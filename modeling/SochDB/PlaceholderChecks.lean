import SochDB.SqlBridge

/-!
The check of placeholders before a statement is executed. A statement is its syntax tree, every
part under the field of the source's record that holds it, so that the positions the visitor
descends into and those its catch-all arms skip are one table over the whole syntax.
-/
namespace PlaceholderChecks
open PackedRows SqlExpressions SqlConnection List

inductive Field where
  | selectColumns | selectFrom | selectWhere | groupBy | having | orderBy | limit | offset | unions
  | joinLeft | joinRight | joinOn | tableSubquery | tableFunctionArgs
  | insertValues | insertQuery | onConflictDoUpdate | insertReturning
  | updateAssignments | updateFrom | updateWhere | updateReturning
  | deleteUsing | deleteWhere | deleteReturning
  | binaryLeft | binaryRight | unaryExpr | functionArgs | functionFilter
  | overPartitionBy | overOrderBy | overFrame
  | caseOperand | caseWhen | caseThen | caseElse
  | subquery | existsSubquery | inListExpr | inListList | inSubqueryExpr | inSubquerySubquery
  | betweenExpr | betweenLow | betweenHigh | likeExpr | likePattern | likeEscape
  | isNullExpr | castExpr | array | tuple | subscriptExpr | subscriptIndex
  | vectorColumn | vectorQuery | jsonExpr | jsonPath | contextSource | contextPriority | recordId
  | columnDefault | columnCheck | columnGenerated | tableCheck | setDefault | indexWhere
  | explained | scopeSignin | scopeSignup | permissionCondition
  | relateFrom | relateTo | relateSet | relateContent | relateReturning
  | liveSelect | eventCondition | eventAction
  deriving DecidableEq

/-- The parts of a statement, expression or table from left to right. -/
inductive Part where
  | done
  | placeholder (idx : UInt32)
  | field (name : Field) (part rest : Part)

/-- The fields that `visit_statement`, `visit_select`, `visit_insert`, `visit_update`,
`visit_delete` and `visit_expr` descend into. -/
def visits : Field → Bool
  | .selectColumns | .selectWhere | .having | .orderBy | .limit | .offset => true
  | .insertValues | .updateAssignments | .updateWhere | .deleteWhere => true
  | .binaryLeft | .binaryRight | .unaryExpr | .functionArgs => true
  | .caseOperand | .caseWhen | .caseThen | .caseElse => true
  | .inListExpr | .inListList | .betweenExpr | .betweenLow | .betweenHigh | .castExpr => true
  | _ => false

def visit (maxPlaceholder : UInt32) : Part → UInt32
  | .done => maxPlaceholder
  | .placeholder idx => max maxPlaceholder idx
  | .field name part rest =>
    visit (if visits name then visit maxPlaceholder part else maxPlaceholder) rest

def findMaxPlaceholder (stmt : Part) : UInt32 := visit 0 stmt

section Execution
variable {S R : Type}

def executeWithParams (execute : Part → List SochValue → S → S × Except SqlError R) (stmt : Part)
    (params : List SochValue) (state : S) : S × Except SqlError R :=
  let maxPlaceholder := findMaxPlaceholder stmt
  if maxPlaceholder.toNat > params.length then
    (state, .error (.invalidArgument ("Query contains " ++ toString maxPlaceholder ++
      " placeholders but only " ++ toString params.length ++ " parameters provided")))
  else execute stmt params state

end Execution

def placeholders (through : Field → Bool) : Part → List UInt32
  | .done => []
  | .placeholder idx => [idx]
  | .field name part rest =>
    (if through name then placeholders through part else []) ++ placeholders through rest

def occurring (stmt : Part) : List UInt32 := placeholders (fun _ => true) stmt

def visited (stmt : Part) : List UInt32 := placeholders visits stmt

def Missing (params : List SochValue) (idx : UInt32) : Prop := idx = 0 ∨ params.length < idx.toNat

def RejectedFirst (stmt : Part) (params : List SochValue) : Prop :=
  ∀ (S R : Type) (execute : Part → List SochValue → S → S × Except SqlError R) (state : S),
    ∃ error, executeWithParams execute stmt params state = (state, .error error)

section Expressions

mutual

/-- The evaluated expressions in this syntax. The parts of a CASE are all visited alike. -/
def partOf : Expr → Part
  | .placeholder idx => .placeholder idx
  | .binaryOp left _ right => .field .binaryLeft (partOf left) (.field .binaryRight (partOf right) .done)
  | .unaryOp _ expr => .field .unaryExpr (partOf expr) .done
  | .function _ args _ => partsOf .functionArgs args
  | .case parts => partsOf .caseWhen parts
  | .inList expr list _ => .field .inListExpr (partOf expr) (partsOf .inListList list)
  | .between expr low high _ => .field .betweenExpr (partOf expr)
      (.field .betweenLow (partOf low) (.field .betweenHigh (partOf high) .done))
  | .like expr pattern _ => .field .likeExpr (partOf expr) (.field .likePattern (partOf pattern) .done)
  | .isNull expr _ => .field .isNullExpr (partOf expr) .done
  | .literal _ | .column _ | .other => .done

def partsOf (name : Field) : List Expr → Part
  | [] => .done
  | expr :: rest => .field name (partOf expr) (partsOf name rest)

end

@[simp] theorem occurring_field (name : Field) (part rest : Part) :
    occurring (.field name part rest) = occurring part ++ occurring rest := rfl

variable {host : Host} {row : PackedRows.Row} {params others : List SochValue}

mutual

/-- An expression reads the parameters that occur in it and no others. -/
theorem evalExpr_reads : (e : Expr) → (∀ idx ∈ occurring (partOf e), param params idx = param others idx) →
    evalExpr host row params e = evalExpr host row others e
  | .placeholder idx, same => by
    rw [evalExpr, evalExpr]
    exact same idx (mem_singleton_self idx)
  | .binaryOp left _ right, same => by
    simp only [partOf, occurring_field, forall_mem_append] at same
    rw [evalExpr, evalExpr, evalExpr_reads left same.1, evalExpr_reads right same.2.1]
  | .unaryOp _ expr, same => by
    simp only [partOf, occurring_field, forall_mem_append] at same
    rw [evalExpr, evalExpr, evalExpr_reads expr same.1]
  | .function _ args _, same => by
    rw [evalExpr, evalExpr, evalAll_reads args same]
  | .inList expr list _, same => by
    simp only [partOf, occurring_field, forall_mem_append] at same
    rw [evalExpr, evalExpr, evalExpr_reads expr same.1, evalAll_reads list same.2]
  | .between expr low high _, same => by
    simp only [partOf, occurring_field, forall_mem_append] at same
    rw [evalExpr, evalExpr, evalExpr_reads expr same.1, evalExpr_reads low same.2.1,
      evalExpr_reads high same.2.2.1]
  | .like expr pattern _, same => by
    simp only [partOf, occurring_field, forall_mem_append] at same
    rw [evalExpr, evalExpr, evalExpr_reads expr same.1, evalExpr_reads pattern same.2.1]
  | .isNull expr _, same => by
    simp only [partOf, occurring_field, forall_mem_append] at same
    rw [evalExpr, evalExpr, evalExpr_reads expr same.1]
  | .literal _, _ | .column _, _ | .case _, _ | .other, _ => by rw [evalExpr, evalExpr]

theorem evalAll_reads {name : Field} : (list : List Expr) →
    (∀ idx ∈ occurring (partsOf name list), param params idx = param others idx) →
    evalAll host row params list = evalAll host row others list
  | [], _ => by rw [evalAll, evalAll]
  | expr :: rest, same => by
    simp only [partsOf, occurring_field, forall_mem_append] at same
    rw [evalAll, evalAll, evalExpr_reads expr same.1, evalAll_reads rest same.2]

end

end Expressions

theorem visit_exceeds_iff (bound : Nat) (stmt : Part) (maxPlaceholder : UInt32) :
    bound < (visit maxPlaceholder stmt).toNat ↔
      bound < maxPlaceholder.toNat ∨ ∃ idx ∈ visited stmt, bound < idx.toNat := by
  induction stmt generalizing maxPlaceholder with
  | done => simp [visit, visited, placeholders]
  | placeholder idx =>
    simp only [visit, visited, placeholders, mem_singleton, exists_eq_left]
    have chosen : max maxPlaceholder idx =
        if maxPlaceholder ≤ idx then idx else maxPlaceholder := rfl
    rw [chosen]
    split
    · have := UInt32.le_iff_toNat_le.mp ‹_›
      omega
    · have := mt UInt32.le_iff_toNat_le.mpr ‹_›
      omega
  | field name part rest onPart onRest =>
    rw [visit, onRest]
    cases reached : visits name with
    | false => simp [visited, placeholders, reached]
    | true =>
      simp only [if_true, onPart, visited, placeholders, reached, mem_append, or_and_right,
        exists_or, or_assoc]

theorem rejected_iff (stmt : Part) (params : List SochValue) :
    RejectedFirst stmt params ↔ ∃ idx ∈ visited stmt, params.length < idx.toNat := by
  have exceeds := visit_exceeds_iff params.length stmt 0
  simp only [UInt32.toNat_zero, Nat.not_lt_zero, false_or] at exceeds
  rw [← exceeds]
  constructor
  · intro rejected
    obtain ⟨error, answer⟩ := rejected Unit Unit (fun _ _ state => (state, .ok ())) ()
    by_contra within
    simp [executeWithParams, findMaxPlaceholder, within] at answer
  · intro over_the_end S R execute state
    exact ⟨_, if_pos over_the_end⟩

def Noticed (stmt : Part) (params : List SochValue) : Prop :=
  (∀ idx ∈ occurring stmt, ¬ Missing params idx) ∨ ∃ idx ∈ visited stmt, params.length < idx.toNat

theorem supplied_is_some {params : List SochValue} {idx : UInt32}
    (supplied : ¬ Missing params idx) : (param params idx).isSome := by
  have nonzero : idx.toNat ≠ 0 := fun zero => supplied (.inl (UInt32.toNat_inj.mp zero))
  have within : ¬ params.length < idx.toNat := fun beyond => supplied (.inr beyond)
  rw [param, Option.isSome_iff_ne_none, Ne, List.getElem?_eq_none_iff]
  omega

/-- A statement with a missing parameter is rejected before it is executed exactly where the
visitor notices it, and what is then executed reads supplied parameters only. -/
theorem missing_rejected_iff (stmt : Part) (params : List SochValue) :
    (((∃ idx ∈ occurring stmt, Missing params idx) → RejectedFirst stmt params) ↔
      Noticed stmt params) ∧
    (Noticed stmt params → ¬ RejectedFirst stmt params →
      ∀ idx ∈ occurring stmt, (param params idx).isSome) := by
  rw [rejected_iff]
  constructor
  · rw [imp_iff_not_or, Noticed]
    simp only [not_exists, not_and]
  · intro noticed accepted idx present
    exact supplied_is_some (noticed.resolve_right accepted idx present)

theorem supplied_is_read : (param [.int 7] 1).isSome := by
  let stmt : Part := .field .selectColumns .done (.field .selectFrom .done
    (.field .selectWhere (.field .binaryLeft .done
      (.field .binaryRight (.placeholder 1) .done)) .done))
  have supplied : ∀ idx ∈ occurring stmt, ¬ Missing [.int 7] idx := by
    intro idx present
    rw [mem_singleton.mp present, Missing]
    decide
  have accepted : ¬ RejectedFirst stmt [.int 7] := by
    rw [rejected_iff]
    rintro ⟨idx, seen, beyond⟩
    rw [mem_singleton.mp seen] at beyond
    exact absurd beyond (by decide)
  exact (missing_rejected_iff stmt [.int 7]).2 (.inl supplied) accepted 1 (mem_singleton.mpr rfl)

/-- `SELECT a FROM t WHERE a LIKE $1` without parameters and `SELECT a FROM t WHERE a = $0` with
one are executed; the first finds no value, the second the first parameter. -/
theorem missing_parameters_pass :
    let query (condition : Part) : Part := .field .selectColumns .done
      (.field .selectFrom .done (.field .selectWhere condition .done))
    let like := query (.field .likeExpr .done (.field .likePattern (.placeholder 1) .done))
    let zero := query (.field .binaryLeft .done (.field .binaryRight (.placeholder 0) .done))
    (1 ∈ occurring like ∧ Missing [] 1 ∧ ¬ RejectedFirst like [] ∧ param [] 1 = none) ∧
    (0 ∈ occurring zero ∧ Missing [.int 7] 0 ∧ ¬ RejectedFirst zero [.int 7] ∧
      param [.int 7] 0 = some (.int 7)) := by
  intro query like zero
  simp only [rejected_iff]
  refine ⟨⟨mem_singleton.mpr rfl, Or.inr (by decide), ?_, rfl⟩, mem_singleton.mpr rfl, Or.inl rfl, ?_, rfl⟩
  · rintro ⟨idx, seen, _⟩
    exact absurd seen not_mem_nil
  · rintro ⟨idx, seen, beyond⟩
    rw [mem_singleton.mp seen] at beyond
    exact absurd beyond (by decide)

end PlaceholderChecks
