import SochDB.SqlConnection

/-!
The three SELECTs that split a table by a predicate: those that keep the rows where it is
true, where its negation is true and where it is NULL. An expression over a row has a value
or has none, and a row falls into one of the three if the value is a truth value or NULL.
-/
namespace ThreeValuedLogic
open KeyedMaps Utf8 WalRecords BloomFilter PackedRows DatabaseKernel Queries SqlExpressions Option
open SqlConnection

def isComparison : BinaryOperator → Bool
  | .eq | .ne | .lt | .le | .gt | .ge => true
  | _ => false

/-- Predicates from columns and literals by comparisons, AND, OR, NOT, IS NULL, BETWEEN, IN
    and LIKE. -/
inductive Predicate : Expr → Prop where
  | column (ref : ColumnRef) : Predicate (.column ref)
  | literal (lit : Literal) : Predicate (.literal lit)
  | binary {left right : Expr} {op : BinaryOperator}
      (known : isComparison op = true ∨ op = .and ∨ op = .or ∨ op = .like)
      (first : Predicate left) (second : Predicate right) : Predicate (.binaryOp left op right)
  | not {inner : Expr} (held : Predicate inner) : Predicate (.unaryOp .not inner)
  | isNull {inner : Expr} (held : Predicate inner) (negated : Bool) : Predicate (.isNull inner negated)
  | between {inner low high : Expr} (held : Predicate inner) (lower : Predicate low)
      (upper : Predicate high) (negated : Bool) : Predicate (.between inner low high negated)
  | inList {inner : Expr} {list : List Expr} (held : Predicate inner)
      (items : ∀ item ∈ list, Predicate item) (negated : Bool) : Predicate (.inList inner list negated)
  | like {inner pattern : Expr} (held : Predicate inner) (against : Predicate pattern) (negated : Bool) :
      Predicate (.like inner pattern negated)

/-- The row has every column that the predicate mentions outside the lists of IN. -/
def Present (row : Row) : Expr → Prop
  | .column ref => (lookupColumn row ref).isSome
  | .literal _ => True
  | .binaryOp left _ right => Present row left ∧ Present row right
  | .unaryOp _ inner | .isNull inner _ | .inList inner _ _ => Present row inner
  | .between inner low high _ => Present row inner ∧ Present row low ∧ Present row high
  | .like inner pattern _ => Present row inner ∧ Present row pattern
  | _ => False

/-- A column or literal, under any number of NOTs, that holds no truth value. -/
def Untrue (row : Row) : Expr → Prop
  | .column ref => ∃ value, lookupColumn row ref = some value ∧ ∀ b, value ≠ .bool b
  | .literal lit => ∀ b, lit ≠ .boolean b
  | .unaryOp _ inner => Untrue row inner
  | _ => False

/-- A column that holds NULL, the literal NULL, or the negation of something that is no
    truth value. -/
def NullOn (row : Row) : Expr → Prop
  | .column ref => lookupColumn row ref = some .null
  | .literal lit => lit = .null
  | .unaryOp _ inner => Untrue row inner
  | _ => False

/-- A bare column or literal holds a truth value or NULL. -/
def Truthful (row : Row) : Expr → Prop
  | .column ref => lookupColumn row ref = some .null ∨ ∃ b, lookupColumn row ref = some (.bool b)
  | .literal lit => lit = .null ∨ ∃ b, lit = .boolean b
  | _ => True

def comparisonOf : Expr → Option (Expr × Expr)
  | .binaryOp left op right => if isComparison op then some (left, right) else none
  | _ => none

/-- The predicate has its columns, is a truth value or NULL where it is a bare column or
    literal, and compares nothing with NULL at its root. -/
structure Decided (row : Row) (p : Expr) : Prop where
  present : Present row p
  truthful : Truthful row p
  compared : ∀ left right, comparisonOf p = some (left, right) → ¬NullOn row left ∧ ¬NullOn row right

section Values
variable (host : Host) (row : Row) (params : List SochValue)
variable {e : Expr}

theorem eval_isSome_iff (grammar : Predicate e) :
    (evalExpr host row params e).isSome ↔ Present row e := by
  induction grammar with
  | column ref => rfl
  | literal lit => simp [evalExpr, Present]
  | binary known first second leftSome rightSome =>
    rw [evalExpr, Present, ← leftSome, ← rightSome, isSome_bind]
    cases evalExpr host row params _ <;> simp
  | not held innerSome | isNull held negated innerSome | inList held items negated innerSome _ =>
    rw [evalExpr, Present, isSome_map, innerSome]
  | between held lower upper negated innerSome lowSome highSome =>
    rw [evalExpr, Present, ← innerSome, ← lowSome, ← highSome]
    cases evalExpr host row params _ <;> cases evalExpr host row params _ <;>
      cases evalExpr host row params _ <;> simp
  | like held against negated innerSome patternSome =>
    rw [evalExpr, Present, ← innerSome, ← patternSome]
    cases evalExpr host row params _ <;> cases evalExpr host row params _ <;> simp

def isTest : Expr → Bool
  | .binaryOp .. | .isNull .. | .between .. | .inList .. | .like .. => true
  | _ => false

theorem evalBinaryOp_truth {op : BinaryOperator}
    (known : isComparison op = true ∨ op = .and ∨ op = .or ∨ op = .like) (lhs rhs : SochValue) :
    ∃ b, evalBinaryOp host lhs op rhs = .bool b := by
  cases op <;> simp [isComparison] at known <;> unfold evalBinaryOp <;> dsimp only
  case like => split <;> exact ⟨_, rfl⟩
  all_goals exact ⟨_, rfl⟩

theorem test_truth (grammar : Predicate e) (test : isTest e = true) {value : SochValue}
    (given : evalExpr host row params e = some value) : ∃ b, value = .bool b := by
  cases grammar with
  | column | literal | not => cases test
  | binary known first second =>
    simp only [evalExpr, bind_eq_some_iff, map_eq_some_iff] at given
    obtain ⟨lhs, _, rhs, _, rfl⟩ := given
    exact evalBinaryOp_truth host known lhs rhs
  | isNull | inList =>
    simp only [evalExpr, map_eq_some_iff] at given
    obtain ⟨inner, _, rfl⟩ := given
    exact ⟨_, rfl⟩
  | between held lower upper negated =>
    simp only [evalExpr, bind_eq_some_iff, map_eq_some_iff] at given
    obtain ⟨inner, _, lo, _, hi, _, rfl⟩ := given
    exact ⟨_, rfl⟩
  | like held against negated =>
    simp only [evalExpr, bind_eq_some_iff, map_eq_some_iff] at given
    obtain ⟨inner, _, pat, _, rfl⟩ := given
    split <;> exact ⟨_, rfl⟩

theorem not_truth_iff (value : SochValue) (b : Bool) :
    evalUnaryOp .not value = .bool b ↔ value = .bool (!b) := by
  cases value with
  | bool held => cases held <;> cases b <;> decide
  | _ => simp [evalUnaryOp]

theorem not_null_iff (value : SochValue) : evalUnaryOp .not value = .null ↔ ∀ b, value ≠ .bool b := by
  cases value <;> simp [evalUnaryOp]

theorem test_never_untrue (grammar : Predicate e) (test : isTest e = true) :
    ¬∃ value, evalExpr host row params e = some value ∧ ∀ b, value ≠ .bool b := by
  rintro ⟨value, given, other⟩
  obtain ⟨b, truth⟩ := test_truth host row params grammar test given
  exact other b truth

theorem untrue_iff (grammar : Predicate e) :
    Untrue row e ↔ ∃ value, evalExpr host row params e = some value ∧ ∀ b, value ≠ .bool b := by
  have tested := @test_never_untrue host row params
  induction grammar with
  | column ref => rfl
  | literal lit => cases lit <;> simp [Untrue, evalExpr, literalToCore]
  | not held inside =>
    apply inside.trans
    simp only [evalExpr, map_eq_some_iff, exists_exists_and_eq_and, ne_eq, not_truth_iff]
    constructor
    · rintro ⟨value, given, other⟩
      exact ⟨value, given, fun b => other (!b)⟩
    · rintro ⟨value, given, other⟩
      refine ⟨value, given, fun b => ?_⟩
      have unequal := other (!b)
      rwa [Bool.not_not] at unequal
  -- the other forms are tests
  | _ => exact iff_of_false id (tested (by constructor <;> assumption) rfl)

theorem test_never_null (grammar : Predicate e) (test : isTest e = true) :
    evalExpr host row params e ≠ some .null := by
  intro given
  obtain ⟨b, truth⟩ := test_truth host row params grammar test given
  cases truth

theorem nullOn_iff (grammar : Predicate e) :
    NullOn row e ↔ evalExpr host row params e = some .null := by
  have tested := @test_never_null host row params
  cases grammar with
  | column ref => rfl
  | literal lit => cases lit <;> simp [NullOn, evalExpr, literalToCore]
  | not held =>
    rw [NullOn, untrue_iff host row params held, evalExpr, map_eq_some_iff]
    simp only [not_null_iff]
  -- the other forms are tests
  | _ => exact iff_of_false id (tested (by constructor <;> assumption) rfl)

def Settled (e : Expr) : Prop :=
  evalExpr host row params e = some .null ∨ ∃ b, evalExpr host row params e = some (.bool b)

theorem settled_of_test (grammar : Predicate e) (test : isTest e = true) :
    Settled host row params e ↔ Present row e := by
  rw [← eval_isSome_iff host row params grammar, isSome_iff_exists]
  constructor
  · rintro (given | ⟨b, given⟩)
    · exact ⟨_, given⟩
    · exact ⟨_, given⟩
  · rintro ⟨value, given⟩
    obtain ⟨b, rfl⟩ := test_truth host row params grammar test given
    exact .inr ⟨b, given⟩

theorem settled_iff (grammar : Predicate e) :
    Settled host row params e ↔ Present row e ∧ Truthful row e := by
  have tested := @settled_of_test host row params
  cases grammar with
  | column ref =>
    rw [Settled, Truthful, Present, evalExpr]
    constructor
    · rintro (given | ⟨b, given⟩)
      · exact ⟨by rw [given]; rfl, .inl given⟩
      · exact ⟨by rw [given]; rfl, .inr ⟨b, given⟩⟩
    · exact And.right
  | literal lit => cases lit <;> simp [Settled, Present, Truthful, evalExpr, literalToCore]
  | @not inner held =>
    have plain : Present row (.unaryOp .not inner) ∧ Truthful row (.unaryOp .not inner) ↔
        (evalExpr host row params inner).isSome := by
      rw [eval_isSome_iff host row params held]
      exact and_iff_left trivial
    rw [plain, Settled, evalExpr]
    cases given : evalExpr host row params inner with
    | none => simp
    | some value =>
      simp only [map_some, some.injEq, isSome_some, iff_true, not_null_iff,
        not_truth_iff]
      by_cases truth : ∃ b, value = .bool b
      · obtain ⟨b, rfl⟩ := truth
        exact .inr ⟨!b, by rw [Bool.not_not]⟩
      · exact .inl (not_exists.mp truth)
  -- the other forms are tests
  | _ => exact (tested (by constructor <;> assumption) rfl).trans (iff_of_eq (and_true _)).symm

end Values

theorem comparison_parts {p left right : Expr} (grammar : Predicate p)
    (compares : comparisonOf p = some (left, right)) :
    isTest p = true ∧ Predicate left ∧ Predicate right := by
  cases grammar with
  | binary known first second =>
    simp only [comparisonOf] at compares
    split at compares
    · cases compares
      exact ⟨rfl, first, second⟩
    · cases compares
  | _ => cases compares

section Rows
variable (host : Host) (row : Row) (params : List SochValue) (p : Expr)

theorem matches_true : rowMatches host p row params = true ↔
    evalExpr host row params p = some (.bool true) := by
  rw [rowMatches, decide_eq_true_eq]

theorem matches_not : rowMatches host (.unaryOp .not p) row params = true ↔
    evalExpr host row params p = some (.bool false) := by
  rw [rowMatches, decide_eq_true_eq, evalExpr, map_eq_some_iff]
  simp only [not_truth_iff, Bool.not_true, exists_eq_right]

theorem matches_null : rowMatches host (.isNull p false) row params = true ↔
    evalExpr host row params p = some .null := by
  rw [rowMatches, decide_eq_true_eq, evalExpr, map_eq_some_iff]
  simp

def ExactlyOne (a b c : Prop) : Prop := (a ∧ ¬b ∧ ¬c) ∨ (¬a ∧ b ∧ ¬c) ∨ (¬a ∧ ¬b ∧ c)

theorem exactly_one_iff : ExactlyOne (rowMatches host p row params = true)
    (rowMatches host (.unaryOp .not p) row params = true)
    (rowMatches host (.isNull p false) row params = true) ↔ Settled host row params p := by
  rw [matches_true, matches_not, matches_null, Settled, ExactlyOne]
  cases evalExpr host row params p with
  | none => simp
  | some value =>
    cases value with
    | bool b => cases b <;> simp
    | null => simp
    | _ => simp

end Rows

section Tables
variable {H : KeyHashes} (platform : Platform) (db : Database H) (table : Str) (params : List SochValue)

def returned (whereClause : Option Expr) : List Row :=
  match (SqlConnection.select platform db table [] whereClause [] none none params).2 with
  | .ok (.rows _ rows) => rows
  | _ => []

theorem returned_where (p : Expr) : returned platform db table params (some p) =
    (returned platform db table params none).filter fun row => rowMatches platform.host p row params := by
  unfold returned SqlConnection.select
  dsimp only
  cases (queryAlone platform db table (requested [])).2 with
  | error e => rfl
  | ok result =>
    simp only [sortRows, skip, truncate, List.isEmpty_nil, if_true]
    have all : result.rows.filter (satisfies platform none params) = result.rows :=
      List.filter_true _
    rw [all]
    rfl

/-- A predicate splits the rows of a table into those where it is true, where it is false
    and where it is NULL, with every comparison with NULL among the last, exactly if on every
    row it has its columns, is no bare value of another type and compares nothing with NULL. -/
theorem where_splits_rows_iff (p : Expr) (grammar : Predicate p) :
    (∀ row ∈ returned platform db table params none,
      ExactlyOne (row ∈ returned platform db table params (some p))
        (row ∈ returned platform db table params (some (.unaryOp .not p)))
        (row ∈ returned platform db table params (some (.isNull p false))) ∧
      ∀ left right, comparisonOf p = some (left, right) →
        evalExpr platform.host row params left = some .null ∨
          evalExpr platform.host row params right = some .null →
        row ∈ returned platform db table params (some (.isNull p false))) ↔
    ∀ row ∈ returned platform db table params none, Decided row p := by
  apply forall₂_congr
  intro row member
  simp only [returned_where, List.mem_filter, member, true_and]
  rw [exactly_one_iff, settled_iff _ _ _ grammar, matches_null]
  constructor
  · rintro ⟨⟨present, truthful⟩, third⟩
    refine ⟨present, truthful, fun left right compares => ?_⟩
    obtain ⟨test, first, second⟩ := comparison_parts grammar compares
    have never := test_never_null platform.host row params grammar test
    rw [nullOn_iff platform.host row params first, nullOn_iff platform.host row params second]
    constructor
    · intro leftNull
      exact never (third left right compares (.inl leftNull))
    · intro rightNull
      exact never (third left right compares (.inr rightNull))
  · intro decided
    refine ⟨⟨decided.present, decided.truthful⟩, fun left right compares nullOperand => ?_⟩
    obtain ⟨_, first, second⟩ := comparison_parts grammar compares
    obtain ⟨notLeft, notRight⟩ := decided.compared left right compares
    rw [nullOn_iff platform.host row params first] at notLeft
    rw [nullOn_iff platform.host row params second] at notRight
    rcases nullOperand with leftNull | rightNull
    · exact absurd leftNull notLeft
    · exact absurd rightNull notRight

end Tables

section Runs

def people : Str := Str.ascii "people"

def age : ColumnRef := ⟨none, Str.ascii "age"⟩

def census (value : SochValue) : Database lengthHashes :=
  let db := (Database.openWith ieee 1 [] .standard true).1
  let db := (db.registerTable ⟨people, [⟨age.column, .int64, true⟩]⟩).1
  let (db, txn) := db.beginTransaction ieee 0
  let db := (db.insertRow ieee txn 0 people 1 (AList.insert age.column value ∅)).1
  (db.commit ieee txn true 0).1

def below (limit : Int64) : Expr := .binaryOp (.column age) .lt (.literal (.integer limit))

theorem below_grammar (limit : Int64) : Predicate (below limit) :=
  .binary (.inl rfl) (.column age) (.literal _)

theorem known_age_is_split :
    Predicate (below 18) ∧
    ∀ row ∈ returned .plain (census (.int 40)) people [] none,
      ExactlyOne (row ∈ returned .plain (census (.int 40)) people [] (some (below 18)))
        (row ∈ returned .plain (census (.int 40)) people [] (some (.unaryOp .not (below 18))))
        (row ∈ returned .plain (census (.int 40)) people [] (some (.isNull (below 18) false))) ∧
      ∀ left right, comparisonOf (below 18) = some (left, right) →
        evalExpr Host.plain row [] left = some .null ∨ evalExpr Host.plain row [] right = some .null →
        row ∈ returned .plain (census (.int 40)) people [] (some (.isNull (below 18) false)) := by
  refine ⟨below_grammar 18, (where_splits_rows_iff .plain (census (.int 40)) people [] (below 18)
    (below_grammar 18)).mpr ?_⟩
  have ages : ∀ row ∈ returned .plain (census (.int 40)) people [] none,
      lookupColumn row age = some (.int 40) := by
    decide +kernel
  intro row member
  have known := ages row member
  refine ⟨⟨by rw [Present, known]; rfl, trivial⟩, trivial, ?_⟩
  intro left right compares
  cases compares
  constructor
  · intro isNull
    rw [NullOn, known] at isNull
    cases isNull
  · intro isNull
    cases isNull

theorem null_is_below_everything :
    (returned .plain (census .null) people [] none).map (fun row => get row age.column) = [some .null] ∧
    (returned .plain (census .null) people [] (some (below 18))).map (fun row => get row age.column) =
      [some .null] ∧
    (returned .plain (census .null) people [] (some (.isNull (below 18) false))).length = 0 := by
  decide +kernel

end Runs
end ThreeValuedLogic
