import SochDB.SqlConnection

/-!
Integer arithmetic in SQL expressions, against the exact integers. Evaluation can panic:
sums, differences, products and negations that overflow do so in builds with overflow
checks and wrap in others, quotients and remainders that overflow do so in every build.
-/
namespace IntegerArithmetic
open Utf8 PackedRows SqlExpressions SqlConnection Option

instance (n : Int) : Decidable (InI64 n) := inferInstanceAs (Decidable (_ ∧ _))

def arithmeticOps : List BinaryOperator := [.plus, .minus, .multiply, .divide, .modulo]

def exactOp : BinaryOperator → Int → Int → Option Int
  | .plus, a, b => some (a + b)
  | .minus, a, b => some (a - b)
  | .multiply, a, b => some (a * b)
  | .divide, a, b => if b = 0 then none else some (a.tdiv b)
  | .modulo, a, b => if b = 0 then none else some (a.tmod b)
  | _, _, _ => none

/-- The number that has to fit: a remainder is computed with its quotient. -/
def extent : BinaryOperator → Int → Int → Int
  | .plus, a, b => a + b
  | .minus, a, b => a - b
  | .multiply, a, b => a * b
  | _, a, b => a.tdiv b

section Panics

def opPanics (checks : Bool) (op : BinaryOperator) (a b : Int64) : Bool :=
  match op with
  | .plus | .minus | .multiply => checks && !decide (InI64 (extent op a.toInt b.toInt))
  | .divide | .modulo => b ≠ 0 && !decide (InI64 (extent op a.toInt b.toInt))
  | _ => false

def words : SochValue → SochValue → Option (Int64 × Int64)
  | .int a, .int b => some (a, b)
  | .uint a, .uint b => some (a.toInt64, b.toInt64)
  | _, _ => none

def binaryPanics (checks : Bool) (lhs : SochValue) (op : BinaryOperator) (rhs : SochValue) : Bool :=
  (words lhs rhs).any fun operands => opPanics checks op operands.1 operands.2

def unaryPanics (checks : Bool) : UnaryOperator → SochValue → Bool
  | .minus, .int i => checks && !decide (InI64 (-i.toInt))
  | _, _ => false

variable (checks : Bool) (host : Host) (row : Row) (params : List SochValue)

mutual

/-- Whether the evaluation of an expression panics, in the order in which its parts are
    evaluated; where it does not, `evalExpr` is its value. -/
def panics : Expr → Bool
  | .binaryOp left op right =>
    panics left || (evalExpr host row params left).any fun lhs =>
      panics right || (evalExpr host row params right).any fun rhs => binaryPanics checks lhs op rhs
  | .unaryOp op inner => panics inner || (evalExpr host row params inner).any (unaryPanics checks op)
  | .isNull inner _ => panics inner
  | .between inner low high _ =>
    panics inner || ((evalExpr host row params inner).isSome &&
      (panics low || ((evalExpr host row params low).isSome && panics high)))
  | .inList inner list _ =>
    panics inner || (evalExpr host row params inner).any fun value => anyPanics value list
  | .like inner pattern _ => panics inner || ((evalExpr host row params inner).isSome && panics pattern)
  | .function name args _ =>
    if host.toUppercase name = Str.ascii "COALESCE" then coalescePanics args else firstPanics args
  | .literal _ | .column _ | .placeholder _ | .case _ | .other => false

def anyPanics (value : SochValue) : List Expr → Bool
  | [] => false
  | item :: rest =>
    panics item || (!(evalExpr host row params item).any (valueEq · value) && anyPanics value rest)

def coalescePanics : List Expr → Bool
  | [] => false
  | arg :: rest =>
    panics arg || (!(evalExpr host row params arg).any (· ≠ .null) && coalescePanics rest)

def firstPanics : List Expr → Bool
  | [] => false
  | arg :: _ => panics arg

end

end Panics

section Trees
variable (row : Row) (params : List SochValue)

def leafValue : Expr → Option SochValue
  | .literal lit => some (literalToCore lit)
  | .column ref => lookupColumn row ref
  | .placeholder idx => param params idx
  | _ => none

inductive Arithmetic : Expr → Prop where
  | leaf {e : Expr} {value : SochValue} (given : leafValue row params e = some value)
    (isWhole : (whole value).isSome) : Arithmetic e
  | negation {e : Expr} (inner : Arithmetic e) : Arithmetic (.unaryOp .minus e)
  | operation {left right : Expr} {op : BinaryOperator} (known : op ∈ arithmeticOps) (first : Arithmetic left)
    (second : Arithmetic right) : Arithmetic (.binaryOp left op right)

def exact : Expr → Option Int
  | .unaryOp .minus inner => (exact inner).map (-·)
  | .binaryOp left op right => (exact left).bind fun a => (exact right).bind (exactOp op a)
  | e => (leafValue row params e).bind whole

inductive Kind where
  | signed | unsigned | null
  deriving DecidableEq

def kindOf : SochValue → Kind
  | .int _ => .signed
  | .uint _ => .unsigned
  | _ => .null

/-- The type of a tree: operands of different types, a negated unsigned number and a zero
    divisor make it null. -/
def kind : Expr → Kind
  | .unaryOp .minus inner => if kind inner = .signed then .signed else .null
  | .binaryOp left op right =>
    if kind left = kind right ∧ kind left ≠ .null ∧ (exact row params (.binaryOp left op right)).isSome then .signed
    else .null
  | e => ((leafValue row params e).map kindOf).getD .null

def asI64 (n : Int) : Int := (Int64.ofInt n).toInt

/-- At every operation that is not null, what has to fit does so after the casts of unsigned
    operands, and the casts do not change the result. -/
def InRange : Expr → Prop
  | .unaryOp .minus inner =>
    InRange inner ∧ (kind row params inner = .signed → ∀ n ∈ exact row params inner, InI64 (-n))
  | .binaryOp left op right =>
    InRange left ∧ InRange right ∧ (kind row params (.binaryOp left op right) = .signed →
      ∀ a ∈ exact row params left, ∀ b ∈ exact row params right,
        InI64 (extent op (asI64 a) (asI64 b)) ∧ exactOp op (asI64 a) (asI64 b) = exactOp op a b)
  | _ => True

def Throughout (P : Expr → Prop) : Expr → Prop
  | .unaryOp op inner => P (.unaryOp op inner) ∧ Throughout P inner
  | .binaryOp left op right => P (.binaryOp left op right) ∧ Throughout P left ∧ Throughout P right
  | e => P e

/-- A tree evaluates without a panic, to NULL or to its mathematical result. -/
def Exact (checks : Bool) (host : Host) (e : Expr) : Prop :=
  panics checks host row params e = false ∧
    (evalExpr host row params e = some .null ∨ ∃ value n, evalExpr host row params e = some value ∧
      whole value = some n ∧ exact row params e = some n)

end Trees

section Operations
variable {op : BinaryOperator} {a b : Int64} {lhs rhs : SochValue}

def intOp : BinaryOperator → Int64 → Int64 → Int64
  | .plus => (· + ·)
  | .minus => (· - ·)
  | .multiply => (· * ·)
  | .divide => (· / ·)
  | _ => (· % ·)

theorem known_cases (known : op ∈ arithmeticOps) :
    op = .plus ∨ op = .minus ∨ op = .multiply ∨ op = .divide ∨ op = .modulo := by
  simpa [arithmeticOps] using known

theorem bmod_of_fits {n : Int} (fits : InI64 n) : n.bmod (2 ^ 64) = n := by
  unfold InI64 at fits
  exact Int.bmod_eq_of_le_mul_two (by omega) (by omega)

theorem intOp_exact (known : op ∈ arithmeticOps) {n : Int} (fits : InI64 (extent op a.toInt b.toInt))
    (result : exactOp op a.toInt b.toInt = some n) : (intOp op a b).toInt = n := by
  rcases known_cases known with rfl | rfl | rfl | rfl | rfl
  · cases result
    exact (Int64.toInt_add a b).trans (bmod_of_fits fits)
  · cases result
    exact (Int64.toInt_sub a b).trans (bmod_of_fits fits)
  · cases result
    exact (Int64.toInt_mul a b).trans (bmod_of_fits fits)
  · obtain ⟨_, quotient⟩ := ite_none_left_eq_some.mp result
    cases quotient
    exact (Int64.toInt_div a b).trans (bmod_of_fits fits)
  · obtain ⟨_, remainder⟩ := ite_none_left_eq_some.mp result
    cases remainder
    exact Int64.toInt_mod a b

theorem exactOp_isSome {m n x y : Int} (zero : n = 0 ↔ y = 0) :
    (exactOp op m n).isSome = (exactOp op x y).isSome := by
  by_cases isZero : y = 0
  · cases op <;> simp [exactOp, isZero, zero.mpr isZero]
  · cases op <;> simp [exactOp, isZero, mt zero.mp isZero]

theorem toInt_eq_zero (a : Int64) : a.toInt = 0 ↔ a = 0 := by
  rw [← Int64.toInt_zero, Int64.toInt_inj]

theorem opPanics_of_fits (checks : Bool) (fits : InI64 (extent op a.toInt b.toInt)) :
    opPanics checks op a b = false := by
  unfold opPanics
  rw [decide_eq_true fits]
  cases op <;> simp

theorem opPanics_of_none (known : op ∈ arithmeticOps) (checks : Bool)
    (nothing : (exactOp op a.toInt b.toInt).isSome = false) : opPanics checks op a b = false := by
  have zero : ∀ x, (if b.toInt = 0 then none else some x : Option Int).isSome = false → b = 0 := by
    intro x missing
    by_contra other
    rw [if_neg (mt (toInt_eq_zero b).mp other)] at missing
    cases missing
  rcases known_cases known with rfl | rfl | rfl | rfl | rfl
  · cases nothing
  · cases nothing
  · cases nothing
  · simp [opPanics, zero _ nothing]
  · simp [opPanics, zero _ nothing]

theorem fits_of_calm (known : op ∈ arithmeticOps) (calm : opPanics true op a b = false)
    (possible : (exactOp op a.toInt b.toInt).isSome) : InI64 (extent op a.toInt b.toInt) := by
  have divided : ∀ x, (if b.toInt = 0 then none else some x : Option Int).isSome → b ≠ 0 := by
    rintro x present rfl
    cases present
  rcases known_cases known with rfl | rfl | rfl | rfl | rfl
  · simpa [opPanics] using calm
  · simpa [opPanics] using calm
  · simpa [opPanics] using calm
  · simpa [opPanics, divided _ possible] using calm
  · simpa [opPanics, divided _ possible] using calm

theorem evalBinaryOp_words (host : Host) (known : op ∈ arithmeticOps) (taken : words lhs rhs = some (a, b))
    (zero : isNumericZero rhs = decide (b.toInt = 0)) : evalBinaryOp host lhs op rhs =
      if (exactOp op a.toInt b.toInt).isSome then .int (intOp op a b) else .null := by
  have computed : ∀ f, numericOp host (intOp op) f lhs rhs = .int (intOp op a b) := by
    intro f
    cases lhs <;> cases rhs <;> cases taken <;> rfl
  rcases known_cases known with rfl | rfl | rfl | rfl | rfl
  iterate 3 exact computed _
  -- a quotient and a remainder test the divisor first
  all_goals
    rw [evalBinaryOp, zero, exactOp]
    by_cases isZero : b.toInt = 0
    · simp [isZero]
    · rw [decide_eq_false isZero, if_neg isZero]
      exact computed _

theorem evalBinaryOp_null (host : Host) (known : op ∈ arithmeticOps)
    (nothing : ∀ f g, numericOp host f g lhs rhs = .null) : evalBinaryOp host lhs op rhs = .null := by
  rcases known_cases known with rfl | rfl | rfl | rfl | rfl
  · exact nothing _ _
  · exact nothing _ _
  · exact nothing _ _
  · rw [evalBinaryOp, nothing, ite_self]
  · rw [evalBinaryOp, nothing, ite_self]

end Operations

section Values
variable {host : Host} {lhs rhs : SochValue} {k : Kind}

inductive Shows : SochValue → Option Int → Kind → Prop where
  | signed (i : Int64) : Shows (.int i) (some i.toInt) .signed
  | unsigned (u : UInt64) : Shows (.uint u) (some (u.toNat : Int)) .unsigned
  | null (result : Option Int) : Shows .null result .null

theorem toInt64_zero (u : UInt64) : u.toInt64.toInt = 0 ↔ u = 0 := by
  rw [toInt_eq_zero]
  constructor
  · intro zero
    have cast := congrArg Int64.toUInt64 zero
    rwa [UInt64.toUInt64_toInt64] at cast
  · rintro rfl
    rfl

theorem words_of_shows (some_kind : k ≠ .null) {left right : Option Int} (first : Shows lhs left k)
    (second : Shows rhs right k) : ∃ m n a b, left = some m ∧ right = some n ∧ words lhs rhs = some (a, b) ∧
      asI64 m = a.toInt ∧ asI64 n = b.toInt ∧ (n = 0 ↔ b.toInt = 0) ∧ isNumericZero rhs = decide (b.toInt = 0) := by
  cases first with
  | signed i =>
    obtain ⟨j⟩ := second
    refine ⟨_, _, i, j, rfl, rfl, rfl, ?_, ?_, .rfl, ?_⟩
    · rw [asI64, Int64.ofInt_toInt]
    · rw [asI64, Int64.ofInt_toInt]
    · rw [isNumericZero, decide_eq_decide, toInt_eq_zero]
  | unsigned u =>
    obtain _ | ⟨v⟩ := second
    refine ⟨_, _, u.toInt64, v.toInt64, rfl, rfl, rfl, ?_, ?_, ?_, ?_⟩
    · rw [asI64, toInt64_eq]
    · rw [asI64, toInt64_eq]
    · rw [toInt64_zero, ← UInt64.toNat_inj]
      exact Int.natCast_eq_zero
    · rw [isNumericZero, decide_eq_decide, toInt64_zero]
  | null => exact absurd rfl some_kind

theorem words_of_mixed {j : Kind} {left right : Option Int} (first : Shows lhs left j) (second : Shows rhs right k)
    (mixed : ¬(j = k ∧ j ≠ .null)) : words lhs rhs = none ∧ ∀ f g, numericOp host f g lhs rhs = .null := by
  cases first <;> cases second <;> first | exact ⟨rfl, fun _ _ => rfl⟩ | exact absurd ⟨rfl, by decide⟩ mixed

end Values

section Evaluation
variable {row : Row} {params : List SochValue} {e : Expr} (host : Host)

theorem shows_whole {value : SochValue} (isWhole : (whole value).isSome) :
    Shows value (whole value) (kindOf value) := by
  cases value with
  | int i => exact .signed i
  | uint u => exact .unsigned u
  | _ => cases isWhole

theorem leaf_equations {value : SochValue} (given : leafValue row params e = some value) :
    evalExpr host row params e = some value ∧ exact row params e = whole value ∧
      kind row params e = kindOf value ∧ InRange row params e ∧
      (∀ checks, panics checks host row params e = false) ∧ ∀ P, Throughout P e = P e := by
  cases e with
  | literal | column | placeholder =>
    refine ⟨?_, ?_, ?_, trivial, fun _ => by rw [panics], fun _ => rfl⟩
    · rw [evalExpr]
      exact given
    · exact congrArg (·.bind whole) given
    · exact congrArg (fun read => (read.map kindOf).getD .null) given
  | _ => cases given

theorem operation_cases {left right : Expr} {op : BinaryOperator} (known : op ∈ arithmeticOps) {lhs rhs : SochValue}
    (first : Shows lhs (exact row params left) (kind row params left))
    (second : Shows rhs (exact row params right) (kind row params right)) :
    (kind row params (.binaryOp left op right) = .signed ∧ ∃ m n a b, exact row params left = some m ∧
        exact row params right = some n ∧ words lhs rhs = some (a, b) ∧ asI64 m = a.toInt ∧ asI64 n = b.toInt ∧
        (exactOp op a.toInt b.toInt).isSome ∧ evalBinaryOp host lhs op rhs = .int (intOp op a b)) ∨
      (kind row params (.binaryOp left op right) = .null ∧ evalBinaryOp host lhs op rhs = .null ∧
        ∀ checks, binaryPanics checks lhs op rhs = false) := by
  by_cases same : kind row params left = kind row params right ∧ kind row params left ≠ .null
  · obtain ⟨alike, some_kind⟩ := same
    rw [← alike] at second
    obtain ⟨m, n, a, b, isLeft, isRight, taken, castLeft, castRight, zero, test⟩ :=
      words_of_shows some_kind first second
    have result : exact row params (.binaryOp left op right) = exactOp op m n := by
      rw [exact, isLeft, bind_some, isRight, bind_some]
    have possible : (exactOp op m n).isSome = (exactOp op a.toInt b.toInt).isSome := exactOp_isSome zero
    have value := evalBinaryOp_words host known taken test
    rw [kind, result, possible]
    cases there : (exactOp op a.toInt b.toInt).isSome with
    | true =>
      rw [there, if_pos rfl] at value
      exact .inl ⟨if_pos ⟨alike, some_kind, rfl⟩, m, n, a, b, isLeft, isRight, taken, castLeft, castRight, there, value⟩
    | false =>
      rw [there, if_neg Bool.false_ne_true] at value
      refine .inr ⟨if_neg fun held => Bool.false_ne_true held.2.2, value, fun checks => ?_⟩
      rw [binaryPanics, taken]
      exact opPanics_of_none known checks there
  · obtain ⟨nothing, nulls⟩ := words_of_mixed first second same
    refine .inr ⟨if_neg fun held => same ⟨held.1, held.2.1⟩, evalBinaryOp_null host known nulls, fun checks => ?_⟩
    rw [binaryPanics, nothing]
    rfl

theorem panics_operation {left right : Expr} {lhs rhs : SochValue} (op : BinaryOperator) {checks : Bool}
    (calmLeft : panics checks host row params left = false) (calmRight : panics checks host row params right = false)
    (readLeft : evalExpr host row params left = some lhs) (readRight : evalExpr host row params right = some rhs) :
    panics checks host row params (.binaryOp left op right) = binaryPanics checks lhs op rhs := by
  rw [panics, calmLeft, readLeft, calmRight, readRight]
  rfl

theorem inRange_shows (tree : Arithmetic row params e) (inRange : InRange row params e) :
    (∃ value, evalExpr host row params e = some value ∧ Shows value (exact row params e) (kind row params e)) ∧
      ∀ checks, panics checks host row params e = false := by
  induction tree with
  | leaf given isWhole =>
    obtain ⟨read, result, isKind, _, calm, _⟩ := leaf_equations host given
    rw [result, isKind]
    exact ⟨⟨_, read, shows_whole isWhole⟩, calm⟩
  | @negation inner _ ih =>
    obtain ⟨below, fits⟩ := inRange
    obtain ⟨⟨value, read, shown⟩, calm⟩ := ih below
    have unary : ∀ checks, panics checks host row params (.unaryOp .minus inner) = unaryPanics checks .minus value := by
      intro checks
      rw [panics, calm, read]
      rfl
    simp only [unary]
    rw [evalExpr, read, map_some, kind, exact]
    generalize kind row params inner = k at shown fits
    generalize exact row params inner = result at shown fits
    cases shown with
    | signed i =>
      have small := fits rfl i.toInt rfl
      have negated : (some i.toInt).map (-·) = some (-i).toInt := by
        rw [map_some, Int64.toInt_neg, bmod_of_fits small]
      rw [negated]
      exact ⟨⟨_, rfl, .signed (-i)⟩, fun checks => by simp [unaryPanics, small]⟩
    | unsigned | null => exact ⟨⟨_, rfl, .null _⟩, fun _ => rfl⟩
  | @operation left right op known _ _ first second =>
    obtain ⟨inLeft, inRight, fits⟩ := inRange
    obtain ⟨⟨lhs, readLeft, shownLeft⟩, calmLeft⟩ := first inLeft
    obtain ⟨⟨rhs, readRight, shownRight⟩, calmRight⟩ := second inRight
    have binary := fun checks => panics_operation host op (calmLeft checks) (calmRight checks) readLeft readRight
    simp only [binary]
    rw [evalExpr, readLeft, bind_some, readRight, map_some]
    rcases operation_cases host known shownLeft shownRight with
      ⟨isKind, m, n, a, b, isLeft, isRight, taken, castLeft, castRight, possible, value⟩ | ⟨isKind, value, calm⟩
    · obtain ⟨small, unchanged⟩ := fits isKind m isLeft n isRight
      rw [castLeft, castRight] at small unchanged
      obtain ⟨result, there⟩ := isSome_iff_exists.mp possible
      have whole_result : exact row params (.binaryOp left op right) = some (intOp op a b).toInt := by
        rw [intOp_exact known small there, exact, isLeft, bind_some, isRight, bind_some, ← unchanged, there]
      rw [isKind, value, whole_result]
      refine ⟨⟨_, rfl, .signed _⟩, fun checks => ?_⟩
      rw [binaryPanics, taken]
      exact opPanics_of_fits checks small
    · rw [isKind, value]
      exact ⟨⟨_, rfl, .null _⟩, calm⟩

theorem exact_of_inRange (tree : Arithmetic row params e) (inRange : InRange row params e) (checks : Bool) :
    Exact row params checks host e := by
  obtain ⟨⟨value, read, shown⟩, calm⟩ := inRange_shows host tree inRange
  refine ⟨calm checks, ?_⟩
  generalize kind row params e = k at shown
  generalize exact row params e = result at shown
  cases shown with
  | signed | unsigned => exact .inr ⟨_, _, read, rfl, rfl⟩
  | null => exact .inl read

theorem throughout_of_inRange (tree : Arithmetic row params e) (inRange : InRange row params e) (checks : Bool) :
    Throughout (Exact row params checks host) e := by
  have here := exact_of_inRange host tree inRange checks
  induction tree with
  | leaf given =>
    rw [(leaf_equations host given).2.2.2.2.2]
    exact here
  | negation inner ih => exact ⟨here, ih inRange.1 (exact_of_inRange host inner inRange.1 checks)⟩
  | operation known left right first second =>
    exact ⟨here, first inRange.1 (exact_of_inRange host left inRange.1 checks),
      second inRange.2.1 (exact_of_inRange host right inRange.2.1 checks)⟩

theorem inRange_of_throughout (tree : Arithmetic row params e)
    (right : Throughout (Exact row params true host) e) : InRange row params e := by
  induction tree with
  | leaf given => exact (leaf_equations host given).2.2.2.1
  | @negation inner below ih =>
    obtain ⟨⟨calm, _⟩, later⟩ := right
    have inRange := ih later
    refine ⟨inRange, fun isKind n isExact => ?_⟩
    obtain ⟨⟨value, read, shown⟩, _⟩ := inRange_shows host below inRange
    rw [isKind] at shown
    generalize exact row params inner = result at shown isExact
    obtain ⟨i⟩ := shown
    cases isExact
    rw [panics, read, Bool.or_eq_false_iff] at calm
    simpa [unaryPanics] using calm.2
  | @operation left right op known one other first second =>
    obtain ⟨⟨calm, value⟩, later, latest⟩ := right
    have inLeft := first later
    have inRight := second latest
    refine ⟨inLeft, inRight, fun isKind m isLeft n isRight => ?_⟩
    obtain ⟨⟨lhs, readLeft, shownLeft⟩, calmLeft⟩ := inRange_shows host one inLeft
    obtain ⟨⟨rhs, readRight, shownRight⟩, calmRight⟩ := inRange_shows host other inRight
    rw [panics_operation host op (calmLeft true) (calmRight true) readLeft readRight] at calm
    rw [evalExpr, readLeft, bind_some, readRight, map_some] at value
    rcases operation_cases host known shownLeft shownRight with
      ⟨_, m', n', a, b, isLeft', isRight', taken, castLeft, castRight, possible, computed⟩ | ⟨isNull, _, _⟩
    · cases isLeft.symm.trans isLeft'
      cases isRight.symm.trans isRight'
      rw [castLeft, castRight]
      rw [binaryPanics, taken] at calm
      have small : InI64 (extent op a.toInt b.toInt) := fits_of_calm known calm possible
      obtain ⟨result, there⟩ := isSome_iff_exists.mp possible
      refine ⟨small, ?_⟩
      rw [computed] at value
      rcases value with isNull | ⟨shown, n, read, isWhole, isExact⟩
      · cases isNull
      · cases read
        rw [exact, isLeft, bind_some, isRight, bind_some] at isExact
        rw [isExact, there, ← intOp_exact known small there]
        exact isWhole
    · rw [isKind] at isNull
      cases isNull

end Evaluation

/-- An integer expression is evaluated to its exact value or to NULL, and never panics, at each
    of its operations, if and only if it is in range; and SET takes the same value as WHERE. -/
theorem integers_exact_iff (platform : Platform) (row : Row) (params : List SochValue) {e : Expr}
    (tree : Arithmetic row params e) :
    ((∀ checks, Throughout (Exact row params checks platform.host) e) ↔ InRange row params e) ∧
      assignedValue platform params row e = (evalExpr platform.host row params e).getD .null := by
  constructor
  · constructor
    · exact fun right => inRange_of_throughout platform.host tree (right true)
    · exact fun inRange => throughout_of_inRange platform.host tree inRange
  · cases e with
    | literal | placeholder =>
      rw [evalExpr]
      rfl
    | _ => rfl

/-- `-(5 - 7) * 3 + 7 % ?1` with the parameter 2. -/
theorem small_numbers_are_exact :
    let number (i : Int64) : Expr := .literal (.integer i)
    let e : Expr := .binaryOp (.binaryOp (.unaryOp .minus (.binaryOp (number 5) .minus (number 7))) .multiply
      (number 3)) .plus (.binaryOp (number 7) .modulo (.placeholder 1))
    (∀ checks, Throughout (Exact ∅ [.int 2] checks Host.plain) e) ∧
      assignedValue Platform.plain [.int 2] ∅ e = .int 7 := by
  intro number e
  have leaf : ∀ i, Arithmetic ∅ [.int 2] (number i) := fun i => .leaf rfl rfl
  have tree : Arithmetic ∅ [.int 2] e := .operation (by decide)
    (.operation (by decide) (.negation (.operation (by decide) (leaf 5) (leaf 7))) (leaf 3))
    (.operation (by decide) (leaf 7) (.leaf rfl rfl))
  obtain ⟨iff_inRange, assigned⟩ := integers_exact_iff .plain ∅ [.int 2] tree
  exact ⟨iff_inRange.mpr ⟨⟨⟨⟨trivial, trivial, by decide⟩, by decide⟩, trivial, by decide⟩,
    ⟨trivial, trivial, by decide⟩, by decide⟩, assigned⟩

/-- A sum of literals that is too large, the most negative number divided by minus one, and
    an unsigned parameter that a cast makes negative. -/
theorem arithmetic_aborts_or_lies :
    let number (i : Int64) : Expr := .literal (.integer i)
    let sum : Expr := .binaryOp (number 9223372036854775807) .plus (number 1)
    let least : Expr := .binaryOp (.unaryOp .minus (number 9223372036854775807)) .minus (number 1)
    let quotient : Expr := .binaryOp least .divide (.unaryOp .minus (number 1))
    let cast : Expr := .binaryOp (.placeholder 1) .divide (.placeholder 2)
    (panics true Host.plain ∅ [] sum = true ∧ panics false Host.plain ∅ [] sum = false ∧
      evalExpr Host.plain ∅ [] sum = some (.int (-9223372036854775808))) ∧
    (∀ checks, panics checks Host.plain ∅ [] quotient = true) ∧
    evalExpr Host.plain ∅ [.uint 18446744073709551614, .uint 2] cast = some (.int (-1)) := by
  intro number sum least quotient cast
  refine ⟨⟨by rfl, by rfl, by rfl⟩, ?_, by rfl⟩
  intro checks
  cases checks <;> rfl

end IntegerArithmetic
