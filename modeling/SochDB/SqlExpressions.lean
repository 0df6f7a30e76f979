import SochDB.Library.ByteOrder
import SochDB.PackedRows
import SochDB.RowKeys

/-!
SQL expressions as the connection evaluates them on a row. Arithmetic on 64-bit integers
wraps; floating-point arithmetic, case mapping, pattern matching and the text of a float
come from outside and are parameters.
-/
namespace SqlExpressions
open KeyedMaps Utf8 WalRecords PackedRows RowKeys

inductive Literal where
  | null
  | boolean (b : Bool)
  | integer (i : Int64)
  | float (bits : UInt64)
  | string (s : Str)
  | blob (b : Bytes)
  deriving DecidableEq

structure ColumnRef where
  table : Option Str
  column : Str
  deriving DecidableEq

inductive BinaryOperator where
  | plus | minus | multiply | divide | modulo
  | eq | ne | lt | le | gt | ge
  | and | or
  | concat | like
  | bitAnd | bitOr | bitXor | leftShift | rightShift
  | graphRight | graphLeft | graphBi
  deriving DecidableEq, Repr

inductive UnaryOperator where
  | plus | minus | not | bitNot
  deriving DecidableEq, Repr

/-- A CASE has no value here, and neither have the forms that `other` stands for: CAST,
    subqueries, arrays, tuples and the extensions. -/
inductive Expr where
  | literal (lit : Literal)
  | column (ref : ColumnRef)
  | binaryOp (left : Expr) (op : BinaryOperator) (right : Expr)
  | unaryOp (op : UnaryOperator) (expr : Expr)
  | function (name : Str) (args : List Expr) (distinct : Bool)
  | case (parts : List Expr)
  | inList (expr : Expr) (list : List Expr) (negated : Bool)
  | between (expr low high : Expr) (negated : Bool)
  | like (expr pattern : Expr) (negated : Bool)
  | isNull (expr : Expr) (negated : Bool)
  | placeholder (idx : UInt32)
  | other

theorem isUtf8_decimal (n : Nat) : isUtf8 (decimal n) = true := by
  apply isUtf8_ascii
  intro b member
  exact UInt8.lt_of_le_of_lt (decimal_digit member).2 (by decide)

structure Host where
  addFloat : UInt64 → UInt64 → UInt64
  subFloat : UInt64 → UInt64 → UInt64
  mulFloat : UInt64 → UInt64 → UInt64
  divFloat : UInt64 → UInt64 → UInt64
  remFloat : UInt64 → UInt64 → UInt64
  /-- `i as f64`. -/
  ofInt : Int64 → UInt64
  floatText : UInt64 → Str
  toUppercase : Str → Str
  toLowercase : Str → Str
  likeMatch : Str → Str → Bool
  /-- The debug text of a value, which a hash join uses as its key. -/
  debugText : SochValue → Str

/-- A host without floating-point arithmetic, for runs that use none of it. -/
def Host.plain : Host where
  addFloat := fun a _ => a
  subFloat := fun a _ => a
  mulFloat := fun a _ => a
  divFloat := fun a _ => a
  remFloat := fun a _ => a
  ofInt := fun _ => 0
  floatText := fun _ => Str.empty
  toUppercase := id
  toLowercase := id
  likeMatch := fun s pattern => s = pattern
  debugText := fun value =>
    match value with
    | .text s => s
    | .int i => ⟨decimal i.toInt.toNat, isUtf8_decimal _⟩
    | _ => Str.empty

section Floats

def magnitude (bits : UInt64) : Nat := bits.toNat % 2 ^ 63

def isNaN (bits : UInt64) : Bool := magnitude bits > 0x7FF0000000000000

/-- The position of a number on the real line; the two zeros share one. -/
def position (bits : UInt64) : Int :=
  if bits.toNat < 2 ^ 63 then (magnitude bits : Int) else -(magnitude bits : Int)

/-- `partial_cmp`. -/
def partialCmp (a b : UInt64) : Option Ordering :=
  if isNaN a || isNaN b then none else some (compare (position a) (position b))

def negate (bits : UInt64) : UInt64 := bits ^^^ 0x8000000000000000

end Floats

/-- `==` on values: by variant, and on floats by number. -/
def valueEq : SochValue → SochValue → Bool
  | .float a, .float b => partialCmp a b = some .eq
  | a, b => a = b

def bytesCmp (a b : Bytes) : Ordering := if a < b then .lt else if a = b then .eq else .gt

section Evaluation
variable (host : Host)

/-- Values of two types that are not both numbers compare as equal. -/
def compareValues : SochValue → SochValue → Ordering
  | .int a, .int b => compare a.toInt b.toInt
  | .uint a, .uint b => compare a.toNat b.toNat
  | .float a, .float b => (partialCmp a b).getD .eq
  | .text a, .text b => bytesCmp a.bytes b.bytes
  | .int a, .float b => (partialCmp (host.ofInt a) b).getD .eq
  | .float a, .int b => (partialCmp a (host.ofInt b)).getD .eq
  | .null, .null => .eq
  | .null, _ => .lt
  | _, .null => .gt
  | _, _ => .eq

def compareOptionalValues : Option SochValue → Option SochValue → Ordering
  | some a, some b => compareValues host a b
  | none, some _ => .lt
  | some _, none => .gt
  | none, none => .eq

def literalToCore : Literal → SochValue
  | .integer i => .int i
  | .float bits => .float bits
  | .string s => .text s
  | .boolean b => .bool b
  | .null => .null
  | .blob b => .binary b

def numericOp (intOp : Int64 → Int64 → Int64) (floatOp : UInt64 → UInt64 → UInt64) :
    SochValue → SochValue → SochValue
  | .int a, .int b => .int (intOp a b)
  | .float a, .float b => .float (floatOp a b)
  | .int a, .float b => .float (floatOp (host.ofInt a) b)
  | .float a, .int b => .float (floatOp a (host.ofInt b))
  | .uint a, .uint b => .int (intOp a.toInt64 b.toInt64)
  | _, _ => .null

def isNumericZero : SochValue → Bool
  | .int i => i = 0
  | .uint u => u = 0
  | .float bits => partialCmp bits 0 = some .eq
  | _ => false

def natText (n : Nat) : Str := ⟨decimal n, isUtf8_decimal n⟩

def intText (i : Int) : Str := if i < 0 then (Str.ascii "-").append (natText i.natAbs) else natText i.natAbs

def valueToString : SochValue → Str
  | .text s => s
  | .int i => intText i.toInt
  | .uint u => natText u.toNat
  | .float bits => host.floatText bits
  | .bool b => Str.ascii (if b then "true" else "false")
  | .null => Str.ascii "NULL"
  | .binary _ | .nested _ => Str.empty

def isTrue (value : SochValue) : Bool := value = .bool true

/-- Division by zero gives a null. -/
def evalBinaryOp (lhs : SochValue) (op : BinaryOperator) (rhs : SochValue) : SochValue :=
  match op with
  | .eq => .bool (valueEq lhs rhs)
  | .ne => .bool (!valueEq lhs rhs)
  | .lt => .bool (compareValues host lhs rhs = .lt)
  | .gt => .bool (compareValues host lhs rhs = .gt)
  | .le => .bool (compareValues host lhs rhs ≠ .gt)
  | .ge => .bool (compareValues host lhs rhs ≠ .lt)
  | .and => .bool (isTrue lhs && isTrue rhs)
  | .or => .bool (isTrue lhs || isTrue rhs)
  | .plus => numericOp host (· + ·) host.addFloat lhs rhs
  | .minus => numericOp host (· - ·) host.subFloat lhs rhs
  | .multiply => numericOp host (· * ·) host.mulFloat lhs rhs
  | .divide => if isNumericZero rhs then .null else numericOp host (· / ·) host.divFloat lhs rhs
  | .modulo => if isNumericZero rhs then .null else numericOp host (· % ·) host.remFloat lhs rhs
  | .like =>
    match lhs, rhs with
    | .text s, .text pattern => .bool (host.likeMatch s pattern)
    | _, _ => .bool false
  | .concat => .text ((valueToString host lhs).append (valueToString host rhs))
  | .bitAnd | .bitOr | .bitXor | .leftShift | .rightShift | .graphRight | .graphLeft | .graphBi => .null

def evalUnaryOp : UnaryOperator → SochValue → SochValue
  | .not, .bool b => .bool (!b)
  | .minus, .int i => .int (-i)
  | .minus, .float bits => .float (negate bits)
  | .plus, value => value
  | _, _ => .null

/-- A column reference tries its qualified name first. -/
def lookupColumn (row : Row) (ref : ColumnRef) : Option SochValue :=
  match ref.table.bind fun table => get row ((table.append (Str.ascii ".")).append ref.column) with
  | some value => some value
  | none => get row ref.column

def param (params : List SochValue) (idx : UInt32) : Option SochValue := params[idx.toNat - 1]?

def textFunction (f : Str → SochValue) : SochValue → SochValue
  | .text s => f s
  | _ => .null

/-- A function applied to the values of its arguments; an unknown one passes its first
    argument through. -/
def evalFunction (name : Str) (args : List (Option SochValue)) : Option SochValue :=
  let name := host.toUppercase name
  if name = Str.ascii "UPPER" then args.head?.join.map (textFunction fun s => .text (host.toUppercase s))
  else if name = Str.ascii "LOWER" then args.head?.join.map (textFunction fun s => .text (host.toLowercase s))
  else if name = Str.ascii "LENGTH" ∨ name = Str.ascii "LEN" then
    args.head?.join.map (textFunction fun s => .int (Int64.ofNat s.bytes.length))
  else if name = Str.ascii "COALESCE" then
    some ((args.filterMap fun arg => arg.filter (· ≠ .null)).headD .null)
  else args.head?.join

mutual

def evalExpr (row : Row) (params : List SochValue) : Expr → Option SochValue
  | .column ref => lookupColumn row ref
  | .literal lit => some (literalToCore lit)
  | .placeholder idx => param params idx
  | .binaryOp left op right =>
    (evalExpr row params left).bind fun lhs =>
      (evalExpr row params right).map fun rhs => evalBinaryOp host lhs op rhs
  | .unaryOp op inner => (evalExpr row params inner).map (evalUnaryOp op)
  | .isNull inner negated =>
    (evalExpr row params inner).map fun value => .bool (negated != decide (value = .null))
  | .between inner low high negated =>
    (evalExpr row params inner).bind fun value =>
      (evalExpr row params low).bind fun lo =>
        (evalExpr row params high).map fun hi =>
          .bool (negated != (compareValues host value lo ≠ .lt && compareValues host value hi ≠ .gt))
  | .inList inner list negated =>
    (evalExpr row params inner).map fun value =>
      .bool (negated != (evalAll row params list).any fun item => item.any fun v => valueEq v value)
  | .like inner pattern negated =>
    (evalExpr row params inner).bind fun value =>
      (evalExpr row params pattern).map fun pat =>
        match value, pat with
        | .text s, .text p => .bool (negated != host.likeMatch s p)
        | _, _ => .bool false
  | .function name args _ => evalFunction host name (evalAll row params args)
  | .case _ | .other => none

def evalAll (row : Row) (params : List SochValue) : List Expr → List (Option SochValue)
  | [] => []
  | expr :: rest => evalExpr row params expr :: evalAll row params rest

end

def rowMatches (expr : Expr) (row : Row) (params : List SochValue) : Bool :=
  evalExpr host row params expr = some (.bool true)

def givenValue (params : List SochValue) : Expr → Option SochValue
  | .literal lit => some (literalToCore lit)
  | .placeholder idx => some ((param params idx).getD .null)
  | _ => none

def rowsEqual (a b : Row) : Bool :=
  (pairs a).length = (pairs b).length && (pairs a).all fun e => (get b e.1).any fun v => valueEq v e.2

end Evaluation

/-- The number that an integer value stands for. -/
def whole : SochValue → Option Int
  | .int i => some i.toInt
  | .uint u => some u.toNat
  | _ => none

def InI64 (n : Int) : Prop := -2 ^ 63 ≤ n ∧ n < 2 ^ 63

theorem toInt64_eq (u : UInt64) : u.toInt64 = Int64.ofInt u.toNat := by
  apply Int64.toBitVec_inj.mp
  rw [UInt64.toBitVec_toInt64]
  simp

end SqlExpressions
