import SochDB.Library.Binary64
import SochDB.Library.GroupedFolds
import SochDB.SqlBridge

/-!
Aggregation as the SQL front end computes it: the aggregate calls of a query, an accumulator
for each of them in each group, and the rows made of the finished groups. The plain-column
path hashes borrowed key atoms and may split its input into chunks; the general path hashes
the texts of the evaluated keys.
-/
namespace Aggregates
open KeyedMaps Utf8 PackedRows RowKeys SqlConnection SqlBridge GroupedFolds
open SqlExpressions hiding compareValues

/-- What aggregation uses from outside beside the floating-point operations of a host. -/
structure Numerics extends Host where
  sqrt : UInt64 → UInt64

section Calls

inductive AggFn where
  | count | sum | avg | min | max | median | stddev
  deriving DecidableEq, Repr

def AggFn.names : List (String × AggFn) :=
  [("COUNT", .count), ("SUM", .sum), ("AVG", .avg), ("MEAN", .avg), ("MIN", .min), ("MAX", .max),
    ("MEDIAN", .median), ("STDDEV", .stddev), ("STDDEV_SAMP", .stddev), ("STDEV", .stddev), ("SD", .stddev)]

def AggFn.fromName (name : Str) : Option AggFn :=
  (names.find? fun e => name.bytes.map upperByte = (Str.ascii e.1).bytes).map Prod.snd

/-- One aggregate call; `COUNT(*)` has no argument. -/
structure AggSpec where
  key : Str
  func : AggFn
  arg : Option Expr
  distinct : Bool

def isStar : Option Expr → Bool
  | some (.column ref) => ref.column = star
  | _ => false

def funcName : AggFn → String
  | .count => "count"
  | .sum => "sum"
  | .avg => "avg"
  | .min => "min"
  | .max => "max"
  | .median => "median"
  | .stddev => "stddev"

def renderAggKey (func : AggFn) (arg : Option Str) (distinct : Bool) : Str :=
  let inner := arg.getD star
  let opened := Str.ascii (funcName func ++ if distinct then "(distinct " else "(")
  (opened.append inner).append (Str.ascii ")")

def binaryOpSymbol : BinaryOperator → String
  | .plus => "+"
  | .minus => "-"
  | .multiply => "*"
  | .divide => "/"
  | .modulo => "%"
  | .eq => "="
  | .ne => "<>"
  | .lt => "<"
  | .le => "<="
  | .gt => ">"
  | .ge => ">="
  | .and => "and"
  | .or => "or"
  | _ => "?"

def columnName (ref : ColumnRef) : Str :=
  match ref.table with
  | some table => (table.append (Str.ascii ".")).append ref.column
  | none => ref.column

variable (host : Host)

mutual

def renderExprName : Expr → Str
  | .column ref => columnName ref
  | .literal (.integer n) => intText n.toInt
  | .literal (.float f) => host.floatText f
  | .literal (.string s) => ((Str.ascii "'").append s).append (Str.ascii "'")
  | .literal (.boolean b) => Str.ascii (if b then "true" else "false")
  | .literal .null => Str.ascii "null"
  | .function name args distinct =>
    match AggFn.fromName name with
    | some func => renderAggKey func (if isStar args.head? then none else (renderAll args).head?) distinct
    | none => ((host.toLowercase name).append (Str.ascii "(")).append
        ((Str.join (Str.ascii ", ") (renderAll args)).append (Str.ascii ")"))
  | .binaryOp left op right =>
    ((renderExprName left).append (Str.ascii (" " ++ binaryOpSymbol op ++ " "))).append (renderExprName right)
  | .unaryOp .minus inner => (Str.ascii "-").append (renderExprName inner)
  | .unaryOp .plus inner => renderExprName inner
  | .unaryOp .not inner => (Str.ascii "not ").append (renderExprName inner)
  | .unaryOp .bitNot inner => (Str.ascii "~").append (renderExprName inner)
  | _ => Str.ascii "expr"

def renderAll : List Expr → List Str
  | [] => []
  | expr :: rest => renderExprName expr :: renderAll rest

end

mutual

/-- The calls that an expression adds; a call with the key of an earlier one adds nothing. -/
def collectFromExpr (specs : List AggSpec) : Expr → List AggSpec
  | .function name args distinct =>
    match AggFn.fromName name with
    | some func =>
      let arg := if isStar args.head? then none else args.head?
      let key := renderAggKey func (arg.map (renderExprName host)) distinct
      if specs.any fun spec => spec.key = key then specs else specs ++ [⟨key, func, arg, distinct⟩]
    | none => collectAll specs args
  | .binaryOp left _ right => collectFromExpr (collectFromExpr specs left) right
  | .unaryOp _ inner | .isNull inner _ => collectFromExpr specs inner
  | .case parts => collectAll specs parts
  | _ => specs

def collectAll (specs : List AggSpec) : List Expr → List AggSpec
  | [] => specs
  | expr :: rest => collectAll (collectFromExpr specs expr) rest

end

def itemExpr : SelectItem → Option Expr
  | .expr e _ => some e
  | _ => none

def collectAggSpecs (select : SelectStmt) : List AggSpec :=
  collectAll host [] (select.columns.filterMap itemExpr ++ select.having.toList ++
    select.orderBy.map OrderByItem.expr)

end Calls

section Values
variable (host : Host)

def asFloat (n : Int) : UInt64 :=
  if 0 ≤ n then UInt64.ofNat (Binary64.magnitudeOf n.natAbs)
  else UInt64.ofNat (2 ^ 63 + Binary64.magnitudeOf n.natAbs)

def oneFloat : UInt64 := 0x3FF0000000000000

def numeric : SochValue → Option UInt64
  | .int i => some (asFloat i.toInt)
  | .uint u => some (asFloat u.toNat)
  | .float bits => some bits
  | .bool b => some (if b then oneFloat else 0)
  | _ => none

def compareValues (a b : SochValue) : Ordering :=
  match numeric a, numeric b with
  | some x, some y => (partialCmp x y).getD .eq
  | _, _ =>
    match a, b with
    | .text x, .text y => bytesCmp x.bytes y.bytes
    | .null, .null => .eq
    | .null, _ => .lt
    | _, .null => .gt
    | _, _ => .eq

def literalToValue : Literal → SochValue
  | .integer i => .int i
  | .float bits => .float bits
  | .string s => .text s
  | .boolean b => .bool b
  | _ => .null

def asBool : SochValue → Option Bool
  | .bool b => some b
  | .int i => some (i ≠ 0)
  | _ => none

/-- Division by zero gives a null; integers divide as floats. -/
def arithmetic (op : BinaryOperator) (l r : SochValue) : SochValue :=
  match l, r with
  | .int a, .int b =>
    match op with
    | .plus => .int (a + b)
    | .minus => .int (a - b)
    | .multiply => .int (a * b)
    | .divide => if b = 0 then .null else .float (host.divFloat (asFloat a.toInt) (asFloat b.toInt))
    | .modulo => if b = 0 then .null else .int (a % b)
    | _ => .null
  | _, _ =>
    match numeric l, numeric r with
    | some a, some b =>
      match op with
      | .plus => .float (host.addFloat a b)
      | .minus => .float (host.subFloat a b)
      | .multiply => .float (host.mulFloat a b)
      | .divide => if partialCmp b 0 = some .eq then .null else .float (host.divFloat a b)
      | .modulo => if partialCmp b 0 = some .eq then .null else .float (host.remFloat a b)
      | _ => .null
    | _, _ => .null

def comparison (holds : Ordering → Bool) (l r : SochValue) : SochValue :=
  if l = .null ∨ r = .null then .null else .bool (holds (compareValues l r))

def connective (join : Bool → Bool → Bool) (l r : SochValue) : SochValue :=
  match asBool l, asBool r with
  | some a, some b => .bool (join a b)
  | _, _ => .null

def evalBinary (l : SochValue) (op : BinaryOperator) (r : SochValue) : SochValue :=
  match op with
  | .plus | .minus | .multiply | .divide | .modulo => arithmetic host op l r
  | .eq => comparison (· = .eq) l r
  | .ne => comparison (· ≠ .eq) l r
  | .lt => comparison (· = .lt) l r
  | .le => comparison (· ≠ .gt) l r
  | .gt => comparison (· = .gt) l r
  | .ge => comparison (· ≠ .lt) l r
  | .and => connective (· && ·) l r
  | .or => connective (· || ·) l r
  | _ => .null

def evalUnary : UnaryOperator → SochValue → SochValue
  | .minus, .int i => .int (-i)
  | .minus, .float bits => .float (negate bits)
  | .plus, value => value
  | .not, .bool b => .bool (!b)
  | .bitNot, .int i => .int (~~~i)
  | _, _ => .null

def colGet (row : Row) (ref : ColumnRef) : SochValue := (lookupColumn row ref).getD .null

/-- A call is looked up under its name, where the finished group holds its value. -/
def evalScalar (row : Row) (params : List SochValue) : Expr → SochValue
  | .column ref => colGet row ref
  | .literal lit => literalToValue lit
  | .placeholder idx => (param params idx).getD .null
  | .function name args distinct => (get row (renderExprName host (.function name args distinct))).getD .null
  | .binaryOp left op right => evalBinary host (evalScalar row params left) op (evalScalar row params right)
  | .unaryOp op inner => evalUnary op (evalScalar row params inner)
  | .isNull inner negated => .bool (negated != decide (evalScalar row params inner = .null))
  | _ => .null

/-- The integer that a float stands for, below 9.0e15. -/
def integral (bits : UInt64) : Option Int64 :=
  let m := magnitude bits
  let exponent := m / 2 ^ 52
  if m = 0 then some 0
  else if exponent < 1023 ∨ Binary64.magnitudeOf 9000000000000000 ≤ m then none
  else
    let significand := 2 ^ 52 + m % 2 ^ 52
    let shift := 1075 - exponent
    if significand % 2 ^ shift ≠ 0 then none
    else
      let whole := Int64.ofNat (significand / 2 ^ shift)
      some (if bits.toNat < 2 ^ 63 then whole else -whole)

/-- The text of a group key; the integers of both types share theirs. -/
def keyRepr : SochValue → Str
  | .null => Str.ascii "\x00N"
  | .int i => (Str.ascii "i").append (intText i.toInt)
  | .uint u => (Str.ascii "i").append (natText u.toNat)
  | .float bits =>
    match integral bits with
    | some i => (Str.ascii "i").append (intText i.toInt)
    | none => (Str.ascii "f").append (host.floatText bits)
  | .text s => (Str.ascii "s").append s
  | .bool b => Str.ascii (if b then "btrue" else "bfalse")
  | other => host.debugText other

end Values

section Accumulators
variable (host : Numerics)

/-- A sum that stays an integer as long as it can. -/
structure SumAcc where
  int : Int64
  float : UInt64
  sawFloat : Bool
  sawAny : Bool
  overflowed : Bool

inductive Acc where
  | countStar (n : Nat)
  | count (n : Nat)
  | countDistinct (seen : Finset Str)
  | sum (s : SumAcc)
  | avg (total : UInt64) (n : Nat)
  | min (cur : Option SochValue)
  | max (cur : Option SochValue)
  | median (values : List UInt64)
  | stddev (n : Nat) (mean m2 : UInt64)

def Acc.new (spec : AggSpec) : Acc :=
  match spec.func, spec.arg.isSome, spec.distinct with
  | .count, false, _ => .countStar 0
  | .count, true, true => .countDistinct ∅
  | .count, true, false => .count 0
  | .sum, _, _ => .sum ⟨0, 0, false, false, false⟩
  | .avg, _, _ => .avg 0 0
  | .min, _, _ => .min none
  | .max, _, _ => .max none
  | .median, _, _ => .median []
  | .stddev, _, _ => .stddev 0 0 0

def checkedAdd (a b : Int64) : Option Int64 :=
  let s := a.toInt + b.toInt
  if -2 ^ 63 ≤ s ∧ s < 2 ^ 63 then some (Int64.ofInt s) else none

/-- An integer goes into the sum; on overflow the sum stays and the flag is set. -/
def SumAcc.addInt (s : SumAcc) (i : Int64) : SumAcc :=
  match checkedAdd s.int i with
  | some int => { s with int }
  | none => { s with overflowed := true }

def SumAcc.addNumber (s : SumAcc) (i : Int64) (f : UInt64) : SumAcc :=
  { s.addInt i with float := host.addFloat s.float f, sawAny := true }

def SumAcc.update (s : SumAcc) : SochValue → SumAcc
  | .int i => s.addNumber host i (asFloat i.toInt)
  | .uint u => s.addNumber host u.toInt64 (asFloat u.toNat)
  | .float f => { s with float := host.addFloat s.float f, sawFloat := true, sawAny := true }
  | _ => s

def SumAcc.merge (s other : SumAcc) : SumAcc :=
  let added := s.addInt other.int
  ⟨added.int, host.addFloat s.float other.float, s.sawFloat || other.sawFloat, s.sawAny || other.sawAny,
    added.overflowed || other.overflowed⟩

def SumAcc.finalize (s : SumAcc) : SochValue :=
  if !s.sawAny then .null else if s.sawFloat || s.overflowed then .float s.float else .int s.int

/-- Keep the value that compares the wanted way to the current one. -/
def keepBetter (wanted : Ordering) (cur : Option SochValue) (v : SochValue) : Option SochValue :=
  match cur with
  | none => some v
  | some c => if compareValues v c = wanted then some v else some c

def keepNonNull (wanted : Ordering) (cur : Option SochValue) (val : Option SochValue) : Option SochValue :=
  match val with
  | some .null | none => cur
  | some v => keepBetter wanted cur v

/-- `None` is the argument of `COUNT(*)` only. -/
def Acc.update (acc : Acc) (val : Option SochValue) : Acc :=
  match acc with
  | .countStar n => .countStar (n + 1)
  | .count n => .count (if val.any (· ≠ .null) then n + 1 else n)
  | .countDistinct seen =>
    match val with
    | some .null | none => .countDistinct seen
    | some v => .countDistinct (insert (keyRepr host.toHost v) seen)
  | .sum s => .sum ((val.map (s.update host)).getD s)
  | .avg total n =>
    match val.bind numeric with
    | some x => .avg (host.addFloat total x) (n + 1)
    | none => .avg total n
  | .min cur => .min (keepNonNull .lt cur val)
  | .max cur => .max (keepNonNull .gt cur val)
  | .median values => .median (values ++ (val.bind numeric).toList)
  | .stddev n mean m2 =>
    match val.bind numeric with
    | some x =>
      let delta := host.subFloat x mean
      let mean' := host.addFloat mean (host.divFloat delta (asFloat (n + 1)))
      .stddev (n + 1) mean' (host.addFloat m2 (host.mulFloat delta (host.subFloat x mean')))
    | none => .stddev n mean m2

/-- Accumulators of one call merge; others never meet. -/
def Acc.merge (acc other : Acc) : Acc :=
  match acc, other with
  | .countStar a, .countStar b => .countStar (a + b)
  | .count a, .count b => .count (a + b)
  | .countDistinct a, .countDistinct b => .countDistinct (a ∪ b)
  | .sum a, .sum b => .sum (a.merge host b)
  | .avg total n, .avg t2 n2 => .avg (host.addFloat total t2) (n + n2)
  | .min a, .min (some b) => .min (keepBetter .lt a b)
  | .max a, .max (some b) => .max (keepBetter .gt a b)
  | .median a, .median b => .median (a ++ b)
  | .stddev n mean m2, .stddev nb mb m2b =>
    if nb = 0 then .stddev n mean m2
    else if n = 0 then .stddev nb mb m2b
    else
      let na := asFloat n
      let nbf := asFloat nb
      let delta := host.subFloat mb mean
      let total := host.addFloat na nbf
      let spread := host.divFloat (host.mulFloat (host.mulFloat (host.mulFloat delta delta) na) nbf) total
      .stddev (n + nb) (host.addFloat mean (host.divFloat (host.mulFloat delta nbf) total))
        (host.addFloat m2 (host.addFloat m2b spread))
  | acc, _ => acc

def negInfinity : UInt64 := 0xFFF0000000000000

def twoFloat : UInt64 := 0x4000000000000000

def maxFloat (a b : UInt64) : UInt64 := if isNaN a ∨ partialCmp a b = some .lt then b else a

/-- The middle one of the sorted values, or the mean of the middle two. -/
def medianOf (values : List UInt64) : SochValue :=
  let sorted := values.insertionSort fun a b => (partialCmp a b).getD .eq ≠ .gt
  let mid := values.length / 2
  match sorted[mid]? with
  | none => .null
  | some upper =>
    if values.length % 2 = 1 then .float upper
    else
      let lower := (sorted.take mid).foldl maxFloat negInfinity
      .float (host.divFloat (host.addFloat lower upper) twoFloat)

def Acc.finalize : Acc → SochValue
  | .countStar n | .count n => .int (Int64.ofNat n)
  | .countDistinct seen => .int (Int64.ofNat seen.card)
  | .sum s => s.finalize
  | .avg total n => if n = 0 then .null else .float (host.divFloat total (asFloat n))
  | .min cur | .max cur => cur.getD .null
  | .median values => medianOf host values
  | .stddev n _ m2 =>
    if n < 2 then .null else .float (host.sqrt (host.divFloat m2 (asFloat (n - 1 : Nat))))

end Accumulators

section Operator
variable (host : Numerics)

structure GroupState where
  keyValues : List SochValue
  firstRow : Row
  accs : List Acc

/-- Integral floats are integers here; text is borrowed from the row. -/
inductive KeyAtom where
  | null
  | int (i : Int64)
  | fBits (bits : UInt64)
  | str (s : Str)
  | bool (b : Bool)
  deriving DecidableEq

def KeyAtom.fromValue : SochValue → KeyAtom
  | .null => .null
  | .int i => .int i
  | .uint u => .int u.toInt64
  | .float bits =>
    match integral bits with
    | some i => .int i
    | none => if isNaN bits then .fBits 0x7FF8000000000000 else .fBits bits
  | .text s => .str s
  | .bool b => .bool b
  | _ => .null

inductive GroupKey where
  | empty
  | one (atom : KeyAtom)
  | many (atoms : List KeyAtom)
  deriving DecidableEq

def makeGroupKey (groupCols : List ColumnRef) (row : Row) : GroupKey :=
  match groupCols with
  | [] => .empty
  | [ref] => .one (KeyAtom.fromValue (colGet row ref))
  | refs => .many (refs.map fun ref => KeyAtom.fromValue (colGet row ref))

def asPlainCol : Expr → Option ColumnRef
  | .column ref => some ref
  | _ => none

def openGroup (specs : List AggSpec) (keyValues : Row → List SochValue) (row : Row) : GroupState :=
  ⟨keyValues row, row, specs.map Acc.new⟩

def takeRow {A : Type} (args : List (Option A)) (value : Row → A → SochValue) (state : GroupState) (row : Row) :
    GroupState :=
  { state with accs := List.zipWith (fun acc arg => acc.update host (arg.map (value row))) state.accs args }

def mergeStates (state other : GroupState) : GroupState :=
  { state with accs := List.zipWith (Acc.merge host) state.accs other.accs }

section Paths
variable (specs : List AggSpec) (groupCols : List ColumnRef) (argCols : List (Option ColumnRef))

def accumulateChunk (chunk : List Row) : List (GroupKey × GroupState) :=
  accumulate (makeGroupKey groupCols) (openGroup specs fun row => groupCols.map (colGet row))
    (takeRow host argCols colGet) chunk

/-- Chunks are accumulated apart, and their groups merged in the order of the chunks. -/
def mergeChunks (chunks : List (List Row)) : List (GroupKey × GroupState) :=
  accumulateChunks (mergeStates host) (makeGroupKey groupCols)
    (openGroup specs fun row => groupCols.map (colGet row)) (takeRow host argCols colGet) chunks

end Paths

def parallelThreshold : Nat := 100000

def chunkSize (threads : Nat) (rows : List Row) : Nat := max (rows.length / (max threads 1 * 4)) 16384

/-- The columns of a query of which every key and argument is a plain column. -/
def plainColumns (select : SelectStmt) (specs : List AggSpec) :
    Option (List ColumnRef × List (Option ColumnRef)) :=
  (select.groupBy.mapM asPlainCol).bind fun groupCols =>
    (specs.mapM fun spec : AggSpec =>
      match spec.arg with
      | none => some none
      | some e => (asPlainCol e).map some).map fun argCols => (groupCols, argCols)

def accumulateDivided (select : SelectStmt) (specs : List AggSpec) (chunks : List (List Row)) :
    Option (List GroupState) :=
  (plainColumns select specs).map fun cols => (mergeChunks host specs cols.1 cols.2 chunks).map Prod.snd

def accumulateFast (threads : Nat) (select : SelectStmt) (specs : List AggSpec) (rows : List Row) :
    Option (List GroupState) :=
  (plainColumns select specs).map fun cols =>
    let merged :=
      if parallelThreshold ≤ rows.length then
        mergeChunks host specs cols.1 cols.2 (rows.toChunks (chunkSize threads rows))
      else accumulateChunk host specs cols.1 cols.2 rows
    merged.map Prod.snd

def accumulateGeneral (select : SelectStmt) (specs : List AggSpec) (params : List SochValue) (rows : List Row) :
    List GroupState :=
  let keyValues := fun row => select.groupBy.map (evalScalar host.toHost row params)
  (accumulate (fun row => (keyValues row).map (keyRepr host.toHost)) (openGroup specs keyValues)
    (takeRow host (specs.map AggSpec.arg) fun row => evalScalar host.toHost row params) rows).map Prod.snd

def groupRow (groupNames : List Str) (specs : List AggSpec) (state : GroupState) : Row :=
  let keyed := (groupNames.zip state.keyValues).foldl (fun row e => row.insert e.1 e.2) state.firstRow
  (specs.zip state.accs).foldl (fun row e => row.insert e.1.key (e.2.finalize host)) keyed

def labels (select : SelectStmt) : List (Str × Expr) :=
  select.columns.filterMap fun
    | .expr e (some label) => some (label, e)
    | _ => none

def bindLabels (select : SelectStmt) (params : List SochValue) (row : Row) : Row :=
  (labels select).foldl (fun row e =>
    if (get row e.1).isSome then row else row.insert e.1 (evalScalar host.toHost row params e.2)) row

def compareGroups (orderBy : List OrderByItem) (params : List SochValue) (a b : Row) : Ordering :=
  match orderBy with
  | [] => .eq
  | item :: rest =>
    let cmp := compareValues (evalScalar host.toHost a params item.expr) (evalScalar host.toHost b params item.expr)
    let cmp := if item.asc then cmp else cmp.swap
    if cmp ≠ .eq then cmp else compareGroups rest params a b

def projections (select : SelectStmt) (groupNames : List Str) (specs : List AggSpec) : List (Str × Expr) :=
  select.columns.flatMap fun
    | .wildcard | .qualifiedWildcard _ =>
      (groupNames ++ specs.map AggSpec.key).map fun name => (name, .column ⟨none, name⟩)
    | .expr e label => [(label.getD (renderExprName host.toHost e), e)]

/-- From the groups to the result: HAVING, ORDER BY, OFFSET, LIMIT and the projection. -/
def finishGroups (sort : SortBy) (select : SelectStmt) (specs : List AggSpec) (params : List SochValue)
    (limit offset : Option Nat) (states : List GroupState) : ExecutionResult :=
  -- A query without GROUP BY has a group even if it has no row.
  let states := if select.groupBy.isEmpty && states.isEmpty then [⟨[], ∅, specs.map Acc.new⟩] else states
  let groupNames := select.groupBy.map (renderExprName host.toHost)
  let rows := states.map (groupRow host groupNames specs)
  let rows := match select.having with
    | some having => rows.filter fun row => evalScalar host.toHost row params having = .bool true
    | none => rows
  let rows := if select.orderBy.isEmpty then rows
    else sort.sortBy (compareGroups host select.orderBy params) (rows.map (bindLabels host select params))
  let rows := rows.drop (offset.getD 0)
  let rows := match limit with
    | some n => rows.take n
    | none => rows
  let shown := projections host select groupNames specs
  .rows (shown.map Prod.fst) (rows.map fun row =>
    shown.foldl (fun out e => out.insert e.1 (evalScalar host.toHost row params e.2)) ∅)

def executeAggregate (sort : SortBy) (threads : Nat) (select : SelectStmt) (rows : List Row)
    (params : List SochValue) (limit offset : Option Nat) : Except SqlError ExecutionResult :=
  let specs := collectAggSpecs host.toHost select
  let states := match accumulateFast host threads select specs rows with
    | some states => states
    | none => accumulateGeneral host select specs params rows
  .ok (finishGroups host sort select specs params limit offset states)

theorem accumulateFast_eq (threads : Nat) (select : SelectStmt) (specs : List AggSpec) (rows : List Row) :
    accumulateFast host threads select specs rows = accumulateDivided host select specs
      (if parallelThreshold ≤ rows.length then rows.toChunks (chunkSize threads rows) else [rows]) := by
  unfold accumulateFast accumulateDivided
  congr 1
  funext cols
  split
  · rfl
  · rw [mergeChunks, accumulateChunks_single]
    rfl

end Operator
end Aggregates
