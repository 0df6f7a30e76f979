import SochDB.AggregateValues

/-!
The calls COUNT, COUNT(DISTINCT), SUM, MIN and MAX on the rows of one group: what their
accumulators hold, what they should return, and the groups for which they return it in every
order and division of the rows.
-/
namespace AggregateCalls
open KeyedMaps Utf8 PackedRows RowKeys SqlConnection GroupedFolds Aggregates AggregateValues List
open SqlExpressions hiding compareValues

/-- MIN and MAX are the two directions of `best`. -/
inductive Call where
  | countStar
  | count (ref : ColumnRef)
  | countDistinct (ref : ColumnRef)
  | sum (ref : ColumnRef)
  | best (dir : Direction) (ref : ColumnRef)
  deriving DecidableEq

namespace Call

def func : Call → AggFn
  | .countStar | .count _ | .countDistinct _ => .count
  | .sum _ => .sum
  | .best .least _ => .min
  | .best .greatest _ => .max

def arg : Call → Option ColumnRef
  | .countStar => none
  | .count ref | .countDistinct ref | .sum ref | .best _ ref => some ref

def distinct : Call → Bool
  | .countDistinct _ => true
  | _ => false

def key (call : Call) : Str := renderAggKey call.func (call.arg.map columnName) call.distinct

def spec (call : Call) : AggSpec := ⟨call.key, call.func, call.arg.map .column, call.distinct⟩

def expr (call : Call) : Expr :=
  .function (Str.ascii (funcName call.func)) [.column (call.arg.getD ⟨none, star⟩)] call.distinct

end Call

section Accumulation
variable (host : Numerics) (call : Call)

def accStep (acc : Acc) (row : Row) : Acc := acc.update host (call.arg.map (colGet row))

def accFold (rows : List Row) : Acc := rows.foldl (accStep host call) (Acc.new call.spec)

/-- The accumulator after parts that are folded apart and merged in their order. -/
def accParts (parts : List (List Row)) : Acc :=
  (foldParts (Acc.merge host) (fun _ => Acc.new call.spec) (accStep host call) parts).getD (Acc.new call.spec)

end Accumulation

section Arguments

def arguments (ref : ColumnRef) (rows : List Row) : List SochValue :=
  (rows.map (colGet · ref)).filter (· ≠ .null)

theorem arguments_append (ref : ColumnRef) (rows more : List Row) :
    arguments ref (rows ++ more) = arguments ref rows ++ arguments ref more := by
  rw [arguments, map_append, filter_append]
  rfl

variable {ref : ColumnRef}

theorem arguments_null {row : Row} (isNull : colGet row ref = .null) :
    arguments ref [row] = [] := by
  simp [arguments, isNull]

theorem arguments_value {row : Row} (nonnull : colGet row ref ≠ .null) :
    arguments ref [row] = [colGet row ref] := by
  simp [arguments, nonnull]

theorem arguments_perm {rows more : List Row} (reordered : rows.Perm more) :
    (arguments ref rows).Perm (arguments ref more) := (reordered.map _).filter _

theorem mem_arguments {rows : List Row} {v : SochValue} :
    v ∈ arguments ref rows ↔ (∃ row ∈ rows, colGet row ref = v) ∧ v ≠ .null := by
  unfold arguments
  rw [mem_filter, mem_map, decide_eq_true_eq]

end Arguments

section Sums
variable (host : Numerics) (ref : ColumnRef)

theorem zero_in_i64 : InI64 0 := ⟨by decide, by decide⟩

def amount (row : Row) : Int := ((whole (colGet row ref)).map fun n => (Int64.ofInt n).toInt).getD 0

def isSummand (row : Row) : Bool := (whole (colGet row ref)).isSome

def total (rows : List Row) : Int := (rows.map (amount ref)).sum

def gains (rows : List Row) : Int := (rows.map fun row => max (amount ref row) 0).sum

def losses (rows : List Row) : Int := (rows.map fun row => min (amount ref row) 0).sum

def exactSum (rows : List Row) : Int := (rows.map fun row => (whole (colGet row ref)).getD 0).sum

def addFloatOf (f : UInt64) (row : Row) : UInt64 :=
  ((whole (colGet row ref)).map fun n => host.addFloat f (asFloat n)).getD f

def floatFold (rows : List Row) : UInt64 := rows.foldl (addFloatOf host ref) 0

/-- The float sums that the rows may leave, in this order but in any division. -/
inductive FloatTotal : List Row → UInt64 → Prop where
  | fold {rows : List Row} (nonempty : rows ≠ []) : FloatTotal rows (floatFold host ref rows)
  | merge {rows more : List Row} {f : UInt64} (earlier : FloatTotal rows f) (nonempty : more ≠ []) :
    FloatTotal (rows ++ more) (host.addFloat f (floatFold host ref more))

def FloatsAgree (rows : List Row) : Prop :=
  ∀ order other f g, order.Perm rows → other.Perm rows → FloatTotal host ref order f →
    FloatTotal host ref other g → f = g

/-- The positive integers alone and the negative ones alone fit, or the sum overflows in
    every order, does not fit, and its float does not depend on the order. -/
def SumSettled (rows : List Row) : Prop :=
  (gains ref rows < 2 ^ 63 ∧ -2 ^ 63 ≤ losses ref rows) ∨
    (¬InI64 (total ref rows) ∧ ¬InI64 (exactSum ref rows) ∧ FloatsAgree host ref rows)

structure SumDescribes (rows : List Row) (s : SumAcc) : Prop where
  noFloat : s.sawFloat = false
  sawAny : s.sawAny = rows.any (isSummand ref)
  exact_int : s.overflowed = false → s.int.toInt = total ref rows
  safe : gains ref rows < 2 ^ 63 → -2 ^ 63 ≤ losses ref rows → s.overflowed = false

end Sums

section Statements
variable (host : Numerics)

/-- What a call should return on the rows of its group. -/
def Meets (call : Call) (rows : List Row) (v : SochValue) : Prop :=
  match call with
  | .countStar => v = .int (Int64.ofNat rows.length)
  | .count ref => v = .int (Int64.ofNat (arguments ref rows).length)
  | .countDistinct ref => v = .int (Int64.ofNat ((arguments ref rows).map normal).dedup.length)
  | .sum ref => (rows.any (isSummand ref) = false → v = .null) ∧
      (rows.any (isSummand ref) = true → InI64 (exactSum ref rows) → v = .int (Int64.ofInt (exactSum ref rows)))
  | .best dir ref => (arguments ref rows = [] → v = .null) ∧
      (arguments ref rows ≠ [] → ∃ m ∈ arguments ref rows, normal m = v ∧ ∀ z ∈ arguments ref rows, AsGood dir m z)

/-- The call returns this value in every order and division of the rows. -/
def Stable (call : Call) (rows : List Row) (v : SochValue) : Prop :=
  ∀ parts : List (List Row), [] ∉ parts → parts.flatten.Perm rows → normal ((accParts host call parts).finalize host) = v

def Settled (call : Call) (rows : List Row) : Prop :=
  match call with
  | .countStar | .count _ | .countDistinct _ => True
  | .sum ref => SumSettled host ref rows
  | .best dir ref => OneBest dir (arguments ref rows)

def Describes (call : Call) (rows : List Row) (acc : Acc) : Prop :=
  match call with
  | .countStar => acc = .countStar rows.length
  | .count ref => acc = .count (arguments ref rows).length
  | .countDistinct ref => acc = .countDistinct ((arguments ref rows).map (keyRepr host.toHost)).toFinset
  | .sum ref => ∃ s, acc = .sum s ∧ SumDescribes ref rows s
  | .best .least ref => ∃ cur, acc = .min cur ∧ Selection.Chosen (beats .least) (arguments ref rows) cur
  | .best .greatest ref => ∃ cur, acc = .max cur ∧ Selection.Chosen (beats .greatest) (arguments ref rows) cur

end Statements

section SumLemmas
variable {ref : ColumnRef} {rows more : List Row} {row : Row}

theorem amount_bounds (ref : ColumnRef) (row : Row) : InI64 (amount ref row) := by
  unfold amount
  cases whole (colGet row ref) with
  | none => exact ⟨by decide, by decide⟩
  | some n => exact ⟨Int64.le_toInt _, Int64.toInt_lt _⟩

theorem sum_append (f : Row → Int) (rows more : List Row) :
    ((rows ++ more).map f).sum = (rows.map f).sum + (more.map f).sum := by
  rw [List.map_append, List.sum_append]

theorem total_append (rows more : List Row) : total ref (rows ++ more) = total ref rows + total ref more :=
  sum_append ..

theorem gains_append (rows more : List Row) : gains ref (rows ++ more) = gains ref rows + gains ref more :=
  sum_append ..

theorem losses_append (rows more : List Row) : losses ref (rows ++ more) = losses ref rows + losses ref more :=
  sum_append ..

theorem total_between (ref : ColumnRef) (rows : List Row) : losses ref rows ≤ total ref rows ∧ total ref rows ≤ gains ref rows ∧
    losses ref rows ≤ 0 ∧ 0 ≤ gains ref rows := by
  induction rows with
  | nil => exact ⟨le_rfl, le_rfl, le_rfl, le_rfl⟩
  | cons row rows ih =>
    unfold losses total gains at ih ⊢
    simp only [map_cons, sum_cons]
    omega

variable {s : SumAcc} (host : Numerics)

theorem addInt_fits {i : Int64} (fits : InI64 (s.int.toInt + i.toInt)) :
    s.addInt i = { s with int := Int64.ofInt (s.int.toInt + i.toInt) } := by
  have added : checkedAdd s.int i = some (Int64.ofInt (s.int.toInt + i.toInt)) := if_pos fits
  rw [SumAcc.addInt, added]

theorem addInt_overflows {i : Int64} (outside : ¬InI64 (s.int.toInt + i.toInt)) :
    s.addInt i = { s with overflowed := true } := by
  have added : checkedAdd s.int i = none := if_neg outside
  rw [SumAcc.addInt, added]

theorem addInt_flags (s : SumAcc) (i : Int64) :
    (s.addInt i).sawFloat = s.sawFloat ∧ (s.overflowed = true → (s.addInt i).overflowed = true) := by
  unfold SumAcc.addInt
  split
  · exact ⟨rfl, id⟩
  · exact ⟨rfl, fun _ => rfl⟩

theorem update_summand (s : SumAcc) {v : SochValue} {n : Int} (isWhole : whole v = some n) :
    s.update host v = s.addNumber host (Int64.ofInt n) (asFloat n) := by
  cases v with
  | int i =>
    cases isWhole
    rw [SumAcc.update, Int64.ofInt_toInt]
  | uint u =>
    cases isWhole
    rw [SumAcc.update, toInt64_eq]
  | _ => cases isWhole

theorem update_other (s : SumAcc) {v : SochValue} (simple : Simple v) (notWhole : whole v = none) :
    s.update host v = s := by
  cases v with
  | int | uint => cases notWhole
  | float | binary | nested => exact simple.elim
  | _ => rfl

theorem SumDescribes.start : SumDescribes ref [] ⟨0, 0, false, false, false⟩ where
  noFloat := rfl
  sawAny := rfl
  exact_int := fun _ => rfl
  safe := fun _ _ => rfl

theorem SumDescribes.add {t r : SumAcc} (first : SumDescribes ref rows s) (second : SumDescribes ref more t)
    (noFloat : r.sawFloat = false) (sawAny : r.sawAny = (s.sawAny || t.sawAny)) (int : r.int = (s.addInt t.int).int)
    (flag : r.overflowed = ((s.addInt t.int).overflowed || t.overflowed)) : SumDescribes ref (rows ++ more) r := by
  refine ⟨noFloat, by rw [sawAny, first.sawAny, second.sawAny, any_append], ?_, ?_⟩
  · intro clean
    obtain ⟨added, other⟩ := Bool.or_eq_false_iff.mp (flag.symm.trans clean)
    by_cases here : InI64 (s.int.toInt + t.int.toInt)
    · rw [addInt_fits here] at added int
      rw [int, total_append, ← first.exact_int added, ← second.exact_int other]
      exact Int64.toInt_ofInt_of_le here.1 here.2
    · rw [addInt_overflows here] at added
      cases added
  · intro gain loss
    rw [gains_append] at gain
    rw [losses_append] at loss
    have left := total_between ref rows
    have right := total_between ref more
    have clean := first.safe (by omega) (by omega)
    have other := second.safe (by omega) (by omega)
    have here : InI64 (s.int.toInt + t.int.toInt) := by
      rw [first.exact_int clean, second.exact_int other]
      exact ⟨by omega, by omega⟩
    rw [flag, addInt_fits here, other, Bool.or_false]
    exact clean

theorem SumDescribes.step (describes : SumDescribes ref rows s) (simple : Simple (colGet row ref)) :
    SumDescribes ref (rows ++ [row]) (s.update host (colGet row ref)) := by
  have single : total ref [row] = amount ref row := by simp [total]
  cases isWhole : whole (colGet row ref) with
  | none =>
    have nothing : amount ref row = 0 := by rw [amount, isWhole]; rfl
    have noGain : gains ref [row] = 0 := by simp [gains, nothing]
    have noLoss : losses ref [row] = 0 := by simp [losses, nothing]
    rw [update_other host s simple isWhole]
    constructor
    · exact describes.noFloat
    · rw [any_append, describes.sawAny]
      simp [isSummand, isWhole]
    · rw [total_append, single, nothing, add_zero]
      exact describes.exact_int
    · rw [gains_append, losses_append, noGain, noLoss, add_zero, add_zero]
      exact describes.safe
  | some n =>
    have its : (Int64.ofInt n).toInt = amount ref row := by rw [amount, isWhole]; rfl
    have alone : SumDescribes ref [row] ⟨Int64.ofInt n, 0, false, true, false⟩ :=
      ⟨rfl, by simp [isSummand, isWhole], fun _ => its.trans single.symm, fun _ _ => rfl⟩
    rw [update_summand host s isWhole]
    exact describes.add alone ((addInt_flags s _).1.trans describes.noFloat) (Bool.or_true _).symm rfl
      (Bool.or_false _).symm

theorem SumDescribes.merge {t : SumAcc} (first : SumDescribes ref rows s) (second : SumDescribes ref more t) :
    SumDescribes ref (rows ++ more) (s.merge host t) := by
  refine first.add second ?_ rfl rfl rfl
  show (s.sawFloat || t.sawFloat) = false
  rw [first.noFloat, second.noFloat]
  rfl

end SumLemmas

section Descriptions
variable {host : Numerics} {call : Call} {rows more : List Row} {row : Row}

def SimpleIn (call : Call) (rows : List Row) : Prop := ∀ row ∈ rows, ∀ ref ∈ call.arg, Simple (colGet row ref)

theorem SimpleIn.left (simple : SimpleIn call (rows ++ more)) : SimpleIn call rows :=
  fun row member => simple row (mem_append_left more member)

theorem SimpleIn.right (simple : SimpleIn call (rows ++ more)) : SimpleIn call more :=
  fun row member => simple row (mem_append_right rows member)

theorem SimpleIn.perm (simple : SimpleIn call rows) (reordered : more.Perm rows) : SimpleIn call more :=
  fun row member => simple row (reordered.subset member)

theorem keepBetter_eq (dir : Direction) (cur : Option SochValue) (v : SochValue) :
    keepBetter dir.wanted cur v = Selection.keep (beats dir) cur v := by
  cases cur with
  | none => rfl
  | some c =>
    unfold keepBetter Selection.keep beats
    dsimp only
    by_cases better : compareValues v c = dir.wanted
    · rw [if_pos better, if_pos (decide_eq_true better)]
    · rw [if_neg better, if_neg (by simpa using better)]

theorem keepNonNull_eq {v : SochValue} (nonnull : v ≠ .null) (dir : Direction) (cur : Option SochValue) :
    keepNonNull dir.wanted cur (some v) = Selection.keep (beats dir) cur v := by
  rw [← keepBetter_eq]
  cases v with
  | null => exact absurd rfl nonnull
  | _ => rfl

theorem keepNonNull_chosen {dir : Direction} {ref : ColumnRef} {cur : Option SochValue}
    (chosen : Selection.Chosen (beats dir) (arguments ref rows) cur) :
    Selection.Chosen (beats dir) (arguments ref (rows ++ [row])) (keepNonNull dir.wanted cur (some (colGet row ref))) := by
  rw [arguments_append]
  by_cases isNull : colGet row ref = .null
  · rw [arguments_null isNull, append_nil, isNull]
    exact chosen
  · rw [arguments_value isNull, keepNonNull_eq isNull]
    exact Selection.chosen_keep chosen _

theorem describes_start : Describes host call [] (Acc.new call.spec) := by
  cases call with
  | countStar | count | countDistinct => rfl
  | sum ref => exact ⟨_, rfl, .start⟩
  | best dir ref => cases dir <;> exact ⟨none, rfl, rfl⟩

theorem describes_step {acc : Acc} (describes : Describes host call rows acc) (simple : SimpleIn call [row]) :
    Describes host call (rows ++ [row]) (accStep host call acc row) := by
  cases call with
  | countStar =>
    cases describes
    show Acc.countStar (rows.length + 1) = Acc.countStar (rows ++ [row]).length
    rw [length_append]
    rfl
  | count ref =>
    cases describes
    show Acc.count _ = Acc.count _
    rw [arguments_append]
    by_cases isNull : colGet row ref = .null
    · simp [Call.arg, arguments_null isNull, isNull]
    · simp [Call.arg, arguments_value isNull, isNull]
  | countDistinct ref =>
    cases describes
    by_cases isNull : colGet row ref = .null
    · simp [accStep, Call.arg, Describes, Acc.update, arguments_append, arguments_null isNull, isNull]
    · have updated : accStep host (.countDistinct ref)
          (.countDistinct ((arguments ref rows).map (keyRepr host.toHost)).toFinset) row = .countDistinct
            (insert (keyRepr host.toHost (colGet row ref)) ((arguments ref rows).map (keyRepr host.toHost)).toFinset) := by
        simp only [accStep, Call.arg, Option.map_some, Acc.update]
      rw [updated, Describes, arguments_append, arguments_value isNull, map_append, toFinset_append,
        Finset.insert_eq, Finset.union_comm]
      rfl
  | sum ref =>
    obtain ⟨s, rfl, sums⟩ := describes
    exact ⟨_, rfl, sums.step host (simple row mem_cons_self ref rfl)⟩
  | best dir ref => 
    cases dir with
    | least | greatest =>
      obtain ⟨cur, rfl, chosen⟩ := describes
      exact ⟨_, rfl, keepNonNull_chosen chosen⟩

theorem describes_fold (host : Numerics) (simple : SimpleIn call rows) : Describes host call rows (accFold host call rows) := by
  induction rows using List.reverseRecOn with
  | nil => exact describes_start
  | append_singleton rows row ih =>
    rw [accFold, foldl_append]
    exact describes_step (ih simple.left) simple.right

theorem chosen_of_both {dir : Direction} {l later : List SochValue} {cur other : Option SochValue}
    (first : Selection.Chosen (beats dir) l cur) (second : Selection.Chosen (beats dir) later other) :
    Selection.Chosen (beats dir) (l ++ later) ((other.map (keepBetter dir.wanted cur)).getD cur) := by
  cases other with
  | none =>
    obtain rfl : later = [] := second
    rw [append_nil]
    exact first
  | some b =>
    rw [Option.map_some, Option.getD_some, keepBetter_eq]
    cases cur with
    | none =>
      obtain rfl : l = [] := first
      exact second
    | some a => exact Selection.chosen_merge first second

theorem describes_merge {acc other : Acc} (first : Describes host call rows acc)
    (second : Describes host call more other) : Describes host call (rows ++ more) (acc.merge host other) := by
  cases call with
  | countStar =>
    cases first
    cases second
    rw [Describes, length_append]
    rfl
  | count ref =>
    cases first
    cases second
    rw [Describes, arguments_append, length_append]
    rfl
  | countDistinct ref =>
    cases first
    cases second
    rw [Describes, arguments_append, map_append, toFinset_append]
    rfl
  | sum ref =>
    obtain ⟨s, rfl, sums⟩ := first
    obtain ⟨t, rfl, others⟩ := second
    exact ⟨_, rfl, sums.merge host others⟩
  | best dir ref =>
    cases dir with
    | least | greatest =>
      obtain ⟨cur, rfl, chosen⟩ := first
      obtain ⟨other, rfl, others⟩ := second
      refine ⟨_, ?_, arguments_append ref rows more ▸ chosen_of_both chosen others⟩
      cases other <;> rfl

theorem accParts_single (nonempty : rows ≠ []) : accParts host call [rows] = accFold host call rows := by
  have folded := foldRows_const (accStep host call) (Acc.new call.spec) nonempty
  unfold accParts foldParts
  rw [map_singleton, folded]
  rfl

theorem accParts_append {parts : List (List Row)} (some_row : parts.flatten ≠ []) (nonempty : more ≠ []) :
    accParts host call (parts ++ [more]) = (accParts host call parts).merge host (accFold host call more) := by
  have folded := foldRows_const (accStep host call) (Acc.new call.spec) nonempty
  unfold accParts
  rw [foldParts_append, folded]
  cases before : foldParts (Acc.merge host) (fun _ => Acc.new call.spec) (accStep host call) parts with
  | none => exact absurd ((foldParts_eq_none _ _ _).mp before) some_row
  | some acc => rfl

theorem describes_parts (host : Numerics) {parts : List (List Row)} (simple : SimpleIn call parts.flatten) :
    Describes host call parts.flatten (accParts host call parts) := by
  unfold accParts
  cases folded : foldParts (Acc.merge host) (fun _ => Acc.new call.spec) (accStep host call) parts with
  | none =>
    rw [(foldParts_eq_none _ _ _).mp folded]
    exact describes_start
  | some acc =>
    have folds : ∀ rows s, foldRows (fun _ => Acc.new call.spec) (accStep host call) rows = some s →
        SimpleIn call rows → Describes host call rows s := by
      intro rows s done all
      have nonempty : rows ≠ [] := by
        rintro rfl
        cases done
      rw [foldRows_const _ _ nonempty] at done
      cases done
      exact describes_fold host all
    have whole_run := describes_foldParts (fun rows acc => SimpleIn call rows → Describes host call rows acc)
      folds (fun rows s more t before last all => describes_merge (before all.left) (folds more t last all.right)) folded
    exact whole_run simple

end Descriptions

section Counts
variable {host : Numerics} {call : Call} {rows : List Row}

theorem stable_of_descriptions (simple : SimpleIn call rows) {v : SochValue}
    (leads : ∀ order acc, order.Perm rows → Describes host call order acc → normal (acc.finalize host) = v) :
    Stable host call rows v := by
  intro parts _ reordered
  exact leads parts.flatten _ reordered (describes_parts host (simple.perm reordered))

theorem stable_sequential {v : SochValue} (stable : Stable host call rows v) {order : List Row}
    (reordered : order.Perm rows) (nonempty : order ≠ []) : normal ((accFold host call order).finalize host) = v := by
  have whole_run := stable [order] (by simpa using Ne.symm nonempty) (by simpa using reordered)
  rwa [accParts_single nonempty] at whole_run

theorem card_of_same_classes {α β γ : Type} [DecidableEq β] [DecidableEq γ] {f : α → β} {g : α → γ} {l : List α}
    (same : ∀ a ∈ l, ∀ b ∈ l, f a = f b ↔ g a = g b) : (l.map f).toFinset.card = (l.map g).dedup.length := by
  rw [← card_toFinset]
  induction l with
  | nil => rfl
  | cons a l ih =>
    have rest := ih fun x memberX y memberY =>
      same x (mem_cons_of_mem a memberX) y (mem_cons_of_mem a memberY)
    have seen : f a ∈ (l.map f).toFinset ↔ g a ∈ (l.map g).toFinset := by
      simp only [mem_toFinset, mem_map]
      exact exists_congr fun b => and_congr_right fun member =>
        same b (mem_cons_of_mem a member) a mem_cons_self
    rw [map_cons, map_cons, toFinset_cons, toFinset_cons, Finset.card_insert_eq_ite,
      Finset.card_insert_eq_ite, rest]
    simp only [seen]

theorem counts_stable (simple : SimpleIn call rows) (isCount : call.func = .count) :
    ∃ v, Stable host call rows v ∧ Meets call rows v := by
  cases call with
  | countStar =>
    refine ⟨_, stable_of_descriptions simple ?_, rfl⟩
    rintro order acc reordered rfl
    rw [Acc.finalize, normal_int, reordered.length_eq]
  | count ref =>
    refine ⟨_, stable_of_descriptions simple ?_, rfl⟩
    rintro order acc reordered rfl
    rw [Acc.finalize, normal_int, (arguments_perm reordered).length_eq]
  | countDistinct ref =>
    refine ⟨_, stable_of_descriptions simple ?_, rfl⟩
    rintro order acc reordered rfl
    have plain : ∀ v ∈ arguments ref order, Simple v := by
      intro v member
      obtain ⟨⟨row, inside, rfl⟩, _⟩ := mem_arguments.mp member
      exact simple row (reordered.subset inside) ref rfl
    have card := card_of_same_classes fun a memberA b memberB =>
      keyRepr_eq_iff host.toHost (plain a memberA) (plain b memberB)
    rw [Acc.finalize, normal_int, card, (((arguments_perm reordered).map normal).dedup).length_eq]
  | sum => cases isCount
  | best dir => cases dir <;> cases isCount

end Counts

section SumsSettled
variable {host : Numerics} {ref : ColumnRef} {rows : List Row}

theorem fold_sum (host : Numerics) (simple : SimpleIn (.sum ref) rows) :
    ∃ s, accFold host (.sum ref) rows = .sum s ∧ s.float = floatFold host ref rows := by
  induction rows using List.reverseRecOn with
  | nil => exact ⟨_, rfl, rfl⟩
  | append_singleton rows row ih =>
    obtain ⟨s, before, float⟩ := ih simple.left
    have plain := simple.right row mem_cons_self ref rfl
    have step : accFold host (.sum ref) (rows ++ [row]) = .sum (s.update host (colGet row ref)) := by
      rw [accFold, foldl_append, ← accFold, before]
      rfl
    refine ⟨_, step, ?_⟩
    rw [floatFold, foldl_append, ← floatFold, ← float]
    show _ = addFloatOf host ref s.float row
    unfold addFloatOf
    cases isWhole : whole (colGet row ref) with
    | none =>
      rw [update_other host s plain isWhole]
      rfl
    | some n =>
      rw [update_summand host s isWhole]
      rfl

theorem parts_float (host : Numerics) {parts : List (List Row)} (simple : SimpleIn (.sum ref) parts.flatten) (proper : [] ∉ parts)
    (nonempty : parts ≠ []) :
    ∃ s, accParts host (.sum ref) parts = .sum s ∧ FloatTotal host ref parts.flatten s.float := by
  induction parts using List.reverseRecOn with
  | nil => exact absurd rfl nonempty
  | append_singleton parts part ih =>
    rw [mem_append, not_or, mem_singleton] at proper
    have some_row : part ≠ [] := Ne.symm proper.2
    rw [flatten_append, flatten_singleton] at simple ⊢
    obtain ⟨t, last, float⟩ := fold_sum host simple.right
    by_cases first : parts = []
    · subst first
      refine ⟨t, ?_, ?_⟩
      · rw [nil_append, accParts_single some_row, last]
      · rw [float]
        exact .fold some_row
    · obtain ⟨s, before, earlier⟩ := ih simple.left proper.1 first
      have filled : parts.flatten ≠ [] := by
        obtain ⟨head, tail, rfl⟩ := exists_cons_of_ne_nil first
        intro empty
        rw [flatten_cons, append_eq_nil_iff] at empty
        exact proper.1 (empty.1 ▸ mem_cons_self)
      refine ⟨s.merge host t, ?_, ?_⟩
      · rw [accParts_append filled some_row, before, last]
        rfl
      · show FloatTotal host ref _ (host.addFloat s.float t.float)
        rw [float]
        exact .merge earlier some_row

variable {order : List Row} {s : SumAcc}

theorem division_of_float {f : UInt64} (simple : SimpleIn (.sum ref) order)
    (leaves : FloatTotal host ref order f) : ∃ parts : List (List Row), [] ∉ parts ∧ parts.flatten = order ∧
      order ≠ [] ∧ ∃ s, accParts host (.sum ref) parts = .sum s ∧ s.float = f := by
  induction leaves with
  | @fold rows nonempty =>
    obtain ⟨s, folded, float⟩ := fold_sum host simple
    refine ⟨[rows], by simpa using Ne.symm nonempty, flatten_singleton, nonempty, s, ?_, float⟩
    rw [accParts_single nonempty, folded]
  | @merge rows more f earlier nonempty ih =>
    obtain ⟨parts, proper, flat, filled, s, before, float⟩ := ih simple.left
    obtain ⟨t, folded, last⟩ := fold_sum host simple.right
    refine ⟨parts ++ [more], ?_, ?_, ?_, s.merge host t, ?_, ?_⟩
    · rw [mem_append, not_or]
      exact ⟨proper, by simpa using Ne.symm nonempty⟩
    · rw [flatten_append, flatten_singleton, flat]
    · intro empty
      exact filled (append_eq_nil_iff.mp empty).1
    · rw [accParts_append (flat ▸ filled) nonempty, before, folded]
      rfl
    · show host.addFloat s.float t.float = _
      rw [float, last]

section
variable (reordered : order.Perm rows)
include reordered

theorem total_perm : total ref order = total ref rows :=
  (reordered.map _).sum_eq

theorem gains_perm : gains ref order = gains ref rows :=
  (reordered.map _).sum_eq

theorem losses_perm : losses ref order = losses ref rows :=
  (reordered.map _).sum_eq

theorem any_perm :
    order.any (isSummand ref) = rows.any (isSummand ref) := reordered.any_eq

end

theorem exactSum_eq (ref : ColumnRef) (rows : List Row) : ∃ k : Int, exactSum ref rows = total ref rows + k * 2 ^ 64 := by
  induction rows with
  | nil => exact ⟨0, rfl⟩
  | cons row rows ih =>
    obtain ⟨k, rest⟩ := ih
    have one : ∃ j : Int, (whole (colGet row ref)).getD 0 = amount ref row + j * 2 ^ 64 := by
      unfold amount
      cases whole (colGet row ref) with
      | none => exact ⟨0, rfl⟩
      | some n =>
        refine ⟨n.bdiv Int64.size, ?_⟩
        have divided := Int.bmod_add_bdiv n Int64.size
        show n = (Int64.ofInt n).toInt + _
        rw [Int64.toInt_ofInt]
        have size : ((Int64.size : Nat) : Int) = 2 ^ 64 := rfl
        rw [size] at divided
        rw [mul_comm]
        exact divided.symm
    obtain ⟨j, first⟩ := one
    refine ⟨j + k, ?_⟩
    unfold exactSum total at rest ⊢
    rw [map_cons, sum_cons, map_cons, sum_cons, rest, first]
    ring

theorem exactSum_of_fits (fits : InI64 (total ref rows)) (exact_fits : InI64 (exactSum ref rows)) :
    exactSum ref rows = total ref rows := by
  obtain ⟨k, same⟩ := exactSum_eq ref rows
  unfold InI64 at fits exact_fits
  omega

theorem amount_of_no_summand (nothing : rows.any (isSummand ref) = false) : ∀ row ∈ rows, amount ref row = 0 := by
  intro row member
  have missing : isSummand ref row = false := by simpa using any_eq_false.mp nothing row member
  have notWhole : whole (colGet row ref) = none := by simpa [isSummand] using missing
  rw [amount, notWhole]
  rfl

theorem sum_of_zeros {f : Row → Int} (zeros : ∀ row ∈ rows, f row = 0) : (rows.map f).sum = 0 := by
  apply sum_eq_zero
  intro x member
  obtain ⟨row, inside, rfl⟩ := mem_map.mp member
  exact zeros row inside

theorem total_of_no_summand (nothing : rows.any (isSummand ref) = false) : total ref rows = 0 :=
  sum_of_zeros (amount_of_no_summand nothing)

theorem finalize_sum (describes : SumDescribes ref order s) :
    s.finalize = if order.any (isSummand ref) = false then .null
      else if s.overflowed then .float s.float else .int (Int64.ofInt (total ref order)) := by
  unfold SumAcc.finalize
  rw [describes.noFloat, describes.sawAny, Bool.false_or]
  cases order.any (isSummand ref) with
  | false => rfl
  | true =>
    cases flag : s.overflowed with
    | true => rfl
    | false =>
      rw [← describes.exact_int flag, Int64.ofInt_toInt]
      rfl

theorem flagged_of_outside (describes : SumDescribes ref order s) (outside : ¬InI64 (total ref order)) :
    s.overflowed = true := by
  by_contra clean
  rw [← describes.exact_int (by simpa using clean)] at outside
  exact outside ⟨Int64.le_toInt _, Int64.toInt_lt _⟩

theorem finalize_outside (describes : SumDescribes ref order s) (outside : ¬InI64 (total ref order)) :
    s.finalize = .float s.float := by
  have something : order.any (isSummand ref) = true := by
    by_contra nothing
    rw [total_of_no_summand (by simpa using nothing)] at outside
    exact outside zero_in_i64
  rw [finalize_sum describes, something, flagged_of_outside describes outside]
  rfl

theorem sum_stable (simple : SimpleIn (.sum ref) rows) (settled : SumSettled host ref rows) :
    ∃ v, Stable host (.sum ref) rows v ∧ Meets (.sum ref) rows v := by
  rcases settled with ⟨gain, loss⟩ | ⟨outside, unfit, agree⟩
  · have between := total_between ref rows
    have fits : InI64 (total ref rows) := ⟨by omega, by omega⟩
    refine ⟨if rows.any (isSummand ref) = false then .null else .int (Int64.ofInt (total ref rows)),
      stable_of_descriptions simple ?_, ?_, ?_⟩
    · rintro order acc reordered ⟨s, rfl, describes⟩
      have clean : s.overflowed = false := by
        apply describes.safe
        · rwa [gains_perm reordered]
        · rwa [losses_perm reordered]
      rw [Acc.finalize, finalize_sum describes, any_perm reordered, total_perm reordered, clean]
      split
      · rfl
      · exact normal_int _
    · intro nothing
      rw [if_pos nothing]
    · intro something exact_fits
      rw [if_neg (by rw [something]; decide), exactSum_of_fits fits exact_fits]
  · have nonempty : rows ≠ [] := by
      rintro rfl
      exact outside zero_in_i64
    refine ⟨.float (floatFold host ref rows), ?_, ?_, ?_⟩
    · intro parts proper reordered
      have filled : parts ≠ [] := by
        rintro rfl
        exact nonempty (nil_perm.mp reordered)
      have plain := simple.perm reordered
      obtain ⟨s, done, leaves⟩ := parts_float host plain proper filled
      obtain ⟨t, again, describes⟩ := describes_parts host plain
      rw [done] at again
      cases again
      rw [done, Acc.finalize, finalize_outside describes (by rwa [total_perm reordered]),
        agree _ rows _ _ reordered (.refl rows) leaves (.fold nonempty)]
      rfl
    · intro nothing
      rw [total_of_no_summand nothing] at outside
      exact absurd zero_in_i64 outside
    · intro _ fits
      exact absurd fits unfit

theorem accStep_sum (host : Numerics) (s : SumAcc) (row : Row) :
    accStep host (.sum ref) (.sum s) row = .sum (s.update host (colGet row ref)) := rfl

theorem overflow_stays (host : Numerics) (flagged : s.overflowed = true) (later : List Row) :
    ∃ t, later.foldl (accStep host (.sum ref)) (.sum s) = .sum t ∧ t.overflowed = true := by
  induction later generalizing s with
  | nil => exact ⟨s, rfl, flagged⟩
  | cons row later ih =>
    have updated : (s.update host (colGet row ref)).overflowed = true := by
      cases colGet row ref with
      | int | uint => exact (addInt_flags s _).2 flagged
      | _ => exact flagged
    exact ih updated

/-- Rows whose total is too large or too small overflow, and later rows do not mend that. -/
theorem overflow_of_outside (host : Numerics) {first later : List Row} (simple : SimpleIn (.sum ref) first)
    (outside : ¬InI64 (total ref first)) :
    ∃ s, accFold host (.sum ref) (first ++ later) = .sum s ∧ s.overflowed = true := by
  obtain ⟨s, folded, describes⟩ := describes_fold host simple
  rw [accFold, foldl_append, ← accFold, folded]
  exact overflow_stays host (flagged_of_outside describes outside) later

theorem total_filter (p : Row → Bool) (rows : List Row) :
    total ref (rows.filter p) = (rows.map fun row => if p row then amount ref row else 0).sum := by
  induction rows with
  | nil => rfl
  | cons row rows ih =>
    unfold total at ih ⊢
    rw [map_cons, sum_cons, ← ih]
    cases kept : p row <;> simp [kept]

theorem total_of_gains (rows : List Row) :
    total ref (rows.filter fun row => 0 < amount ref row) = gains ref rows := by
  rw [total_filter, gains]
  congr! 3 with row
  simp only [decide_eq_true_iff]
  omega

theorem total_of_losses (rows : List Row) :
    total ref (rows.filter fun row => amount ref row < 0) = losses ref rows := by
  rw [total_filter, losses]
  congr! 3 with row
  simp only [decide_eq_true_iff]
  omega

theorem exists_overflow (host : Numerics) (simple : SimpleIn (.sum ref) rows)
    (risky : ¬(gains ref rows < 2 ^ 63 ∧ -2 ^ 63 ≤ losses ref rows)) :
    ∃ order, order.Perm rows ∧ ∃ s, accFold host (.sum ref) order = .sum s ∧ s.overflowed = true := by
  by_cases small : gains ref rows < 2 ^ 63
  · refine ⟨_, filter_append_perm (fun row => amount ref row < 0) rows, overflow_of_outside host ?_ ?_⟩
    · exact fun row member => simple row (mem_of_mem_filter member)
    · rw [total_of_losses]
      exact fun fits => risky ⟨small, fits.1⟩
  · refine ⟨_, filter_append_perm (fun row => 0 < amount ref row) rows, overflow_of_outside host ?_ ?_⟩
    · exact fun row member => simple row (mem_of_mem_filter member)
    · rw [total_of_gains]
      exact fun fits => small fits.2

theorem clean_of_staysIn (host : Numerics) (simple : SimpleIn (.sum ref) order)
    (clean : s.overflowed = false)
    (stays : BoundedSums.StaysIn (amount ref) (-2 ^ 63) (2 ^ 63 - 1) s.int.toInt order) :
    ∃ t, order.foldl (accStep host (.sum ref)) (.sum s) = .sum t ∧ t.overflowed = false := by
  induction order generalizing s with
  | nil => exact ⟨s, rfl, clean⟩
  | cons row order ih =>
    obtain ⟨low, high, rest⟩ := stays
    have later : SimpleIn (.sum ref) order := fun other member => simple other (mem_cons_of_mem row member)
    cases isWhole : whole (colGet row ref) with
    | none =>
      have nothing : amount ref row = 0 := by rw [amount, isWhole]; rfl
      have same := update_other host s (simple row mem_cons_self ref rfl) isWhole
      rw [nothing, add_zero] at rest
      rw [foldl_cons, accStep_sum, same]
      exact ih later clean rest
    | some n =>
      have its : (Int64.ofInt n).toInt = amount ref row := by rw [amount, isWhole]; rfl
      have fits : InI64 (s.int.toInt + (Int64.ofInt n).toInt) := by
        rw [its]
        exact ⟨low, by omega⟩
      have next : s.update host (colGet row ref) = { s with
          int := Int64.ofInt (s.int.toInt + (Int64.ofInt n).toInt)
          float := host.addFloat s.float (asFloat n)
          sawAny := true } := by
        rw [update_summand host s isWhole, SumAcc.addNumber, addInt_fits fits]
      rw [foldl_cons, accStep_sum, next]
      refine ih later clean ?_
      rw [Int64.toInt_ofInt_of_le fits.1 fits.2, its]
      exact rest

theorem exists_clean (host : Numerics) (simple : SimpleIn (.sum ref) rows) (fits : InI64 (total ref rows)) :
    ∃ order, order.Perm rows ∧ ∃ s, accFold host (.sum ref) order = .sum s ∧ s.overflowed = false := by
  have each : ∀ row ∈ rows, (-2 ^ 63 : Int) ≤ amount ref row ∧ amount ref row ≤ 2 ^ 63 - 1 := by
    intro row _
    have bounds := amount_bounds ref row
    exact ⟨bounds.1, by have := bounds.2; omega⟩
  obtain ⟨order, reordered, stays⟩ := BoundedSums.exists_order (s := 0) each ⟨by decide, by decide⟩ (by
    rw [zero_add]
    exact ⟨fits.1, by have := fits.2; unfold total at this; omega⟩)
  exact ⟨order, reordered, clean_of_staysIn host (simple.perm reordered) rfl stays⟩

theorem sum_settled_of_stable (simple : SimpleIn (.sum ref) rows) {v : SochValue}
    (stable : Stable host (.sum ref) rows v) (meets : Meets (.sum ref) rows v) : SumSettled host ref rows := by
  by_cases safe : gains ref rows < 2 ^ 63 ∧ -2 ^ 63 ≤ losses ref rows
  · exact .inl safe
  · have something : rows.any (isSummand ref) = true := by
      by_contra nothing
      have zeros := amount_of_no_summand (by simpa using nothing)
      apply safe
      constructor
      · rw [gains, sum_of_zeros fun row member => by rw [zeros row member]; rfl]
        decide
      · rw [losses, sum_of_zeros fun row member => by rw [zeros row member]; rfl]
        decide
    have valueOf : ∀ order s, order.Perm rows → accFold host (.sum ref) order = .sum s →
        v = if s.overflowed then .float s.float else .int (Int64.ofInt (total ref order)) := by
      intro order s reordered folded
      obtain ⟨t, again, describes⟩ := describes_fold host (simple.perm reordered)
      rw [folded] at again
      cases again
      have nonempty : order ≠ [] := by
        rintro rfl
        rw [nil_perm.mp reordered] at something
        cases something
      rw [← stable_sequential stable reordered nonempty, folded, Acc.finalize, finalize_sum describes,
        any_perm reordered, something, if_neg (by decide)]
      split
      · rfl
      · exact normal_int _
    obtain ⟨order, reordered, s, folded, flagged⟩ := exists_overflow host simple safe
    have isFloat := valueOf order s reordered folded
    rw [flagged, if_pos rfl] at isFloat
    have outside : ¬InI64 (total ref rows) := by
      intro fits
      obtain ⟨other, again, t, done, clean⟩ := exists_clean host simple fits
      have isInt := valueOf other t again done
      rw [clean, isFloat] at isInt
      cases isInt
    refine .inr ⟨outside, ?_, ?_⟩
    · intro fits
      have isInt := meets.2 something fits
      rw [isFloat] at isInt
      cases isInt
    · have floatIs : ∀ order f, order.Perm rows → FloatTotal host ref order f → v = .float f := by
        intro order f reordered leaves
        have plain := simple.perm reordered
        obtain ⟨parts, proper, rfl, _, t, done, float⟩ := division_of_float plain leaves
        obtain ⟨u, again, describes⟩ := describes_parts host plain
        rw [done] at again
        cases again
        rw [← stable parts proper reordered, done, Acc.finalize,
          finalize_outside describes (by rwa [total_perm reordered]), float]
        rfl
      intro one other f g first second leaves leavesToo
      exact SochValue.float.inj ((floatIs one f first leaves).symm.trans (floatIs other g second leavesToo))

end SumsSettled

section BestSettled
variable {host : Numerics} {dir : Direction} {ref : ColumnRef} {rows : List Row}

theorem describes_best {order : List Row} {acc : Acc} (describes : Describes host (.best dir ref) order acc) :
    ∃ cur : Option SochValue, acc.finalize host = cur.getD .null ∧
      Selection.Chosen (beats dir) (arguments ref order) cur := by
  cases dir with
  | least | greatest =>
    obtain ⟨cur, rfl, chosen⟩ := describes
    exact ⟨cur, rfl, chosen⟩

theorem simple_arguments (simple : SimpleIn (.best dir ref) rows) {v : SochValue} (member : v ∈ arguments ref rows) :
    Simple v ∧ v ≠ .null := by
  obtain ⟨⟨row, inside, rfl⟩, nonnull⟩ := mem_arguments.mp member
  exact ⟨simple row inside ref rfl, nonnull⟩

theorem unbeaten_perm {args others : List SochValue} (reordered : args.Perm others) {m : SochValue}
    (unbeaten : Selection.Unbeaten (beats dir) args m) : Selection.Unbeaten (beats dir) others m :=
  fun z member => unbeaten z (reordered.symm.subset member)

theorem best_stable (simple : SimpleIn (.best dir ref) rows) (settled : OneBest dir (arguments ref rows)) :
    ∃ v, Stable host (.best dir ref) rows v ∧ Meets (.best dir ref) rows v := by
  have weak : Selection.Weak (beats dir) (arguments ref rows) := weak_of_oneKind settled.1
  obtain ⟨first, _, chosen⟩ := describes_best (describes_fold host simple)
  refine ⟨normal (first.getD .null), stable_of_descriptions simple ?_, ?_, ?_⟩
  · intro order acc reordered describes
    obtain ⟨cur, final, others⟩ := describes_best describes
    have same : (arguments ref order).Perm (arguments ref rows) := arguments_perm reordered
    rw [final]
    cases cur with
    | none =>
      have empty : arguments ref rows = [] := by
        rw [show arguments ref order = [] from others] at same
        exact nil_perm.mp same
      cases first with
      | none => rfl
      | some m =>
        rw [empty] at chosen
        cases chosen.1
    | some a =>
      have memberA := same.subset others.1
      have unbeatenA := unbeaten_perm same (others.2 (weak.subset same.subset))
      cases first with
      | none =>
        rw [show arguments ref rows = [] from chosen] at memberA
        cases memberA
      | some m => exact settled.2 a memberA m chosen.1 unbeatenA (chosen.2 weak)
  · intro empty
    cases first with
    | none => rfl
    | some m =>
      rw [empty] at chosen
      cases chosen.1
  · intro nonempty
    cases first with
    | none => exact absurd chosen nonempty
    | some m =>
      exact ⟨m, chosen.1, rfl, fun z member => asGood_of_unbeaten settled chosen.1 (chosen.2 weak) member⟩

theorem pass_of_rows (dir : Direction) (ref : ColumnRef) (order : List Row) (cur : Option SochValue) :
    order.foldl (fun cur row => keepNonNull dir.wanted cur (some (colGet row ref))) cur =
      (arguments ref order).foldl (Selection.keep (beats dir)) cur := by
  induction order generalizing cur with
  | nil => rfl
  | cons row order ih =>
    have split : arguments ref (row :: order) = arguments ref [row] ++ arguments ref order :=
      arguments_append ref [row] order
    rw [split, foldl_append, foldl_cons, ih]
    by_cases isNull : colGet row ref = .null
    · rw [arguments_null isNull, isNull]
      rfl
    · rw [arguments_value isNull, keepNonNull_eq isNull]
      rfl

theorem fold_best (host : Numerics) (dir : Direction) (ref : ColumnRef) (order : List Row) :
    (accFold host (.best dir ref) order).finalize host =
      ((arguments ref order).foldl (Selection.keep (beats dir)) none).getD .null := by
  rw [← pass_of_rows]
  cases dir with
  | least => exact congrArg (Acc.finalize host) (foldl_hom Acc.min fun _ _ => rfl)
  | greatest => exact congrArg (Acc.finalize host) (foldl_hom Acc.max fun _ _ => rfl)

theorem pass_from {v a : SochValue} (stable : Stable host (.best dir ref) rows v) (member : a ∈ arguments ref rows) :
    ∃ rest, (a :: rest).Perm (arguments ref rows) ∧
      ∃ m, rest.foldl (Selection.keep (beats dir)) (some a) = some m ∧ normal m = v := by
  obtain ⟨⟨row, inside, rfl⟩, nonnull⟩ := mem_arguments.mp member
  obtain ⟨before, after, rfl⟩ := append_of_mem inside
  have reordered : (row :: (before ++ after)).Perm (before ++ row :: after) := perm_middle.symm
  have split : arguments ref (row :: (before ++ after)) = colGet row ref :: arguments ref (before ++ after) := by
    have parts := arguments_append ref [row] (before ++ after)
    rwa [arguments_value nonnull] at parts
  obtain ⟨m, kept⟩ := Selection.exists_kept (beats dir) (arguments ref (before ++ after)) (colGet row ref)
  refine ⟨arguments ref (before ++ after), split ▸ arguments_perm reordered, m, kept, ?_⟩
  have value := stable_sequential stable reordered (cons_ne_nil _ _)
  rw [fold_best, split, foldl_cons] at value
  rw [← value]
  show _ = normal (Option.getD ((arguments ref (before ++ after)).foldl (Selection.keep (beats dir)) (some _)) .null)
  rw [kept]
  rfl

theorem best_settled_of_stable (simple : SimpleIn (.best dir ref) rows) {v : SochValue}
    (stable : Stable host (.best dir ref) rows v) : OneBest dir (arguments ref rows) := by
  have kind : ∀ a ∈ arguments ref rows, (number a).isSome = (number v).isSome := by
    intro a member
    obtain ⟨rest, reordered, m, kept, rfl⟩ := pass_from stable member
    rw [number_normal]
    symm
    apply kind_of_pass _ kept
    intro z inside
    exact simple_arguments simple (reordered.subset inside)
  constructor
  · cases isNumber : (number v).isSome with
    | true =>
      left
      intro a member
      rw [kind a member, isNumber]
    | false =>
      right
      intro a member
      have plain := simple_arguments simple member
      rcases number_or_text plain.1 plain.2 with ⟨n, found⟩ | text
      · have same := kind a member
        rw [isNumber, found] at same
        cases same
      · exact text
  · have final : ∀ a ∈ arguments ref rows, Selection.Unbeaten (beats dir) (arguments ref rows) a → normal a = v := by
      intro a member unbeaten
      obtain ⟨rest, reordered, m, kept, same⟩ := pass_from stable member
      rw [Selection.keep_of_unbeaten fun z inside =>
        unbeaten z (reordered.subset (mem_cons_of_mem a inside))] at kept
      cases kept
      exact same
    intro a memberA b memberB unbeatenA unbeatenB
    rw [final a memberA unbeatenA, final b memberB unbeatenB]

end BestSettled

/-- A call returns what it should in every order and division if and only if it is settled. -/
theorem stable_iff_settled (host : Numerics) {call : Call} {rows : List Row} (simple : SimpleIn call rows) :
    (∃ v, Stable host call rows v ∧ Meets call rows v) ↔ Settled host call rows := by
  cases call with
  | countStar | count | countDistinct => exact ⟨fun _ => trivial, fun _ => counts_stable simple rfl⟩
  | sum ref =>
    constructor
    · rintro ⟨v, stable, meets⟩
      exact sum_settled_of_stable simple stable meets
    · exact sum_stable simple
  | best dir ref =>
    constructor
    · rintro ⟨v, stable, _⟩
      exact best_settled_of_stable simple stable
    · exact best_stable simple

end AggregateCalls
