import SochDB.PackedRows

/-!
Typed columns. Fixed-width values stand in one array and variable-width ones in one byte
string cut at 32-bit offsets, each with a validity bit per row. A column gives back what
was pushed into it as long as its bytes stay within the range of an offset; past that
range a read panics.
-/
namespace Columnar
open Utf8 WalRecords PackedRows List

/-- `values[idx]`, where the row is valid. -/
def fixedAt {α : Type} (make : α → SochValue) (values : List α) (validity : List Bool) (idx : Nat) :
    Option SochValue :=
  match values[idx]?, validity.getD idx false with
  | some value, true => some (make value)
  | _, _ => some .null

/-- `&data[start..finish]`, which panics on a bad range. -/
def slice (data : Bytes) (start finish : Nat) : Option Bytes :=
  if start ≤ finish ∧ finish ≤ data.length then some ((data.drop start).take (finish - start)) else none

def slicedAt (make : Bytes → SochValue) (offsets : List UInt32) (data : Bytes) (validity : List Bool)
    (idx : Nat) : Option SochValue :=
  match offsets[idx]?, offsets[idx + 1]?, validity.getD idx false with
  | some start, some finish, true => (slice data start.toNat finish.toNat).map make
  | _, _, _ => some .null

inductive TypedColumn where
  | int64 (values : List Int64) (validity : List Bool)
  | uint64 (values : List UInt64) (validity : List Bool)
  | float64 (values : List UInt64) (validity : List Bool)
  | text (offsets : List UInt32) (data : Bytes) (validity : List Bool)
  | binary (offsets : List UInt32) (data : Bytes) (validity : List Bool)
  | bool (values : List Bool) (validity : List Bool)
  deriving DecidableEq

def textOf (data : Bytes) : SochValue := ((Str.fromUtf8 data).map SochValue.text).getD .null

namespace TypedColumn

def new : PackedColumnType → TypedColumn
  | .int64 => .int64 [] []
  | .uint64 => .uint64 [] []
  | .float64 => .float64 [] []
  | .text => .text [0] [] []
  | .binary => .binary [0] [] []
  | .bool => .bool [] []
  | .null => .text [0] [] []

def pushNull : TypedColumn → TypedColumn
  | .int64 values validity => .int64 (values ++ [0]) (validity ++ [false])
  | .uint64 values validity => .uint64 (values ++ [0]) (validity ++ [false])
  | .float64 values validity => .float64 (values ++ [0]) (validity ++ [false])
  | .text offsets data validity =>
    .text (offsets ++ [(offsets.getLast?).getD 0]) data (validity ++ [false])
  | .binary offsets data validity =>
    .binary (offsets ++ [(offsets.getLast?).getD 0]) data (validity ++ [false])
  | .bool values validity => .bool (values ++ [false]) (validity ++ [false])

/-- A value of another type is pushed as a null, or converted between the number types. -/
def pushValue : TypedColumn → Option SochValue → TypedColumn
  | .int64 values validity, some (.int i) => .int64 (values ++ [i]) (validity ++ [true])
  | .int64 values validity, some (.uint u) => .int64 (values ++ [u.toInt64]) (validity ++ [true])
  | .uint64 values validity, some (.uint u) => .uint64 (values ++ [u]) (validity ++ [true])
  | .uint64 values validity, some (.int i) => .uint64 (values ++ [i.toUInt64]) (validity ++ [true])
  | .float64 values validity, some (.float f) => .float64 (values ++ [f]) (validity ++ [true])
  | .float64 values validity, some (.int i) => .float64 (values ++ [i.toFloat.toBits]) (validity ++ [true])
  | .text offsets data validity, some (.text s) =>
    .text (offsets ++ [UInt32.ofNat (data ++ s.bytes).length]) (data ++ s.bytes) (validity ++ [true])
  | .binary offsets data validity, some (.binary b) =>
    .binary (offsets ++ [UInt32.ofNat (data ++ b).length]) (data ++ b) (validity ++ [true])
  | .bool values validity, some (.bool b) => .bool (values ++ [b]) (validity ++ [true])
  | column, _ => column.pushNull

/-- The value of a row; `none` is a panic. -/
def valueAt : TypedColumn → Nat → Option SochValue
  | .int64 values validity => fixedAt .int values validity
  | .uint64 values validity => fixedAt .uint values validity
  | .float64 values validity => fixedAt .float values validity
  | .text offsets data validity => slicedAt textOf offsets data validity
  | .binary offsets data validity => slicedAt .binary offsets data validity
  | .bool values validity => fixedAt .bool values validity

end TypedColumn

def block : SochValue → Bytes
  | .text s => s.bytes
  | .binary b => b
  | _ => []

def fill (colType : PackedColumnType) (values : List SochValue) : TypedColumn :=
  values.foldl (fun column value => column.pushValue (some value)) (TypedColumn.new colType)

theorem pushValue_none (column : TypedColumn) : column.pushValue none = column.pushValue (some .null) := by
  cases column <;> rfl

def present (value : SochValue) : Bool := value != .null

section Fixed
variable {α : Type} (wrap : List α → List Bool → TypedColumn) (part : SochValue → α)

theorem fold_fixed {values : List SochValue}
    (pushes : ∀ value ∈ values, ∀ array validity, (wrap array validity).pushValue (some value) =
      wrap (array ++ [part value]) (validity ++ [present value])) (array : List α) (validity : List Bool) :
    values.foldl (fun column value => column.pushValue (some value)) (wrap array validity) =
      wrap (array ++ values.map part) (validity ++ values.map present) := by
  induction values generalizing array validity with
  | nil => simp
  | cons value values ih =>
    rw [foldl_cons, pushes value mem_cons_self,
      ih fun later member => pushes later (mem_cons_of_mem value member)]
    simp

theorem fixedAt_map {make : α → SochValue} {values : List SochValue} {idx : Nat} {value : SochValue}
    (made : ∀ value ∈ values, value ≠ .null → make (part value) = value)
    (here : values[idx]? = some value) :
    fixedAt make (values.map part) (values.map present) idx = some value := by
  have valid : (values.map present).getD idx false = present value := by
    simp [getD_eq_getElem?_getD, here]
  rw [fixedAt, valid, List.getElem?_map, here, Option.map_some]
  by_cases absent : value = .null
  · subst absent
    rfl
  · rw [present, bne_iff_ne.mpr absent]
    exact congrArg some (made value (mem_of_getElem? here) absent)

end Fixed

def marks : Nat → List SochValue → List UInt32
  | _, [] => []
  | length, value :: values =>
    UInt32.ofNat (length + (block value).length) :: marks (length + (block value).length) values

theorem mark_at (values : List SochValue) (length idx : Nat) (within : idx ≤ values.length) :
    (UInt32.ofNat length :: marks length values)[idx]? =
      some (UInt32.ofNat (length + ((values.take idx).flatMap block).length)) := by
  induction values generalizing length idx with
  | nil =>
    have first : idx = 0 := Nat.le_zero.mp within
    subst first
    rfl
  | cons value values ih =>
    cases idx with
    | zero => rfl
    | succ idx =>
      rw [List.getElem?_cons_succ, marks, ih _ idx (Nat.le_of_succ_le_succ within)]
      simp [Nat.add_assoc]

section Sliced
variable (wrap : List UInt32 → Bytes → List Bool → TypedColumn)

def Pushes (value : SochValue) : Prop :=
  ∀ offsets data validity, offsets.getLast? = some (UInt32.ofNat data.length) →
    (wrap offsets data validity).pushValue (some value) =
      wrap (offsets ++ [UInt32.ofNat (data.length + (block value).length)]) (data ++ block value)
        (validity ++ [present value])

theorem fold_sliced {values : List SochValue} (pushes : ∀ value ∈ values, Pushes wrap value)
    {offsets : List UInt32} {data : Bytes} (validity : List Bool)
    (last : offsets.getLast? = some (UInt32.ofNat data.length)) :
    values.foldl (fun column value => column.pushValue (some value)) (wrap offsets data validity) =
      wrap (offsets ++ marks data.length values) (data ++ values.flatMap block)
        (validity ++ values.map present) := by
  induction values generalizing offsets data validity with
  | nil => simp [marks]
  | cons value values ih =>
    rw [foldl_cons, pushes value mem_cons_self offsets data validity last,
      ih (fun later member => pushes later (mem_cons_of_mem value member)) _ (by simp)]
    simp [marks]

end Sliced

section Reads
variable {make : Bytes → SochValue} {values : List SochValue} {idx : Nat} {value : SochValue}

theorem slicedAt_marks (here : values[idx]? = some value) :
    slicedAt make (0 :: marks 0 values) (values.flatMap block) (values.map present) idx =
      if present value then
        (slice (values.flatMap block) (((values.take idx).flatMap block).length % 2 ^ 32)
          (((values.take (idx + 1)).flatMap block).length % 2 ^ 32)).map make
      else some .null := by
  have within : idx < values.length := (List.getElem?_eq_some_iff.mp here).1
  have valid : (values.map present).getD idx false = present value := by
    simp [getD_eq_getElem?_getD, here]
  have start := mark_at values 0 idx (by omega)
  have finish := mark_at values 0 (idx + 1) within
  rw [Nat.zero_add] at start finish
  rw [slicedAt, valid]
  simp only [show (0 : UInt32) = UInt32.ofNat 0 from rfl, start, finish]
  cases present value with
  | false => rfl
  | true => simp

theorem block_at (here : values[idx]? = some value) :
    values.flatMap block = (values.take idx).flatMap block ++ block value ++
      (values.drop (idx + 1)).flatMap block ∧
    (values.take (idx + 1)).flatMap block = (values.take idx).flatMap block ++ block value := by
  have shorter : values.take (idx + 1) = values.take idx ++ [value] := by
    rw [take_add_one, here]
    rfl
  have parts : values = values.take (idx + 1) ++ values.drop (idx + 1) :=
    (take_append_drop (idx + 1) values).symm
  constructor
  · conv_lhs => rw [parts]
    simp [shorter]
  · simp [shorter]

theorem slicedAt_reads (fits : (values.flatMap block).length < 2 ^ 32)
    (made : value ≠ .null → make (block value) = value) (here : values[idx]? = some value) :
    slicedAt make (0 :: marks 0 values) (values.flatMap block) (values.map present) idx = some value := by
  obtain ⟨whole, next⟩ := block_at here
  have size := congrArg List.length whole
  simp only [length_append] at size
  rw [slicedAt_marks here, next, length_append, Nat.mod_eq_of_lt (by omega),
    Nat.mod_eq_of_lt (by omega)]
  by_cases absent : value = .null
  · subst absent
    rfl
  · have cut : slice (values.flatMap block) ((values.take idx).flatMap block).length
        (((values.take idx).flatMap block).length + (block value).length) = some (block value) := by
      rw [slice, if_pos (by omega), whole, append_assoc, drop_left,
        Nat.add_sub_cancel_left, take_left]
    rw [cut, present, if_pos (bne_iff_ne.mpr absent)]
    exact congrArg some (made absent)

theorem slicedAt_panics (make : Bytes → SochValue) {values : List SochValue}
    (short : ∀ value ∈ values, (block value).length < 2 ^ 32)
    (long : 2 ^ 32 ≤ (values.flatMap block).length) :
    ∃ idx < values.length,
      slicedAt make (0 :: marks 0 values) (values.flatMap block) (values.map present) idx = none := by
  let total := fun idx => ((values.take idx).flatMap block).length
  have reached : ∃ n, 2 ^ 32 ≤ total n := ⟨values.length, by
    simp only [total, take_length]
    exact long⟩
  have first := Nat.find_spec reached
  have positive : Nat.find reached ≠ 0 := by
    intro zero
    rw [zero] at first
    simp [total] at first
  obtain ⟨idx, found⟩ := Nat.exists_eq_succ_of_ne_zero positive
  have before : total idx < 2 ^ 32 := by
    have earlier := Nat.find_min reached (m := idx) (by omega)
    omega
  rw [found] at first
  have within : idx < values.length := by
    by_contra past
    have same : total (idx + 1) = total idx := by
      simp only [total]
      rw [take_of_length_le (by omega), take_of_length_le (by omega)]
    rw [Nat.succ_eq_add_one, same] at first
    omega
  obtain ⟨value, here⟩ : ∃ value, values[idx]? = some value :=
    ⟨values[idx], List.getElem?_eq_getElem within⟩
  have next : total (idx + 1) = total idx + (block value).length := by
    simp only [total]
    rw [(block_at here).2, length_append]
  have small := short value (mem_of_getElem? here)
  have shown : present value = true := by
    apply bne_iff_ne.mpr
    intro absent
    subst absent
    simp only [block, length_nil] at next
    rw [Nat.succ_eq_add_one, next] at first
    omega
  refine ⟨idx, within, ?_⟩
  rw [slicedAt_marks here, if_pos shown, slice, if_neg, Option.map_none]
  change ¬(total idx % 2 ^ 32 ≤ total (idx + 1) % 2 ^ 32 ∧ _)
  rw [Nat.succ_eq_add_one] at first
  omega

end Reads

def intPart : SochValue → Int64
  | .int i => i
  | _ => 0

def uintPart : SochValue → UInt64
  | .uint u => u
  | _ => 0

def floatPart : SochValue → UInt64
  | .float bits => bits
  | _ => 0

def boolPart : SochValue → Bool
  | .bool b => b
  | _ => false

section Fill
variable {values : List SochValue}

theorem textOf_bytes (s : Str) : textOf s.bytes = .text s := by
  rw [textOf, Str.fromUtf8_some.mpr rfl, Option.map_some, Option.getD_some]

variable {value : SochValue}

theorem text_pushes (typed : HasType .text value) : Pushes .text value := by
  intro offsets data validity last
  cases value with
  | null => simp [TypedColumn.pushValue, TypedColumn.pushNull, block, present, last]
  | text s => simp [TypedColumn.pushValue, block, present]
  | _ => cases typed

theorem binary_pushes (typed : HasType .binary value) : Pushes .binary value := by
  intro offsets data validity last
  cases value with
  | null => simp [TypedColumn.pushValue, TypedColumn.pushNull, block, present, last]
  | binary b => simp [TypedColumn.pushValue, block, present]
  | _ => cases typed

variable {colType : PackedColumnType}

theorem fixed_reads {α : Type} (wrap : List α → List Bool → TypedColumn)
    (part : SochValue → α) {make : α → SochValue} (empty : TypedColumn.new colType = wrap [] [])
    (shown : ∀ array validity, (wrap array validity).valueAt = fixedAt make array validity)
    (pushes : ∀ value, HasType colType value → ∀ array validity, (wrap array validity).pushValue (some value) =
      wrap (array ++ [part value]) (validity ++ [present value]))
    (made : ∀ value, HasType colType value → value ≠ .null → make (part value) = value)
    (typed : ∀ value ∈ values, HasType colType value) {idx : Nat} (here : values[idx]? = some value) :
    (fill colType values).valueAt idx = some value := by
  have filled := fold_fixed wrap part (fun value member => pushes value (typed value member)) [] []
  rw [fill, empty, filled, shown]
  exact fixedAt_map part (fun value member => made value (typed value member)) here

theorem fill_text (typed : ∀ value ∈ values, HasType .text value) :
    fill .text values = .text (0 :: marks 0 values) (values.flatMap block) (values.map present) :=
  fold_sliced TypedColumn.text (fun value member => text_pushes (typed value member)) [] rfl

theorem fill_binary (typed : ∀ value ∈ values, HasType .binary value) :
    fill .binary values = .binary (0 :: marks 0 values) (values.flatMap block) (values.map present) :=
  fold_sliced TypedColumn.binary (fun value member => binary_pushes (typed value member)) [] rfl

theorem hasType_text_of_null (typed : HasType .null value) : HasType .text value := by
  cases value <;> trivial

theorem column_reads (typed : ∀ value ∈ values, HasType colType value)
    (fits : (values.flatMap block).length < 2 ^ 32) {idx : Nat} (here : values[idx]? = some value) :
    (fill colType values).valueAt idx = some value := by
  have texts : (∀ value ∈ values, HasType .text value) → (fill .text values).valueAt idx = some value := by
    intro typed
    rw [fill_text typed]
    apply slicedAt_reads fits _ here
    intro shown
    have holds := typed value (mem_of_getElem? here)
    cases value with
    | null => exact absurd rfl shown
    | text s => exact textOf_bytes s
    | _ => cases holds
  cases colType with
  | null => exact texts fun value member => hasType_text_of_null (typed value member)
  | text => exact texts typed
  | binary =>
    rw [fill_binary typed]
    apply slicedAt_reads fits _ here
    intro shown
    have holds := typed value (mem_of_getElem? here)
    cases value <;> first | rfl | exact absurd rfl shown | cases holds
  | int64 =>
    refine fixed_reads TypedColumn.int64 intPart rfl (fun _ _ => rfl) (fun value holds _ _ => ?_)
      (fun value holds shown => ?_) typed here
    · cases value <;> first | rfl | cases holds
    · cases value <;> first | rfl | exact absurd rfl shown | cases holds
  | uint64 =>
    refine fixed_reads TypedColumn.uint64 uintPart rfl (fun _ _ => rfl) (fun value holds _ _ => ?_)
      (fun value holds shown => ?_) typed here
    · cases value <;> first | rfl | cases holds
    · cases value <;> first | rfl | exact absurd rfl shown | cases holds
  | float64 =>
    refine fixed_reads TypedColumn.float64 floatPart rfl (fun _ _ => rfl) (fun value holds _ _ => ?_)
      (fun value holds shown => ?_) typed here
    · cases value <;> first | rfl | cases holds
    · cases value <;> first | rfl | exact absurd rfl shown | cases holds
  | bool =>
    refine fixed_reads TypedColumn.bool boolPart rfl (fun _ _ => rfl) (fun value holds _ _ => ?_)
      (fun value holds shown => ?_) typed here
    · cases value <;> first | rfl | cases holds
    · cases value <;> first | rfl | exact absurd rfl shown | cases holds

theorem column_panics (typed : ∀ value ∈ values, HasType colType value)
    (short : ∀ value ∈ values, (block value).length < 2 ^ 32)
    (long : 2 ^ 32 ≤ (values.flatMap block).length) :
    ∃ idx < values.length, (fill colType values).valueAt idx = none := by
  have empty : (∀ value ∈ values, block value = []) → False := by
    intro none
    rw [flatMap_eq_nil_iff.mpr none] at long
    simp at long
  cases colType with
  | text =>
    rw [fill_text typed]
    exact slicedAt_panics textOf short long
  | binary =>
    rw [fill_binary typed]
    exact slicedAt_panics SochValue.binary short long
  | _ =>
    exfalso
    apply empty
    intro value member
    have holds := typed value member
    cases value <;> first | rfl | cases holds

end Fill
end Columnar
