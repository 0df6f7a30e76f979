import SochDB.DatabaseKernel

/-!
Rows as functions from positions to bytes, and what a column reads off them: where its bit,
its offset and its value stand depends on the number of columns alone.
-/
namespace RowLayouts
open LittleEndian Utf8 WalRecords PackedRows DatabaseKernel

section Bytes

def bytesOf (f : Nat → UInt8) (n : Nat) : Bytes := (List.range n).map f

@[simp] theorem length_bytesOf (f : Nat → UInt8) (n : Nat) : (bytesOf f n).length = n := by
  simp [bytesOf]

variable (f : Nat → UInt8) (n : Nat)

theorem bytesOf_drop (s : Nat) :
    (bytesOf f n).drop s = bytesOf (fun i => f (s + i)) (n - s) := by
  apply List.ext_getElem?
  intro i
  simp only [bytesOf, List.getElem?_drop, List.getElem?_map]
  by_cases inside : s + i < n
  · rw [List.getElem?_range inside, List.getElem?_range (by omega)]
    rfl
  · rw [List.getElem?_eq_none (by simpa using inside), List.getElem?_eq_none (by simp; omega)]
    rfl

theorem bytesOf_take (s : Nat) : (bytesOf f n).take s = bytesOf f (min s n) := by
  rw [bytesOf, ← List.map_take, List.take_range]
  rfl

theorem bytesOf_succ : bytesOf f (n + 1) = f 0 :: bytesOf (fun i => f (i + 1)) n := by
  rw [bytesOf, List.range_succ_eq_map, List.map_cons, List.map_map]
  rfl

variable {f : Nat → UInt8}

theorem getD_bytesOf {n i : Nat} (inside : i < n) : (bytesOf f n).getD i 0 = f i := by
  simp [bytesOf, List.getD, List.getElem?_map, List.getElem?_range inside]

theorem ofLe_zeros {n : Nat} (zeros : ∀ i < n, f i = 0) : ofLe (bytesOf f n) = 0 := by
  induction n generalizing f with
  | zero => rfl
  | succ n ih =>
    rw [bytesOf_succ, ofLe, zeros 0 (Nat.succ_pos n), ih fun i inside => zeros (i + 1) (by omega)]
    rfl

theorem ofLe_first {n : Nat} (zeros : ∀ i, 0 < i → i < n + 1 → f i = 0) :
    ofLe (bytesOf f (n + 1)) = (f 0).toNat := by
  rw [bytesOf_succ, ofLe, ofLe_zeros fun i inside => zeros (i + 1) (by omega) (by omega), Nat.mul_zero,
    Nat.add_zero]

end Bytes

section Values

def oneOf : ColumnType → SochValue
  | .int64 => .int 1
  | .uint64 => .uint 1
  | .float64 => .float 1
  | .text => .text ⟨[0], by decide⟩
  | .binary => .binary [0]
  | .bool => .bool true

variable {f : Nat → UInt8} {n : Nat}

theorem readWord_bytesOf (long : 8 ≤ n) : readWord (bytesOf f n) = some (UInt64.ofNat (ofLe (bytesOf f 8))) := by
  rw [readWord, if_neg (by rw [length_bytesOf]; omega), bytesOf_take, Nat.min_eq_left long]

theorem readWord_short (short : n < 8) : readWord (bytesOf f n) = none := by
  rw [readWord, if_pos (by rwa [length_bytesOf])]

theorem readBlock_bytesOf (long : 4 + ofLe (bytesOf f 4) ≤ n) :
    readBlock (bytesOf f n) = some (bytesOf (fun i => f (4 + i)) (ofLe (bytesOf f 4))) := by
  have four : 4 ≤ n := by omega
  unfold readBlock
  rw [if_neg (by rw [length_bytesOf]; omega), bytesOf_take, Nat.min_eq_left four]
  rw [if_neg (by rw [length_bytesOf]; omega), bytesOf_drop, bytesOf_take, Nat.min_eq_left (by omega)]

theorem readBlock_empty (zeros : ∀ i < 4, f i = 0) {block : Bytes} (read : readBlock (bytesOf f n) = some block) :
    block = [] := by
  by_cases long : 4 ≤ n
  · have none_left := ofLe_zeros zeros
    rw [readBlock_bytesOf (by omega), none_left] at read
    exact (Option.some.inj read).symm
  · unfold readBlock at read
    rw [if_pos (by rw [length_bytesOf]; omega)] at read
    cases read

variable (colType : ColumnType)

theorem readValue_zeros (zeros : ∀ i < 8, f i = 0) :
    readValue (bytesOf f n) (packedType colType) ≠ oneOf colType := by
  have word : ∀ w, readWord (bytesOf f n) = some w → w = 0 := by
    intro w read
    by_cases long : 8 ≤ n
    · rw [readWord_bytesOf long, ofLe_zeros zeros] at read
      exact (Option.some.inj read).symm
    · rw [readWord_short (by omega)] at read
      cases read
  have block : ∀ b, readBlock (bytesOf f n) = some b → b = [] :=
    fun b read => readBlock_empty (fun i inside => zeros i (by omega)) read
  cases colType with
  | bool =>
    cases n with
    | zero => simp [packedType, readValue, bytesOf, oneOf]
    | succ n => simp [packedType, readValue, bytesOf_succ, zeros 0 (by omega), oneOf]
  | int64 | uint64 | float64 =>
    cases read : readWord (bytesOf f n) with
    | none => simp [packedType, readValue, read, oneOf]
    | some w => simp [packedType, readValue, read, oneOf, word w read]
  | text =>
    cases read : readBlock (bytesOf f n) with
    | none => simp [packedType, readValue, read, oneOf]
    | some b =>
      have text : Str.fromUtf8 [] = some ⟨[], rfl⟩ := rfl
      have longer : (⟨[], rfl⟩ : Str) ≠ ⟨[0], by decide⟩ := by decide
      simp [packedType, readValue, read, block b read, text, oneOf, longer]
  | binary =>
    cases read : readBlock (bytesOf f n) with
    | none => simp [packedType, readValue, read, oneOf]
    | some b => simp [packedType, readValue, read, block b read, oneOf]

theorem readValue_zeros_ne_null (zeros : ∀ i < 8, f i = 0) (long : 8 ≤ n) :
    readValue (bytesOf f n) (packedType colType) ≠ .null := by
  have word := readWord_bytesOf (f := f) long
  have block : readBlock (bytesOf f n) = some [] := by
    have none_left := ofLe_zeros (f := f) (n := 4) fun i inside => zeros i (by omega)
    rw [readBlock_bytesOf (by omega), none_left]
    rfl
  cases colType with
  | bool =>
    obtain ⟨n, rfl⟩ : ∃ k, n = k + 1 := ⟨n - 1, by omega⟩
    simp [packedType, readValue, bytesOf_succ]
  | int64 | uint64 | float64 => simp [packedType, readValue, word]
  | text =>
    have text : Str.fromUtf8 [] = some ⟨[], rfl⟩ := rfl
    simp [packedType, readValue, block, text]
  | binary => simp [packedType, readValue, block]

theorem readValue_one (first : f 0 = 1) (zeros : ∀ i, 0 < i → i < 12 → f i = 0) (long : 12 ≤ n) :
    readValue (bytesOf f n) (packedType colType) = oneOf colType := by
  have word : readWord (bytesOf f n) = some 1 := by
    rw [readWord_bytesOf (by omega), ofLe_first fun i later inside => zeros i later (by omega), first]
    rfl
  have block : readBlock (bytesOf f n) = some [0] := by
    have one_left : ofLe (bytesOf f 4) = 1 := by
      rw [ofLe_first fun i later inside => zeros i later (by omega), first]
      rfl
    rw [readBlock_bytesOf (by omega), one_left]
    simp [bytesOf, zeros 4 (by omega) (by omega)]
  cases colType with
  | bool =>
    obtain ⟨n, rfl⟩ : ∃ k, n = k + 1 := ⟨n - 1, by omega⟩
    simp [packedType, readValue, bytesOf_succ, first, oneOf]
  | int64 | uint64 | float64 => simp [packedType, readValue, word, oneOf]
  | text =>
    have text : Str.fromUtf8 [0] = some ⟨[0], by decide⟩ := rfl
    simp [packedType, readValue, block, text, oneOf]
  | binary => simp [packedType, readValue, block, oneOf]

end Values

section Columns
variable {f : Nat → UInt8} {n k idx : Nat}

/-- How many columns of a table with `k` columns can be read: their number is kept in sixteen
    bits. -/
def readable (k : Nat) : Nat := k % 65536

def base (k : Nat) : Nat := nullBitmapSize k + readable k * 4

def minSize (k : Nat) : Nat := nullBitmapSize k + k * 4

def rowAs (k : Nat) (data : Bytes) : PackedRow := ⟨data, UInt16.ofNat k, nullBitmapSize k⟩

theorem numCols_toNat (k : Nat) : (UInt16.ofNat k).toNat = readable k := UInt16.toNat_ofNat'

theorem fromBytes_eq (data : Bytes) (k : Nat) : (PackedRow.fromBytes data k).toOption =
    if minSize k ≤ data.length then some (rowAs k data) else none := by
  have size : nullBitmapSize k + k * 4 = minSize k := rfl
  unfold PackedRow.fromBytes
  rw [size]
  by_cases long : minSize k ≤ data.length
  · rw [if_neg (Nat.not_lt.mpr long), if_pos long]
    rfl
  · rw [if_pos (Nat.lt_of_not_le long), if_neg long]
    rfl

theorem getColumn_past (data : Bytes) (past : readable k ≤ idx) (colType : PackedColumnType) :
    (rowAs k data).getColumn idx colType = none := by
  unfold PackedRow.getColumn
  rw [if_pos]
  rw [rowAs, numCols_toNat]
  exact past

theorem getColumn_null {data : Bytes} (inside : idx < readable k) (set : testBit data idx = true)
    (colType : PackedColumnType) : (rowAs k data).getColumn idx colType = some .null := by
  unfold PackedRow.getColumn
  rw [if_neg]
  · exact if_pos set
  · rw [rowAs, numCols_toNat]
    omega

theorem getColumn_read (inside : idx < readable k) (clear : testBit (bytesOf f n) idx = false)
    {offset : Nat} (points : ofLe (bytesOf (fun i => f (nullBitmapSize k + idx * 4 + i))
      (min 4 (n - (nullBitmapSize k + idx * 4)))) = offset)
    (colType : PackedColumnType) :
    (rowAs k (bytesOf f n)).getColumn idx colType = some (if n ≤ base k + offset then .null
      else readValue (bytesOf (fun i => f (base k + offset + i)) (n - (base k + offset))) colType) := by
  have place : ofLe (((bytesOf f n).drop (nullBitmapSize k + idx * 4)).take 4) = offset := by
    rw [bytesOf_drop, bytesOf_take, points]
  unfold PackedRow.getColumn
  dsimp only [rowAs]
  simp only [numCols_toNat]
  rw [if_neg (by omega), if_neg (by rw [clear]; decide), place, length_bytesOf]
  change (if base k + offset ≥ n then some SochValue.null else
    some (readValue ((bytesOf f n).drop (base k + offset)) colType)) = _
  rw [bytesOf_drop]
  split <;> rfl

theorem testBit_zero (quiet : f (idx / 8) = 0) : testBit (bytesOf f n) idx = false := by
  have byte : (bytesOf f n).getD (idx / 8) 0 = 0 := by
    by_cases inside : idx / 8 < n
    · rw [getD_bytesOf inside, quiet]
    · rw [List.getD_eq_default _ _ (by rw [length_bytesOf]; omega)]
  unfold testBit
  rw [byte]
  simp

def bitByte (i : Nat) : UInt8 := 1 <<< UInt8.ofNat (i % 8)

theorem bitByte_and {i j : Nat} : (bitByte i &&& bitByte j != 0) = decide (i % 8 = j % 8) := by
  unfold bitByte
  have small : i % 8 < 8 := Nat.mod_lt _ (by omega)
  have alsoSmall : j % 8 < 8 := Nat.mod_lt _ (by omega)
  generalize i % 8 = a at small
  generalize j % 8 = b at alsoSmall
  interval_cases a <;> interval_cases b <;> rfl

def withNull (column : Nat) (i : Nat) : UInt8 := if i = column / 8 then bitByte column else 0

theorem testBit_withNull {column : Nat} (inside : column / 8 < n) :
    testBit (bytesOf (withNull column) n) idx = decide (idx = column) := by
  by_cases sameByte : idx / 8 = column / 8
  · have byte : (bytesOf (withNull column) n).getD (idx / 8) 0 = bitByte column := by
      rw [sameByte, getD_bytesOf inside, withNull, if_pos rfl]
    unfold testBit
    rw [byte]
    change (bitByte column &&& bitByte idx != 0) = _
    rw [bitByte_and]
    apply decide_eq_decide.mpr
    omega
  · rw [testBit_zero (if_neg sameByte)]
    have other : idx ≠ column := by
      rintro rfl
      exact sameByte rfl
    exact (decide_eq_false other).symm

theorem bitmap_holds (inside : idx < k) : idx / 8 < nullBitmapSize k := by
  unfold nullBitmapSize
  omega

theorem readable_le (k : Nat) : readable k ≤ k := Nat.mod_le k 65536

theorem getColumn_zeros (inside : idx < readable k) (clear : testBit (bytesOf f n) idx = false)
    (zeros : ∀ i, nullBitmapSize k ≤ i → f i = 0) (long : base k + 8 ≤ n) (colType : ColumnType) :
    ∃ value, (rowAs k (bytesOf f n)).getColumn idx (packedType colType) = some value ∧ value ≠ .null := by
  have points : ofLe (bytesOf (fun i => f (nullBitmapSize k + idx * 4 + i))
      (min 4 (n - (nullBitmapSize k + idx * 4)))) = 0 := ofLe_zeros fun i _ => zeros _ (by omega)
  refine ⟨_, getColumn_read inside clear points (packedType colType), ?_⟩
  rw [if_neg (by omega)]
  apply readValue_zeros_ne_null colType
  · intro i _
    apply zeros
    unfold base
    omega
  · omega

theorem nullBitmapSize_pos (some_column : 0 < readable k) : 0 < nullBitmapSize k := by
  have := readable_le k
  unfold nullBitmapSize
  omega

theorem first_column_reads_one (some_column : 0 < readable k) {offset : Nat} (first : f 0 = 0)
    (points : f (nullBitmapSize k) = UInt8.ofNat offset) (small : offset < 256)
    (table : ∀ i, 0 < i → i < 4 → f (nullBitmapSize k + i) = 0) (one : f (base k + offset) = 1)
    (zeros : ∀ i, 0 < i → i < 12 → f (base k + offset + i) = 0) (long : base k + offset + 12 ≤ n)
    (colType : ColumnType) :
    (rowAs k (bytesOf f n)).getColumn 0 (packedType colType) = some (oneOf colType) := by
  have size : nullBitmapSize k + 4 ≤ base k := by
    unfold base
    omega
  have whole : min 4 (n - (nullBitmapSize k + 0 * 4)) = 3 + 1 := by omega
  have offset_eq : ofLe (bytesOf (fun i => f (nullBitmapSize k + 0 * 4 + i))
      (min 4 (n - (nullBitmapSize k + 0 * 4)))) = offset := by
    rw [whole, ofLe_first]
    · simp only [Nat.zero_mul, Nat.add_zero, points]
      exact UInt8.toNat_ofNat_of_lt' small
    · intro i later inside
      simpa using table i later (by omega)
  rw [getColumn_read some_column (testBit_zero first) offset_eq, if_neg (by omega)]
  apply congrArg some
  apply readValue_one colType
  · exact one
  · exact zeros
  · omega

theorem first_column_reads_zeros (some_column : 0 < readable k) (first : f 0 = 0) {offset : Nat}
    (points : ofLe (bytesOf (fun i => f (nullBitmapSize k + i)) (min 4 (n - nullBitmapSize k))) = offset)
    (zeros : ∀ i < 8, f (base k + offset + i) = 0) (colType : ColumnType) :
    ∃ value, (rowAs k (bytesOf f n)).getColumn 0 (packedType colType) = some value ∧
      value ≠ oneOf colType := by
  have offset_eq : ofLe (bytesOf (fun i => f (nullBitmapSize k + 0 * 4 + i))
      (min 4 (n - (nullBitmapSize k + 0 * 4)))) = offset := by
    simpa only [Nat.zero_mul, Nat.add_zero] using points
  refine ⟨_, getColumn_read some_column (testBit_zero first) offset_eq _, ?_⟩
  split
  · cases colType <;> exact fun same => by cases same
  · exact readValue_zeros colType zeros

theorem layouts_differ_ordered {x y : Nat} (someX : 0 < readable x) (someY : 0 < readable y)
    (ordered : base x < base y ∨ base x = base y ∧ nullBitmapSize x < nullBitmapSize y)
    (colType : ColumnType) (least : Nat) :
    ∃ data, least ≤ data.length ∧
      (rowAs x data).getColumn 0 (packedType colType) = some (oneOf colType) ∧
      ∃ value, (rowAs y data).getColumn 0 (packedType colType) = some value ∧ value ≠ oneOf colType := by
  have posX := nullBitmapSize_pos someX
  have posY := nullBitmapSize_pos someY
  have sizeX : nullBitmapSize x + 4 ≤ base x := by
    unfold base
    omega
  have sizeY : nullBitmapSize y + 4 ≤ base y := by
    unfold base
    omega
  rcases ordered with earlier | ⟨same, earlier⟩
  · let f : Nat → UInt8 := fun i => if i = base x then 1 else 0
    have quiet : ∀ {i}, i ≠ base x → f i = 0 := fun other => if_neg other
    refine ⟨bytesOf f (least + base x + 12), by rw [length_bytesOf]; omega, ?_, ?_⟩
    · apply @first_column_reads_one f _ x someX 0 (quiet (by omega)) (quiet (by omega)) (by omega)
      · exact fun i _ _ => quiet (by omega)
      · exact if_pos rfl
      · exact fun i _ _ => quiet (by omega)
      · omega
    · apply first_column_reads_zeros someY (quiet (by omega)) rfl
      exact fun i _ => quiet (by omega)
  · let f : Nat → UInt8 := fun i => if i = nullBitmapSize x then 9 else if i = base x + 9 then 1 else 0
    have quiet : ∀ {i}, i ≠ nullBitmapSize x → i ≠ base x + 9 → f i = 0 := by
      intro i notOffset notValue
      exact (if_neg notOffset).trans (if_neg notValue)
    refine ⟨bytesOf f (least + base x + 21), by rw [length_bytesOf]; omega, ?_, ?_⟩
    · apply @first_column_reads_one f _ x someX 9 (quiet (by omega) (by omega)) (if_pos rfl) (by omega)
      · exact fun i _ _ => quiet (by omega) (by omega)
      · exact (if_neg (by omega)).trans (if_pos rfl)
      · exact fun i _ _ => quiet (by omega) (by omega)
      · omega
    · have none_there : ofLe (bytesOf (fun i => f (nullBitmapSize y + i))
          (min 4 (least + base x + 21 - nullBitmapSize y))) = 0 := by
        apply ofLe_zeros
        exact fun i _ => quiet (by omega) (by omega)
      apply first_column_reads_zeros someY (quiet (by omega) (by omega)) none_there
      exact fun i _ => quiet (by omega) (by omega)

theorem layouts_differ {x y : Nat} (someX : 0 < readable x) (someY : 0 < readable y) (differ : x ≠ y)
    (colType : ColumnType) (least : Nat) :
    ∃ data, least ≤ data.length ∧ ((rowAs x data).getColumn 0 (packedType colType)).getD .null ≠
      ((rowAs y data).getColumn 0 (packedType colType)).getD .null := by
  have apart : base x ≠ base y ∨ nullBitmapSize x ≠ nullBitmapSize y := by
    by_contra both
    rw [not_or, not_not, not_not] at both
    unfold base readable nullBitmapSize at both
    omega
  have ordered : (base x < base y ∨ base x = base y ∧ nullBitmapSize x < nullBitmapSize y) ∨
      (base y < base x ∨ base y = base x ∧ nullBitmapSize y < nullBitmapSize x) := by omega
  rcases ordered with forward | backward
  · obtain ⟨data, long, one, value, read, other⟩ := layouts_differ_ordered someX someY forward colType least
    refine ⟨data, long, ?_⟩
    rw [one, read]
    exact other.symm
  · obtain ⟨data, long, one, value, read, other⟩ := layouts_differ_ordered someY someX backward colType least
    refine ⟨data, long, ?_⟩
    rw [one, read]
    exact other

end Columns
end RowLayouts
