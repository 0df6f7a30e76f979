import SochDB.RowKeys

/-!
Which table names give every row a key of its own. A name is cut to 43 bytes in a row key
and to 30 bytes in an interned table start, and after 43 bytes of name there is no room
for an id of 20 digits.
-/
namespace RowKeyUniqueness
open Utf8 WalRecords RowKeys KeyBuffer List

structure InternedTablePrefix where
  bytes : Bytes
  deriving DecidableEq, Repr

namespace InternedTablePrefix

def new (table : Str) : InternedTablePrefix := ⟨table.bytes.take 30 ++ [slash]⟩

def makeRowKey (interned : InternedTablePrefix) (rowId : UInt64) : Bytes :=
  writeU64 interned.bytes rowId

end InternedTablePrefix

def Unambiguous (tables : Set Str) : Prop :=
  ∀ t₁ ∈ tables, ∀ t₂ ∈ tables, ∀ r₁ r₂,
    formatRowKey t₁ r₁ = formatRowKey t₂ r₂ → t₁ = t₂ ∧ r₁ = r₂

/-- The prepared names of these tables give the keys that the names themselves give. -/
def InternedAlike (tables : Set Str) : Prop :=
  ∀ t ∈ tables, ∀ r, (InternedTablePrefix.new t).makeRowKey r = formatRowKey t r

theorem decimal_length_of_large {value : UInt64} (large : 10 ^ 19 ≤ value.toNat) :
    (decimal value.toNat).length = 20 := by
  have digits : 19 < (Nat.digits 10 value.toNat).length :=
    (Nat.lt_digits_length_iff (by omega) value.toNat).mpr large
  have most := decimal_length_le value
  unfold decimal at most ⊢
  rw [if_neg (by omega), length_map, length_reverse] at most ⊢
  omega

theorem writeU64_of_room {buf : Bytes} (room : buf.length ≤ 43) (value : UInt64) :
    writeU64 buf value = buf ++ decimal value.toNat := by
  have digits := decimal_length_le value
  apply if_neg
  unfold maxKeyLength
  omega

theorem writeU64_of_full {buf : Bytes} (full : buf.length = 44) {value : UInt64}
    (large : 10 ^ 19 ≤ value.toNat) : writeU64 buf value = buf := by
  have digits := decimal_length_of_large large
  apply if_pos
  unfold maxKeyLength
  omega

theorem formatRowKey_of_short {table : Str} (short : table.bytes.length ≤ 42) (rowId : UInt64) :
    formatRowKey table rowId = table.bytes ++ slash :: decimal rowId.toNat := by
  have whole : table.bytes.take (maxKeyLength - 20) = table.bytes := by
    apply take_of_length_le
    unfold maxKeyLength
    omega
  unfold formatRowKey
  have room : (table.bytes ++ [slash]).length ≤ 43 := by
    rw [length_append, length_singleton]
    omega
  rw [whole, writeU64_of_room room, append_assoc]
  rfl

theorem name_and_digits {name₁ name₂ digits₁ digits₂ : Bytes} (plain₁ : slash ∉ digits₁)
    (plain₂ : slash ∉ digits₂) (same : name₁ ++ slash :: digits₁ = name₂ ++ slash :: digits₂) :
    name₁ = name₂ ∧ digits₁ = digits₂ := by
  have split := congrArg parts same
  rw [parts_append, parts_append, parts_plain plain₁, parts_plain plain₂] at split
  have digits : digits₁ = digits₂ := by simpa using (append_inj' split rfl).2
  rw [digits] at same
  exact ⟨append_cancel_right same, digits⟩

variable {tables : Set Str}

theorem unambiguous_of_short (short : ∀ t ∈ tables, t.bytes.length ≤ 42) : Unambiguous tables := by
  intro t₁ member₁ t₂ member₂ r₁ r₂ same
  rw [formatRowKey_of_short (short t₁ member₁), formatRowKey_of_short (short t₂ member₂)] at same
  obtain ⟨names, digits⟩ := name_and_digits (slash_not_mem_decimal r₁.toNat)
    (slash_not_mem_decimal r₂.toNat) same
  exact ⟨Str.ext_bytes names, decimal_injective digits⟩

/-- After a long name the digits of two different ids of 20 digits are both dropped. -/
theorem long_name_loses_ids {table : Str} (long : 43 ≤ table.bytes.length) (rowId : UInt64)
    (large : 10 ^ 19 ≤ rowId.toNat) :
    formatRowKey table rowId = table.bytes.take 43 ++ [slash] := by
  have full : (table.bytes.take 43 ++ [slash]).length = 44 := by
    simp [Nat.min_eq_left long]
  exact writeU64_of_full full large

theorem short_of_unambiguous (unambiguous : Unambiguous tables) :
    ∀ t ∈ tables, t.bytes.length ≤ 42 := by
  intro t member
  by_contra short
  have long : 43 ≤ t.bytes.length := by omega
  have first := long_name_loses_ids long 10000000000000000000 (by decide)
  have second := long_name_loses_ids long 10000000000000000001 (by decide)
  have same := (unambiguous t member t member _ _ (first.trans second.symm)).2
  revert same
  decide

theorem makeRowKey_eq (table : Str) (rowId : UInt64) :
    (InternedTablePrefix.new table).makeRowKey rowId =
      table.bytes.take 30 ++ slash :: decimal rowId.toNat := by
  have room : (table.bytes.take 30 ++ [slash]).length ≤ 43 := by
    simp only [length_append, length_take, length_singleton]
    omega
  exact (writeU64_of_room room rowId).trans (append_assoc _ _ _)

theorem internedAlike_of_short (short : ∀ t ∈ tables, t.bytes.length ≤ 30) : InternedAlike tables := by
  intro t member r
  have length := short t member
  rw [makeRowKey_eq, formatRowKey_of_short (by omega), take_of_length_le length]

/-- Cut at 30 bytes, a longer name leaves the slash of row 0 in another place. -/
theorem short_of_internedAlike (alike : InternedAlike tables) :
    ∀ t ∈ tables, t.bytes.length ≤ 30 := by
  intro t member
  by_contra long
  have lengths := congrArg List.length (alike t member 0)
  have interned : ((InternedTablePrefix.new t).makeRowKey 0).length = 32 := by
    rw [makeRowKey_eq]
    simp only [length_append, length_take, length_cons]
    have one : (decimal (0 : UInt64).toNat).length = 1 := rfl
    omega
  have formatted : (formatRowKey t 0).length = min 43 t.bytes.length + 2 := by
    have zero : decimal (0 : UInt64).toNat = [48] := rfl
    unfold formatRowKey writeU64 maxKeyLength
    rw [zero, if_neg (by simp only [length_append, length_take,
      length_singleton]; omega)]
    simp only [length_append, length_take, length_singleton]
  omega

/-- Row keys tell all rows of some tables apart exactly when every name has at most 42
    bytes, and the prepared names give the same keys exactly when every name has at
    most 30. -/
theorem row_keys_unambiguous_iff (tables : Set Str) :
    (Unambiguous tables ↔ ∀ t ∈ tables, t.bytes.length ≤ 42) ∧
      (InternedAlike tables ↔ ∀ t ∈ tables, t.bytes.length ≤ 30) := by
  constructor
  · exact ⟨short_of_unambiguous, unambiguous_of_short⟩
  · exact ⟨short_of_internedAlike, internedAlike_of_short⟩

theorem long_names_share_keys :
    let name : Str := ⟨List.replicate 43 97, by decide +kernel⟩
    let longer : Str := ⟨List.replicate 44 97, by decide +kernel⟩
    formatRowKey name 10000000000000000000 = formatRowKey name 10000000000000000001 ∧
      formatRowKey name 1 = formatRowKey longer 1 ∧ name ≠ longer ∧
      (InternedTablePrefix.new name).makeRowKey 1 ≠ formatRowKey name 1 := by
  decide +kernel

end RowKeyUniqueness
