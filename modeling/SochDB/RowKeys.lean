import SochDB.Library.Utf8
import SochDB.WalRecords

/-!
The keys of table rows. A row key is the table name cut to 43 bytes, a slash and the row
id in decimal digits, all in a buffer of 63 bytes; readers split a key at its slashes and
parse the id again.
-/
namespace RowKeys
open Utf8 WalRecords List

def maxKeyLength : Nat := 63

def slash : UInt8 := 47

def digitByte (d : Nat) : UInt8 := UInt8.ofNat (48 + d)

def decimal (n : Nat) : Bytes :=
  if n = 0 then [48] else (Nat.digits 10 n).reverse.map digitByte

namespace KeyBuffer

/-- Digits that do not fit are dropped without notice. -/
def writeU64 (buf : Bytes) (value : UInt64) : Bytes :=
  if buf.length + (decimal value.toNat).length > maxKeyLength then buf
  else buf ++ decimal value.toNat

def formatRowKey (table : Str) (rowId : UInt64) : Bytes :=
  writeU64 (table.bytes.take (maxKeyLength - 20) ++ [slash]) rowId

end KeyBuffer

/-- `path.split('/')`. -/
def parts (path : Bytes) : List Bytes := path.splitOn slash

/-- One digit of `parse::<u64>`, which fails on overflow. -/
def parseDigit (value : Nat) (b : UInt8) : Option Nat :=
  if 48 ≤ b ∧ b ≤ 57 then
    let next := value * 10 + (b.toNat - 48)
    if next < 2 ^ 64 then some next else none
  else none

def parseU64 (s : Bytes) : Option UInt64 :=
  let digits := match s with
    | 43 :: rest => rest
    | s => s
  if digits.isEmpty then none else (digits.foldlM parseDigit 0).map UInt64.ofNat

theorem decimal_length_le (value : UInt64) : (decimal value.toNat).length ≤ 20 := by
  have small : value.toNat < 10 ^ 20 := by
    have := value.toNat_lt
    omega
  unfold decimal
  split
  · simp
  · rw [length_map, length_reverse]
    exact (Nat.digits_length_le_iff (by omega) value.toNat).mpr small

theorem parts_append (before after : Bytes) :
    parts (before ++ slash :: after) = parts before ++ parts after :=
  splitOn_append_cons_self before after

theorem parts_plain {path : Bytes} (plain : slash ∉ path) : parts path = [path] :=
  splitOn_eq_singleton plain

theorem decimal_digit {n : Nat} {b : UInt8} (member : b ∈ decimal n) : 48 ≤ b ∧ b ≤ 57 := by
  unfold decimal at member
  split at member
  · rw [mem_singleton] at member
    subst member
    decide
  · obtain ⟨d, digit, rfl⟩ := mem_map.mp member
    have small : d < 10 := Nat.digits_lt_base (by omega) (mem_reverse.mp digit)
    interval_cases d <;> decide

theorem decimal_ne_nil (n : Nat) : decimal n ≠ [] := by
  unfold decimal
  split
  · simp
  · rename_i positive
    simp [Nat.digits_eq_nil_iff_eq_zero, positive]

theorem slash_not_mem_decimal (n : Nat) : slash ∉ decimal n := by
  intro member
  have := (decimal_digit member).1
  revert this
  decide

theorem parseDigit_digitByte {value d : Nat} (digit : d < 10) (fits : value * 10 + d < 2 ^ 64) :
    parseDigit value (digitByte d) = some (value * 10 + d) := by
  have byte : (digitByte d).toNat - 48 = d ∧ 48 ≤ digitByte d ∧ digitByte d ≤ 57 := by
    interval_cases d <;> decide
  rw [parseDigit, if_pos byte.2, byte.1, if_pos fits]

/-- Reading the digits of a number from the most significant one on gives it back. -/
theorem parse_digits (digits : List Nat) (small : ∀ d ∈ digits, d < 10)
    (fits : Nat.ofDigits 10 digits < 2 ^ 64) :
    (digits.reverse.map digitByte).foldlM parseDigit 0 = some (Nat.ofDigits 10 digits) := by
  induction digits with
  | nil => rfl
  | cons d digits ih =>
    have value : Nat.ofDigits 10 (d :: digits) = Nat.ofDigits 10 digits * 10 + d := by
      rw [Nat.ofDigits_cons]
      omega
    rw [value] at fits ⊢
    have earlier := ih (fun e member => small e (mem_cons_of_mem d member)) (by omega)
    rw [reverse_cons, map_append, foldlM_append, earlier]
    have last := parseDigit_digitByte (small d mem_cons_self) fits
    simp [last]

theorem parseU64_decimal (rowId : UInt64) : parseU64 (decimal rowId.toNat) = some rowId := by
  have unsigned : ∀ rest, decimal rowId.toNat ≠ 43 :: rest := by
    intro rest starts
    have digit := decimal_digit (b := 43) (by rw [starts]; exact mem_cons_self)
    revert digit
    decide
  have digits : parseU64 (decimal rowId.toNat) =
      ((decimal rowId.toNat).foldlM parseDigit 0).map UInt64.ofNat := by
    unfold parseU64
    split
    · rename_i rest starts
      exact absurd starts (unsigned rest)
    · rw [if_neg (by simpa using decimal_ne_nil rowId.toNat)]
  have parsed : (decimal rowId.toNat).foldlM parseDigit 0 = some rowId.toNat := by
    unfold decimal
    split
    · rename_i zero
      rw [zero]
      decide
    · have read := parse_digits (Nat.digits 10 rowId.toNat)
        (fun d member => Nat.digits_lt_base (by omega) member)
      rw [Nat.ofDigits_digits] at read
      exact read rowId.toNat_lt
  rw [digits, parsed]
  simp

theorem decimal_injective {a b : UInt64} (same : decimal a.toNat = decimal b.toNat) : a = b := by
  have parsed := parseU64_decimal a
  rw [same, parseU64_decimal b] at parsed
  exact (Option.some.inj parsed).symm

end RowKeys
