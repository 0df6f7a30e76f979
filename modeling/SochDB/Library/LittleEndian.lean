import Mathlib

/-!
Fixed-width little-endian words over byte lists. Writing a value keeps its low
bytes only; reading is defined on every list of bytes. The two are inverse on
values that fit the width.
-/
abbrev Bytes := List UInt8

def copyFromSlice (store : Bytes) (start : Nat) (bytes : Bytes) : Bytes :=
  store.take start ++ (bytes ++ store.drop (start + bytes.length))

namespace LittleEndian

def leBytes : Nat → Nat → List UInt8
  | 0, _ => []
  | w + 1, n => UInt8.ofNat n :: leBytes w (n / 256)

def ofLe : List UInt8 → Nat
  | [] => 0
  | b :: bs => b.toNat + 256 * ofLe bs

@[simp] theorem leBytes_length (w n : Nat) : (leBytes w n).length = w := by
  induction w generalizing n with
  | zero => rfl
  | succ w ih => simp [leBytes, ih]

theorem ofLe_lt (bytes : List UInt8) : ofLe bytes < 256 ^ bytes.length := by
  induction bytes with
  | nil => exact Nat.one_pos
  | cons b bytes ih =>
    have byte : b.toNat < 256 := b.toNat_lt
    rw [ofLe, List.length_cons, Nat.pow_succ]
    omega

theorem ofLe_leBytes_mod (w n : Nat) : ofLe (leBytes w n) = n % 256 ^ w := by
  induction w generalizing n with
  | zero => simp [leBytes, ofLe, Nat.mod_one]
  | succ w ih =>
    have low : (UInt8.ofNat n).toNat = n % 256 := rfl
    rw [leBytes, ofLe, ih, low, Nat.pow_succ, Nat.mul_comm (256 ^ w), Nat.mod_mul]

theorem ofLe_leBytes {w n : Nat} (fits : n < 256 ^ w) : ofLe (leBytes w n) = n := by
  rw [ofLe_leBytes_mod, Nat.mod_eq_of_lt fits]

theorem leBytes_injective {w n m : Nat} (small : n < 256 ^ w) (also : m < 256 ^ w)
    (same : leBytes w n = leBytes w m) : n = m := by
  rw [← ofLe_leBytes small, ← ofLe_leBytes also, same]

end LittleEndian
