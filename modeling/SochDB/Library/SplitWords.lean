import Mathlib

/-!
Words of 64 bits in two parts, 48 upper and 16 lower ones, read as numbers. Shifting a
number into the upper part loses what does not fit there.
-/
namespace SplitWords

theorem toNat_upper (w : UInt64) : (w >>> 16).toNat = w.toNat / 65536 := by
  rw [UInt64.toNat_shiftRight]
  exact Nat.shiftRight_eq_div_pow w.toNat 16

theorem toNat_lower (w : UInt64) : (w &&& 0xFFFF).toNat = w.toNat % 65536 :=
  Nat.and_two_pow_sub_one_eq_mod w.toNat 16

theorem toNat_shifted (w : UInt64) : (w <<< 16).toNat = w.toNat % 2 ^ 48 * 65536 := by
  rw [UInt64.toNat_shiftLeft]
  change w.toNat <<< 16 % 2 ^ 64 = _
  rw [Nat.shiftLeft_eq]
  omega

theorem toNat_joined {upper lower : UInt64} (aligned : upper.toNat % 65536 = 0)
    (small : lower.toNat < 65536) : (upper ||| lower).toNat = upper.toNat + lower.toNat := by
  obtain ⟨part, whole⟩ := Nat.dvd_of_mod_eq_zero aligned
  rw [UInt64.toNat_or, whole]
  exact (Nat.two_pow_add_eq_or_of_lt (i := 16) small part).symm

theorem toNat_packed (phys : UInt64) {log : UInt64} (small : log.toNat < 65536) :
    (phys <<< 16 ||| log).toNat = phys.toNat % 2 ^ 48 * 65536 + log.toNat := by
  rw [toNat_joined (by rw [toNat_shifted]; omega) small, toNat_shifted]

theorem upper_kept (w : UInt64) : w &&& ~~~(0xFFFF : UInt64) = (w >>> 16) <<< 16 := by
  apply UInt64.eq_of_toBitVec_eq
  change w.toBitVec &&& ~~~0xFFFF#64 = (w.toBitVec >>> 16) <<< 16
  rw [BitVec.shiftLeft_ushiftRight]
  rfl

theorem toNat_succ {w : UInt64} (room : w.toNat + 1 < 2 ^ 64) : (w + 1).toNat = w.toNat + 1 := by
  rw [UInt64.toNat_add, UInt64.toNat_one]
  exact Nat.mod_eq_of_lt room

end SplitWords
