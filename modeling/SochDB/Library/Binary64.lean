import Mathlib

/-!
The 64-bit floating-point number nearest to an integer, ties to even, as the magnitude of
its bit pattern. Magnitudes of non-negative numbers are ordered as the numbers are.
-/
namespace Binary64

/-- `n / 2 ^ s` to the nearest integer, ties to even. -/
def roundShift (n s : Nat) : Nat :=
  let q := n / 2 ^ s
  let r := n % 2 ^ s
  if 2 ^ s < 2 * r ∨ 2 * r = 2 ^ s ∧ q % 2 = 1 then q + 1 else q

/-- The leading 53 bits. -/
def significand (n : Nat) : Nat :=
  if n.log2 ≤ 52 then n * 2 ^ (52 - n.log2) else roundShift n (n.log2 - 52)

/-- A significand that was rounded up to 54 bits carries into the exponent. -/
def magnitudeOf (n : Nat) : Nat := if n = 0 then 0 else (n.log2 + 1022) * 2 ^ 52 + significand n

theorem roundShift_bounds (n s : Nat) : n / 2 ^ s ≤ roundShift n s ∧ roundShift n s ≤ n / 2 ^ s + 1 := by
  unfold roundShift
  dsimp only
  split <;> omega

variable {m n : Nat}

theorem roundShift_mono (s : Nat) (le : m ≤ n) : roundShift m s ≤ roundShift n s := by
  have quotients : m / 2 ^ s ≤ n / 2 ^ s := Nat.div_le_div_right le
  rcases Nat.lt_or_eq_of_le quotients with less | same
  · have below := (roundShift_bounds m s).2
    have above := (roundShift_bounds n s).1
    omega
  · have first := Nat.div_add_mod m (2 ^ s)
    have second := Nat.div_add_mod n (2 ^ s)
    have remainders : m % 2 ^ s ≤ n % 2 ^ s := by
      rw [same] at first
      omega
    unfold roundShift
    dsimp only
    rw [same]
    split <;> split <;> omega

theorem significand_bounds (positive : n ≠ 0) : 2 ^ 52 ≤ significand n ∧ significand n ≤ 2 ^ 53 := by
  have low := Nat.log2_self_le positive
  have high := Nat.lt_log2_self (n := n)
  unfold significand
  by_cases small : n.log2 ≤ 52
  · rw [if_pos small]
    have split_low : 2 ^ n.log2 * 2 ^ (52 - n.log2) = 2 ^ 52 := by
      rw [← Nat.pow_add, Nat.add_sub_cancel' small]
    have split_high : 2 ^ (n.log2 + 1) * 2 ^ (52 - n.log2) = 2 ^ 53 := by
      rw [← Nat.pow_add]
      congr 1
      omega
    constructor
    · rw [← split_low]
      exact Nat.mul_le_mul_right _ low
    · rw [← split_high]
      exact Nat.mul_le_mul_right _ high.le
  · rw [if_neg small]
    have bounds := roundShift_bounds n (n.log2 - 52)
    have quotient_low : 2 ^ 52 ≤ n / 2 ^ (n.log2 - 52) := by
      rw [Nat.le_div_iff_mul_le (Nat.two_pow_pos _), ← Nat.pow_add, Nat.add_sub_cancel' (by omega)]
      exact low
    have quotient_high : n / 2 ^ (n.log2 - 52) < 2 ^ 53 := by
      rw [Nat.div_lt_iff_lt_mul (Nat.two_pow_pos _), ← Nat.pow_add]
      have exponent : 53 + (n.log2 - 52) = n.log2 + 1 := by omega
      rw [exponent]
      exact high
    omega

theorem significand_mono (same : m.log2 = n.log2) (le : m ≤ n) : significand m ≤ significand n := by
  unfold significand
  rw [same]
  split
  · exact Nat.mul_le_mul_right _ le
  · exact roundShift_mono _ le

theorem log2_mono (le : m ≤ n) : m.log2 ≤ n.log2 := by
  rw [Nat.log2_eq_log_two, Nat.log2_eq_log_two]
  exact Nat.log_mono_right le

theorem magnitudeOf_mono : Monotone magnitudeOf := by
  intro m n le
  by_cases zero : m = 0
  · rw [zero, magnitudeOf, if_pos rfl]
    exact Nat.zero_le _
  · have positive : n ≠ 0 := by omega
    have boundsM := significand_bounds zero
    have boundsN := significand_bounds positive
    unfold magnitudeOf
    rw [if_neg zero, if_neg positive]
    rcases Nat.lt_or_eq_of_le (log2_mono le) with less | same
    · have halves : 2 ^ 53 = 2 ^ 52 + 2 ^ 52 := by decide
      have carry : (m.log2 + 1022 + 1) * 2 ^ 52 = (m.log2 + 1022) * 2 ^ 52 + 2 ^ 52 := Nat.succ_mul _ _
      have scaled : (m.log2 + 1022 + 1) * 2 ^ 52 ≤ (n.log2 + 1022) * 2 ^ 52 := by
        apply Nat.mul_le_mul_right
        omega
      calc (m.log2 + 1022) * 2 ^ 52 + significand m
          ≤ (m.log2 + 1022) * 2 ^ 52 + 2 ^ 53 := Nat.add_le_add_left boundsM.2 _
        _ = (m.log2 + 1022 + 1) * 2 ^ 52 + 2 ^ 52 := by rw [carry, halves, Nat.add_assoc]
        _ ≤ (n.log2 + 1022) * 2 ^ 52 + significand n := Nat.add_le_add scaled boundsN.1
    · have leading := significand_mono same le
      rw [same]
      omega

theorem magnitudeOf_lt (small : n < 2 ^ 64) : magnitudeOf n < 1088 * 2 ^ 52 := by
  unfold magnitudeOf
  split
  · decide
  · rename_i positive
    have exponent : n.log2 ≤ 63 := by
      have := (Nat.log2_lt positive).mpr small
      omega
    have bounds := significand_bounds positive
    have scaled : (n.log2 + 1022) * 2 ^ 52 ≤ 1085 * 2 ^ 52 := by
      apply Nat.mul_le_mul_right
      omega
    omega

end Binary64
