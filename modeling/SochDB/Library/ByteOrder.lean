import Mathlib

/-!
Byte strings in lexicographic order. The strings with a given beginning form an
interval that starts at that beginning.
-/
namespace ByteOrder
open List

instance byteOrder : LinearOrder UInt8 where
  le_refl := UInt8.le_refl
  le_trans := fun _ _ _ => UInt8.le_trans
  le_antisymm := fun _ _ => UInt8.le_antisymm
  le_total := UInt8.le_total
  lt_iff_le_not_ge := by
    intro a b
    simp only [UInt8.lt_iff_toNat_lt, UInt8.le_iff_toNat_le]
    omega
  toDecidableLE := inferInstance
  toDecidableLT := inferInstance
  toDecidableEq := inferInstance

abbrev lexicographic : LinearOrder (List UInt8) := inferInstance

/-- The lexicographic order, with the equality test that lists already have. -/
instance bytesOrder : LinearOrder (List UInt8) where
  toPartialOrder := lexicographic.toPartialOrder
  le_total := lexicographic.le_total
  toDecidableLE := lexicographic.toDecidableLE
  toDecidableLT := lexicographic.toDecidableLT
  toDecidableEq := instDecidableEqList
  compare := lexicographic.compare
  compare_eq_compareOfLessAndEq a b := by
    convert lexicographic.compare_eq_compareOfLessAndEq a b

section
variable {β : Type*} [LinearOrder β]

theorem starts_with_between {start k later : List β} (begins : start <+: later)
    (atOrAfter : ¬ k < start) (before : ¬ later < k) : start <+: k := by
  induction start generalizing k later with
  | nil => exact nil_prefix
  | cons a start ih =>
    obtain ⟨rest, rfl⟩ := begins
    cases k with
    | nil => exact absurd (nil_lt_cons a start) atOrAfter
    | cons b k =>
      simp only [cons_append, cons_lt_cons_iff, not_or, not_and] at atOrAfter before
      have same : a = b := le_antisymm (not_lt.mp atOrAfter.1) (not_lt.mp before.1)
      subst same
      exact cons_prefix_cons.mpr
        ⟨rfl, ih (prefix_append start rest) (atOrAfter.2 rfl) (before.2 rfl)⟩

theorem le_of_starts_with {start k : List β} (begins : start <+: k) : start ≤ k := by
  obtain ⟨rest, rfl⟩ := begins
  induction start with
  | nil =>
    cases rest with
    | nil => exact le_refl _
    | cons b rest => exact le_of_lt (nil_lt_cons b rest)
  | cons a start ih =>
    rw [cons_append, ← not_lt, cons_lt_cons_iff]
    rintro (less | ⟨_, less⟩)
    · exact lt_irrefl a less
    · exact absurd less (not_lt.mpr ih)

end
end ByteOrder
