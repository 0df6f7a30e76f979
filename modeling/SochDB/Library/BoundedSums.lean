import Mathlib

/-!
Sums that are taken step by step between two bounds. Whether a partial sum leaves the bounds
depends on the order; if the total is inside, some order stays inside.
-/
namespace BoundedSums
open List
variable {α : Type} (f : α → Int) (lo hi : Int)

def StaysIn (s : Int) : List α → Prop
  | [] => True
  | a :: rest => lo ≤ s + f a ∧ s + f a ≤ hi ∧ StaysIn (s + f a) rest

variable {f lo hi}

theorem sum_nonpos {l : List α} (each : ∀ a ∈ l, f a ≤ 0) : (l.map f).sum ≤ 0 :=
  (sum_le_sum each).trans_eq (by simp)

theorem exists_step {l : List α} {s : Int} (each : ∀ a ∈ l, lo ≤ f a ∧ f a ≤ hi) (start : lo ≤ s ∧ s ≤ hi)
    (total : lo ≤ s + (l.map f).sum ∧ s + (l.map f).sum ≤ hi) (nonempty : l ≠ []) :
    ∃ a ∈ l, lo ≤ s + f a ∧ s + f a ≤ hi := by
  by_cases down : 0 ≤ s ∧ ∃ a ∈ l, f a ≤ 0
  · obtain ⟨positive, a, member, fewer⟩ := down
    have bounds := each a member
    exact ⟨a, member, by omega, by omega⟩
  · by_cases up : s < 0 ∧ ∃ a ∈ l, 0 ≤ f a
    · obtain ⟨negative, a, member, more⟩ := up
      have bounds := each a member
      exact ⟨a, member, by omega, by omega⟩
    · -- All summands point the same way as `s`, so no partial sum passes the total.
      obtain ⟨a, rest, rfl⟩ := exists_cons_of_ne_nil nonempty
      refine ⟨a, mem_cons_self, ?_⟩
      rw [map_cons, sum_cons] at total
      by_cases positive : 0 ≤ s
      · have ahead : ∀ b ∈ a :: rest, 0 ≤ f b := by
          intro b member
          by_contra less
          exact down ⟨positive, b, member, by omega⟩
        have later : 0 ≤ (rest.map f).sum := by
          apply sum_nonneg
          intro x member
          obtain ⟨b, inside, rfl⟩ := mem_map.mp member
          exact ahead b (mem_cons_of_mem a inside)
        have first := ahead a mem_cons_self
        omega
      · have behind : ∀ b ∈ a :: rest, f b ≤ 0 := by
          intro b member
          by_contra more
          exact up ⟨by omega, b, member, by omega⟩
        have later := sum_nonpos fun b inside => behind b (mem_cons_of_mem a inside)
        have first := behind a mem_cons_self
        omega

theorem exists_order {l : List α} {s : Int} (each : ∀ a ∈ l, lo ≤ f a ∧ f a ≤ hi) (start : lo ≤ s ∧ s ≤ hi)
    (total : lo ≤ s + (l.map f).sum ∧ s + (l.map f).sum ≤ hi) :
    ∃ order : List α, order.Perm l ∧ StaysIn f lo hi s order := by
  induction size : l.length generalizing l s with
  | zero => exact ⟨[], (length_eq_zero_iff.mp size) ▸ List.Perm.nil, trivial⟩
  | succ n ih =>
    have nonempty : l ≠ [] := by
      rintro rfl
      cases size
    obtain ⟨a, member, inside⟩ := exists_step each start total nonempty
    obtain ⟨before, after, rfl⟩ := append_of_mem member
    have rest_each : ∀ b ∈ before ++ after, lo ≤ f b ∧ f b ≤ hi :=
      fun b present => each b (perm_middle.symm.subset (mem_cons_of_mem a present))
    have rest_total : s + f a + ((before ++ after).map f).sum = s + ((before ++ a :: after).map f).sum := by
      simp only [map_append, sum_append, map_cons, sum_cons]
      omega
    have rest_size : (before ++ after).length = n := by
      simp only [length_append, length_cons] at size ⊢
      omega
    obtain ⟨order, reordered, stays⟩ := ih rest_each inside (rest_total ▸ total) rest_size
    exact ⟨a :: order, (reordered.cons a).trans perm_middle.symm, inside.1, inside.2, stays⟩

end BoundedSums
