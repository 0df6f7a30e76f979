import Mathlib

/-!
Cycles of a relation whose points have ranks. Somewhere on a cycle two steps lead to a
point of least rank, which is where arguments about serialization graphs look.
-/
namespace Cycles
open Relation

variable {α : Type*} {R : α → α → Prop}

def Acyclic (R : α → α → Prop) : Prop := ∀ a, ¬TransGen R a a

theorem entered {a b : α} (out : ReflTransGen R a b) (back : TransGen R b a) :
    ∃ c, R c b ∧ ReflTransGen R a c ∧ TransGen R c a := by
  cases out with
  | refl =>
    obtain ⟨c, before, last⟩ := TransGen.tail'_iff.mp back
    exact ⟨c, last, before, .single last⟩
  | tail before last => exact ⟨_, last, before, .head last back⟩

theorem least_on_cycle (rank : α → Nat) {a : α} (cycle : TransGen R a a) :
    ∃ x y z, R z y ∧ R y x ∧ rank x ≤ rank y ∧ rank x ≤ rank z := by
  let onCycle : Set α := {b | ReflTransGen R a b ∧ TransGen R b a}
  have nonempty : onCycle.Nonempty := ⟨a, .refl, cycle⟩
  let x := Function.argminOn rank onCycle nonempty
  have least : ∀ b ∈ onCycle, rank x ≤ rank b := fun b member => Function.argminOn_le rank onCycle member
  obtain ⟨out, back⟩ : x ∈ onCycle := Function.argminOn_mem rank onCycle nonempty
  obtain ⟨y, last, outY, backY⟩ := entered out back
  obtain ⟨z, before, outZ, backZ⟩ := entered outY backY
  exact ⟨x, y, z, before, last, least y ⟨outY, backY⟩, least z ⟨outZ, backZ⟩⟩

end Cycles
