import Mathlib

/-!
Insertion sort as the stable sort of a list. What is seen of the sorted elements through a
map is the sorted list of their images, as soon as the two orders agree on elements with
different images.
-/
namespace StableSort
open List

section
variable {α β : Type*} (r : α → α → Prop)

structure OrdersOn (l : List α) : Prop where
  total : ∀ a ∈ l, ∀ b ∈ l, r a b ∨ r b a
  trans : ∀ a ∈ l, ∀ b ∈ l, ∀ c ∈ l, r a b → r b c → r a c

variable {r}

theorem OrdersOn.sublist {l l' : List α} (orders : OrdersOn r l) (within : l' ⊆ l) : OrdersOn r l' where
  total a ha b hb := orders.total a (within ha) b (within hb)
  trans a ha b hb c hc := orders.trans a (within ha) b (within hb) c (within hc)

variable [DecidableRel r] {s : β → β → Prop} [DecidableRel s] {f : α → β}

theorem pairwise_insertionSort_of_ordersOn {l : List α} (orders : OrdersOn r l) :
    (l.insertionSort r).Pairwise r := by
  let restricted : {a // a ∈ l} → {a // a ∈ l} → Prop := fun a b => r a b
  have total : Std.Total restricted := ⟨fun a b => orders.total a a.2 b b.2⟩
  have trans : IsTrans {a // a ∈ l} restricted := ⟨fun a b c => orders.trans a a.2 b b.2 c c.2⟩
  have sorted := pairwise_insertionSort restricted l.attach
  have images := map_insertionSort restricted r Subtype.val l.attach (fun a _ b _ => Iff.rfl)
  rw [attach_map_subtype_val] at images
  rw [← images]
  exact pairwise_map.mpr sorted

theorem insertionSort_of_perm {l l' : List β} (orders : OrdersOn s l) (perm : l.Perm l')
    (antisymmetric : ∀ a ∈ l, ∀ b ∈ l, s a b → s b a → a = b) :
    l.insertionSort s = l'.insertionSort s := by
  have orders' : OrdersOn s l' := orders.sublist perm.symm.subset
  apply List.Perm.eq_of_pairwise
  · intro a b ha hb
    exact antisymmetric a ((mem_insertionSort s).mp ha) b
      (perm.symm.subset ((mem_insertionSort s).mp hb))
  · exact pairwise_insertionSort_of_ordersOn orders
  · exact pairwise_insertionSort_of_ordersOn orders'
  · exact ((perm_insertionSort s l).trans perm).trans (perm_insertionSort s l').symm

end
end StableSort
