import SochDB.Library.KeyedMaps
import SochDB.Library.ByteOrder
import SochDB.Library.StableSort

/-!
A map with byte strings as keys, and its entries under a beginning in the order of the keys.
The answer depends on these entries only.
-/
namespace PrefixScans
open KeyedMaps ByteOrder StableSort

abbrev Store := Map (List UInt8) (List UInt8)

def keyLe (a b : List UInt8 × List UInt8) : Prop := a.1 ≤ b.1

instance : DecidableRel keyLe := fun a b => inferInstanceAs (Decidable (a.1 ≤ b.1))

def scan (store : Store) (start : List UInt8) : List (List UInt8 × List UInt8) :=
  ((pairs store).filter fun e => start <+: e.1).insertionSort keyLe

variable {store other : Store} {start : List UInt8}

theorem mem_scan {e : List UInt8 × List UInt8} :
    e ∈ scan store start ↔ get store e.1 = some e.2 ∧ start <+: e.1 := by
  rw [scan, List.mem_insertionSort, List.mem_filter, decide_eq_true_iff, mem_pairs]

theorem filter_keys_nodup (store : Store) (start : List UInt8) :
    (((pairs store).filter fun e => start <+: e.1).map Prod.fst).Nodup :=
  List.Nodup.sublist (List.filter_sublist.map Prod.fst) (pairs_keys_nodup store)

theorem scan_keys_nodup (store : Store) (start : List UInt8) : ((scan store start).map Prod.fst).Nodup :=
  ((List.perm_insertionSort keyLe _).map Prod.fst).nodup_iff.mpr (filter_keys_nodup store start)

theorem keyLe_orders (l : List (List UInt8 × List UInt8)) : OrdersOn keyLe l where
  total a _ b _ := le_total a.1 b.1
  trans _ _ _ _ _ _ := le_trans

theorem scan_congr (agree : ∀ k, start <+: k → get store k = get other k) : scan store start = scan other start := by
  have nodup : ∀ s : Store, ((pairs s).filter fun e => start <+: e.1).Nodup := fun s =>
    List.Nodup.of_map Prod.fst (filter_keys_nodup s start)
  have perm : ((pairs store).filter fun e => start <+: e.1).Perm
      ((pairs other).filter fun e => start <+: e.1) := by
    rw [List.perm_ext_iff_of_nodup (nodup store) (nodup other)]
    intro e
    simp only [List.mem_filter, decide_eq_true_eq]
    exact and_congr_left fun begins => by rw [mem_pairs, mem_pairs, agree e.1 begins]
  refine insertionSort_of_perm (keyLe_orders _) perm ?_
  intro a inside b also below above
  have keys : a.1 = b.1 := le_antisymm below above
  exact List.inj_on_of_nodup_map (filter_keys_nodup store start) inside also keys

end PrefixScans
