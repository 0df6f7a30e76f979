import Mathlib

/-!
Versions in descending order of their timestamps. A reader at time `s` takes the first
version stamped before `s`; pruning at a watermark keeps one version below it, so no
reader at or after the watermark can tell.
-/
namespace Timeline
open List

section
variable {E : Type*} (ts : E → Nat)

def Descending (l : List E) : Prop := l.Pairwise fun a b => ts b ≤ ts a

def StrictlyDescending (l : List E) : Prop := l.Pairwise fun a b => ts b < ts a

/-- The index that binary search finds in a list split by `p`: where `p` first fails. -/
def partitionPoint (p : E → Bool) (l : List E) : Nat := (l.takeWhile p).length

def newestBefore (s : Nat) (l : List E) : Option E := l.find? fun e => ts e < s

def place (v : E) (l : List E) : List E :=
  l.insertIdx (partitionPoint (fun e => ts e > ts v) l) v

/-- Keep every version stamped at or after `w` and the newest one before it. -/
def prune (w : Nat) (l : List E) : List E :=
  if l.length ≤ 1 then l
  else
    let split := partitionPoint (fun e => ts e ≥ w) l
    l.take (if split < l.length then split + 1 else split)

variable {ts} {l : List E} {v : E} {s w : Nat}

@[simp] theorem partitionPoint_nil (p : E → Bool) : partitionPoint p [] = 0 := rfl

variable {e : E} (p : E → Bool)

theorem partitionPoint_cons (a : E) (l : List E) :
    partitionPoint p (a :: l) = if p a then partitionPoint p l + 1 else 0 := by
  cases h : p a <;> simp [partitionPoint, List.takeWhile, h]

theorem partitionPoint_le (l : List E) : partitionPoint p l ≤ l.length :=
  (takeWhile_sublist p).length_le

theorem partitionPoint_take (n : Nat) (l : List E) :
    partitionPoint p (l.take n) = min (partitionPoint p l) n := by
  induction l generalizing n with
  | nil => simp
  | cons a l ih =>
    cases n with
    | zero => simp
    | succ n =>
      rw [take_succ_cons, partitionPoint_cons, partitionPoint_cons, ih]
      split <;> omega

theorem getElem?_partitionPoint (l : List E) :
    l[partitionPoint p l]? = l.find? fun e => !p e := by
  induction l with
  | nil => rfl
  | cons a l ih => cases h : p a <;> simp [partitionPoint_cons, h, ih]

@[simp] theorem place_nil (v : E) : place ts v [] = [v] := rfl

theorem place_cons (v a : E) (l : List E) :
    place ts v (a :: l) = if ts a > ts v then a :: place ts v l else v :: a :: l := by
  by_cases newer : ts a > ts v <;> simp [place, partitionPoint_cons, newer]

theorem place_perm : (place ts v l).Perm (v :: l) :=
  perm_insertIdx v l ((takeWhile_sublist _).length_le)

theorem mem_place : e ∈ place ts v l ↔ e = v ∨ e ∈ l := place_perm.mem_iff.trans List.mem_cons

theorem place_descending (v : E) (sorted : Descending ts l) : Descending ts (place ts v l) := by
  induction l with
  | nil => simp [Descending]
  | cons a l ih =>
    obtain ⟨first, later⟩ := pairwise_cons.mp sorted
    rw [place_cons]
    split
    · rename_i newer
      refine pairwise_cons.mpr ⟨fun e member => ?_, ih later⟩
      rcases mem_place.mp member with rfl | old
      · omega
      · exact first e old
    · rename_i older
      refine pairwise_cons.mpr ⟨fun e member => ?_, sorted⟩
      rcases mem_cons.mp member with rfl | old
      · omega
      · have := first e old
        omega

theorem place_newest (newest : ∀ e ∈ l, ts e ≤ ts v) : place ts v l = v :: l := by
  cases l with
  | nil => rfl
  | cons a l =>
    have older : ¬ ts a > ts v := by
      have := newest a (by simp)
      omega
    rw [place_cons, if_neg older]

theorem mem_of_newestBefore (found : newestBefore ts s l = some e) : e ∈ l ∧ ts e < s := by
  refine ⟨mem_of_find?_eq_some found, ?_⟩
  simpa using List.find?_some found

theorem newestBefore_of_mem (sorted : Descending ts l) (member : e ∈ l) (before : ts e < s) :
    ∃ newest ∈ newestBefore ts s l, ts e ≤ ts newest := by
  induction l with
  | nil => cases member
  | cons a l ih =>
    obtain ⟨first, later⟩ := pairwise_cons.mp sorted
    by_cases seen : ts a < s
    · refine ⟨a, by simp [newestBefore, seen], ?_⟩
      rcases mem_cons.mp member with rfl | old
      · exact le_rfl
      · exact first e old
    · rcases mem_cons.mp member with rfl | old
      · exact absurd before seen
      · obtain ⟨newest, found, older⟩ := ih later old
        exact ⟨newest, by simpa [newestBefore, seen] using found, older⟩

/-- A new version is what a reader at `s` gets exactly when it is stamped before `s`
    and nothing between them is already there. -/
theorem newestBefore_place (sorted : Descending ts l) :
    newestBefore ts s (place ts v l) =
      if ts v < s ∧ ∀ e ∈ newestBefore ts s l, ts e ≤ ts v then some v
      else newestBefore ts s l := by
  induction l with
  | nil => by_cases before : ts v < s <;> simp [newestBefore, before]
  | cons a l ih =>
    obtain ⟨first, later⟩ := pairwise_cons.mp sorted
    rw [place_cons]
    split
    · rename_i newer
      by_cases seen : ts a < s
      · have kept : ¬ ts a ≤ ts v := by omega
        simp [newestBefore, seen, kept]
      · simpa [newestBefore, seen] using ih later
    · rename_i older
      have below : ∀ e ∈ newestBefore ts s (a :: l), ts e ≤ ts v := by
        intro e found
        rcases mem_cons.mp (mem_of_newestBefore found).1 with rfl | old
        · omega
        · have := first e old
          omega
      by_cases before : ts v < s
      · rw [if_pos ⟨before, below⟩]
        simp [newestBefore, before]
      · rw [if_neg fun h => before h.1]
        simp [newestBefore, before]

theorem prune_eq_take (w : Nat) (l : List E) :
    prune ts w l = l.take (partitionPoint (fun e => ts e ≥ w) l + 1) := by
  have bound := partitionPoint_le (fun e => ts e ≥ w) l
  unfold prune
  split
  · rw [take_of_length_le (by omega)]
  · simp only
    split
    · rfl
    · rw [take_of_length_le (by omega), take_of_length_le (by omega)]

theorem prune_sublist (w : Nat) (l : List E) : (prune ts w l).Sublist l := by
  rw [prune_eq_take]
  exact take_sublist _ _

theorem prune_descending (w : Nat) (sorted : Descending ts l) : Descending ts (prune ts w l) :=
  List.Pairwise.sublist (prune_sublist w l) sorted

theorem newestBefore_prune (atOrAfter : w ≤ s) :
    newestBefore ts s (prune ts w l) = newestBefore ts s l := by
  rw [prune_eq_take]
  induction l with
  | nil => rfl
  | cons a l ih =>
    rw [partitionPoint_cons]
    by_cases kept : ts a ≥ w
    · by_cases seen : ts a < s
      · simp [newestBefore, kept, seen]
      · simpa [newestBefore, kept, seen] using ih
    · have seen : ts a < s := by omega
      simp [newestBefore, kept, seen]

theorem newestBefore_all (visible : ∀ e ∈ l, ts e < s) : newestBefore ts s l = l.head? := by
  cases l with
  | nil => rfl
  | cons a l => simp [newestBefore, visible a (by simp)]

theorem prune_cons (a : E) (l : List E) :
    prune ts w (a :: l) = if ts a ≥ w then a :: prune ts w l else [a] := by
  rw [prune_eq_take, partitionPoint_cons, prune_eq_take]
  by_cases kept : ts a ≥ w
  · simp [kept]
  · simp [kept]

theorem mem_prune (sorted : StrictlyDescending ts l) :
    v ∈ prune ts w l ↔ v ∈ l ∧ (w ≤ ts v ∨ ∀ u ∈ l, ts u < w → ts u ≤ ts v) := by
  induction l with
  | nil => simp [prune]
  | cons a l ih =>
    obtain ⟨first, later⟩ := pairwise_cons.mp sorted
    rw [prune_cons]
    by_cases kept : ts a ≥ w
    · rw [if_pos kept, mem_cons, ih later, mem_cons]
      have above : ∀ v, (∀ u ∈ a :: l, ts u < w → ts u ≤ ts v) ↔ ∀ u ∈ l, ts u < w → ts u ≤ ts v := by
        intro v
        rw [forall_mem_cons]
        exact ⟨And.right, fun rest => ⟨fun below => absurd below (by omega), rest⟩⟩
      rw [above]
      constructor
      · rintro (rfl | ⟨member, newest⟩)
        · exact ⟨.inl rfl, .inl kept⟩
        · exact ⟨.inr member, newest⟩
      · rintro ⟨rfl | member, newest⟩
        · exact .inl rfl
        · exact .inr ⟨member, newest⟩
    · rw [if_neg kept, mem_singleton]
      constructor
      · rintro rfl
        refine ⟨mem_cons_self, .inr fun u member _ => ?_⟩
        rcases mem_cons.mp member with rfl | old
        · exact le_rfl
        · exact Nat.le_of_lt (first u old)
      · rintro ⟨member, newest⟩
        rcases mem_cons.mp member with rfl | old
        · rfl
        · have older := first v old
          rcases newest with atOrAfter | greatest
          · omega
          · have := greatest a mem_cons_self (by omega)
            omega

theorem prune_below_le_one (w : Nat) (l : List E) :
    ((prune ts w l).filter fun e => ts e < w).length ≤ 1 := by
  induction l with
  | nil => simp [prune]
  | cons a l ih =>
    rw [prune_cons]
    by_cases kept : ts a ≥ w
    · have notBelow : ¬ ts a < w := by omega
      rw [if_pos kept, filter_cons_of_neg (by simpa using notBelow)]
      exact ih
    · rw [if_neg kept]
      exact length_filter_le _ [a]

variable (sorted : StrictlyDescending ts l)
include sorted

theorem place_strict (fresh : ∀ e ∈ l, ts e ≠ ts v) :
    StrictlyDescending ts (place ts v l) := by
  have distinct : (v :: l).Pairwise fun a b => ts b ≠ ts a :=
    pairwise_cons.mpr ⟨fresh, sorted.imp Nat.ne_of_lt⟩
  have placed : (place ts v l).Pairwise fun a b => ts b ≠ ts a :=
    place_perm.symm.pairwise distinct fun different => different.symm
  have ordered := place_descending v (sorted.imp Nat.le_of_lt)
  exact (ordered.and placed).imp fun ⟨below, different⟩ => Nat.lt_of_le_of_ne below different

theorem eq_of_stamp {a b : E} (first : a ∈ l) (second : b ∈ l) (same : ts a = ts b) : a = b := by
  have stamps : (l.map ts).Nodup :=
    pairwise_map.mpr (sorted.imp fun less => Nat.ne_of_gt less)
  exact inj_on_of_nodup_map stamps first second same

theorem newestBefore_iff {s : Nat} :
    newestBefore ts s l = some v ↔ v ∈ l ∧ ts v < s ∧ ∀ u ∈ l, ts u < s → ts u ≤ ts v := by
  have sorted' : Descending ts l := sorted.imp Nat.le_of_lt
  constructor
  · intro found
    obtain ⟨member, before⟩ := mem_of_newestBefore found
    refine ⟨member, before, fun u old earlier => ?_⟩
    obtain ⟨newest, isNewest, le⟩ := newestBefore_of_mem sorted' old earlier
    rw [found] at isNewest
    cases isNewest
    exact le
  · intro ⟨member, before, greatest⟩
    obtain ⟨newest, found, le⟩ := newestBefore_of_mem sorted' member before
    obtain ⟨newestMember, newestBefore⟩ := mem_of_newestBefore found
    have same : ts newest = ts v := Nat.le_antisymm (greatest newest newestMember newestBefore) le
    rw [← eq_of_stamp sorted newestMember member same]
    exact found

end
end Timeline
