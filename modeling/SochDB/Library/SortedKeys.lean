import SochDB.Library.Timeline

/-!
Strictly increasing lists of keys: sorting with duplicates removed, the two-finger
merge and intersection, insertion, and the slices that binary search cuts out of them.
-/
namespace SortedKeys
open Timeline List

section
variable {α : Type*} [LinearOrder α]

abbrev Increasing (l : List α) : Prop := l.Pairwise (· < ·)

def sortDedup (l : List α) : List α := (l.insertionSort (· ≤ ·)).destutter (· ≠ ·)

def mergeFrom (x : α) (xs : List α) (rest : List α → List α) : List α → List α
  | [] => x :: xs
  | y :: ys =>
    if x < y then x :: rest (y :: ys)
    else if y < x then y :: mergeFrom x xs rest ys
    else x :: rest ys

def merge : List α → List α → List α
  | [], ys => ys
  | x :: xs, ys => mergeFrom x xs (merge xs) ys

def commonFrom (x : α) (rest : List α → List α) : List α → List α
  | [] => []
  | y :: ys =>
    if x < y then rest (y :: ys)
    else if y < x then commonFrom x rest ys
    else x :: rest ys

def common : List α → List α → List α
  | [], _ => []
  | x :: xs, ys => commonFrom x (common xs) ys

def insertKey (k : α) (l : List α) : List α := if k ∈ l then l else l.orderedInsert (· ≤ ·) k

variable {l xs ys : List α} {a k : α}

theorem mem_mergeFrom {rest : List α → List α} (x : α)
    (sound : ∀ ys, a ∈ rest ys ↔ a ∈ xs ∨ a ∈ ys) :
    a ∈ mergeFrom x xs rest ys ↔ a ∈ x :: xs ∨ a ∈ ys := by
  induction ys with
  | nil => simp [mergeFrom]
  | cons y ys ih =>
    rw [mergeFrom]
    split
    · simp only [mem_cons, sound]
      tauto
    · split
      · simp only [mem_cons] at ih ⊢
        rw [ih]
        tauto
      · have same : x = y := by order
        simp only [mem_cons, sound, same]
        tauto

theorem mem_merge (xs ys : List α) : a ∈ merge xs ys ↔ a ∈ xs ∨ a ∈ ys := by
  induction xs generalizing ys with
  | nil => simp [merge]
  | cons x xs ih => exact mem_mergeFrom x ih

theorem mergeFrom_increasing {x : α} (head : ∀ b ∈ xs, x < b) (tail : Increasing xs)
    (ih : ∀ ys, Increasing ys → Increasing (merge xs ys)) (second : Increasing ys) :
    Increasing (mergeFrom x xs (merge xs) ys) := by
  induction ys with
  | nil => exact pairwise_cons.mpr ⟨head, tail⟩
  | cons y ys later =>
    obtain ⟨above, increasing⟩ := pairwise_cons.mp second
    rw [mergeFrom]
    split
    · rename_i less
      refine pairwise_cons.mpr ⟨fun b member => ?_, ih _ second⟩
      rcases (mem_merge _ _).mp member with inFirst | inSecond
      · exact head b inFirst
      · rcases mem_cons.mp inSecond with rfl | deeper
        · exact less
        · exact less.trans (above b deeper)
    · split
      · rename_i greater
        refine pairwise_cons.mpr ⟨fun b member => ?_, later increasing⟩
        rcases (mem_mergeFrom x (mem_merge xs)).mp member with inFirst | inSecond
        · rcases mem_cons.mp inFirst with rfl | deeper
          · exact greater
          · exact greater.trans (head b deeper)
        · exact above b inSecond
      · have same : x = y := by order
        refine pairwise_cons.mpr ⟨fun b member => ?_, ih _ increasing⟩
        rcases (mem_merge _ _).mp member with inFirst | inSecond
        · exact head b inFirst
        · rw [same]
          exact above b inSecond

theorem merge_increasing (first : Increasing xs) (second : Increasing ys) :
    Increasing (merge xs ys) := by
  induction xs generalizing ys with
  | nil => exact second
  | cons x xs ih =>
    obtain ⟨head, tail⟩ := pairwise_cons.mp first
    exact mergeFrom_increasing head tail (fun _ increasing => ih tail increasing) second

theorem commonFrom_sublist {x : α} (ih : ∀ ys, (common xs ys).Sublist xs) (ys : List α) :
    (commonFrom x (common xs) ys).Sublist (x :: xs) := by
  induction ys with
  | nil => exact nil_sublist _
  | cons y ys later =>
    rw [commonFrom]
    split
    · exact (ih _).cons x
    · split
      · exact later
      · exact (ih ys).cons_cons x

theorem common_sublist (xs ys : List α) : (common xs ys).Sublist xs := by
  induction xs generalizing ys with
  | nil => exact .refl _
  | cons x xs ih => exact commonFrom_sublist ih ys

theorem common_increasing (increasing : Increasing xs) (ys : List α) : Increasing (common xs ys) :=
  increasing.sublist (common_sublist xs ys)

theorem mem_commonFrom {x : α} (head : ∀ b ∈ xs, x < b)
    (ih : ∀ ys, Increasing ys → (a ∈ common xs ys ↔ a ∈ xs ∧ a ∈ ys)) (second : Increasing ys) :
    a ∈ commonFrom x (common xs) ys ↔ a ∈ x :: xs ∧ a ∈ ys := by
  induction ys with
  | nil => simp [commonFrom]
  | cons y ys later =>
    obtain ⟨above, tail⟩ := pairwise_cons.mp second
    rw [commonFrom]
    split
    · rename_i less
      have absent : x ∉ y :: ys := by
        intro inside
        rcases mem_cons.mp inside with rfl | deeper
        · exact lt_irrefl x less
        · exact lt_asymm less (above x deeper)
      rw [ih _ second]
      refine and_congr_left fun other => ?_
      rw [mem_cons, or_iff_right]
      rintro rfl
      exact absent other
    · split
      · rename_i greater
        have absent : y ∉ x :: xs := by
          intro inside
          rcases mem_cons.mp inside with rfl | deeper
          · exact lt_irrefl y greater
          · exact lt_asymm greater (head y deeper)
        rw [later tail]
        refine and_congr_right fun inside => ?_
        rw [mem_cons, or_iff_right]
        rintro rfl
        exact absent inside
      · have same : x = y := by order
        subst same
        simp only [mem_cons, ih ys tail]
        tauto

theorem mem_common (first : Increasing xs) (second : Increasing ys) :
    a ∈ common xs ys ↔ a ∈ xs ∧ a ∈ ys := by
  induction xs generalizing ys with
  | nil => simp [common]
  | cons x xs ih =>
    obtain ⟨head, tail⟩ := pairwise_cons.mp first
    exact mem_commonFrom head (fun _ increasing => ih tail increasing) second

theorem insertKey_increasing (k : α) (increasing : Increasing l) : Increasing (insertKey k l) := by
  unfold insertKey
  split
  · exact increasing
  · rename_i fresh
    have nodup : (l.orderedInsert (· ≤ ·) k).Nodup :=
      (perm_orderedInsert (· ≤ ·) k l).nodup_iff.mpr
        (nodup_cons.mpr ⟨fresh, increasing.imp fun h => ne_of_lt h⟩)
    have sorted : (l.orderedInsert (· ≤ ·) k).Pairwise (· ≤ ·) :=
      List.Pairwise.orderedInsert k l (increasing.imp fun h => le_of_lt h)
    exact (sorted.and nodup).imp fun h => lt_of_le_of_ne h.1 h.2

@[simp] theorem mem_insertKey : a ∈ insertKey k l ↔ a = k ∨ a ∈ l := by
  unfold insertKey
  split
  · rename_i present
    exact (or_iff_right_of_imp fun same => same ▸ present).symm
  · rw [mem_orderedInsert]

theorem mem_destutter_ne (b : α) (l : List α) :
    a ∈ l.destutter' (· ≠ ·) b ↔ a = b ∨ a ∈ l := by
  induction l generalizing b with
  | nil => simp
  | cons c l ih =>
    rw [List.destutter'_cons]
    split
    · simp only [mem_cons, ih]
    · rename_i same
      rw [ih, mem_cons, not_not.mp same]
      tauto

theorem destutter_increasing (b : α) (l : List α) (sorted : (b :: l).Pairwise (· ≤ ·)) :
    Increasing (l.destutter' (· ≠ ·) b) := by
  induction l generalizing b with
  | nil => simp
  | cons c l ih =>
    obtain ⟨below, rest⟩ := pairwise_cons.mp sorted
    rw [List.destutter'_cons]
    split
    · rename_i different
      have less : b < c := lt_of_le_of_ne (below c (by simp)) different
      refine pairwise_cons.mpr ⟨fun x member => ?_, ih c rest⟩
      rcases (mem_destutter_ne c l).mp member with rfl | later
      · exact less
      · exact less.trans_le ((pairwise_cons.mp rest).1 x later)
    · rename_i same
      rw [not_not] at same
      exact ih b (same ▸ rest)

@[simp] theorem mem_sortDedup : a ∈ sortDedup l ↔ a ∈ l := by
  rw [sortDedup, ← mem_insertionSort (· ≤ ·) (l := l)]
  cases l.insertionSort (· ≤ ·) with
  | nil => simp
  | cons b rest => rw [destutter_cons', mem_destutter_ne, mem_cons]

theorem sortDedup_increasing (l : List α) : Increasing (sortDedup l) := by
  have sorted := pairwise_insertionSort (· ≤ ·) l
  rw [sortDedup]
  cases shape : l.insertionSort (· ≤ ·) with
  | nil => simp
  | cons b rest =>
    rw [destutter_cons']
    exact destutter_increasing b rest (shape ▸ sorted)

theorem split_partitionPoint (increasing : Increasing l) (s : α) :
    l.take (partitionPoint (· < s) l) = l.filter (· < s) ∧
      l.drop (partitionPoint (· < s) l) = l.filter (s ≤ ·) := by
  induction l with
  | nil => exact ⟨rfl, rfl⟩
  | cons a l ih =>
    obtain ⟨above, rest⟩ := pairwise_cons.mp increasing
    rw [partitionPoint_cons]
    by_cases before : a < s
    · simpa [before, not_le.mpr before] using ih rest
    · have all : ∀ b ∈ a :: l, s ≤ b :=
        forall_mem_cons.mpr ⟨not_lt.mp before, fun b later => (not_lt.mp before).trans (above b later).le⟩
      simp only [before, decide_false, Bool.false_eq_true, if_false, take_zero, drop_zero]
      exact ⟨(filter_eq_nil_iff.mpr fun b member => by simpa using all b member).symm,
        (filter_eq_self.mpr fun b member => by simpa using all b member).symm⟩

theorem drop_partitionPoint (increasing : Increasing l) (s : α) :
    l.drop (partitionPoint (· < s) l) = l.filter (s ≤ ·) :=
  (split_partitionPoint increasing s).2

theorem take_partitionPoint (increasing : Increasing l) (s : α) :
    l.take (partitionPoint (· < s) l) = l.filter (· < s) :=
  (split_partitionPoint increasing s).1

theorem slice_eq_filter (increasing : Increasing l) (s e : α) :
    (l.take (partitionPoint (· < e) l)).drop (partitionPoint (· < s) l) =
      l.filter fun k => s ≤ k ∧ k < e := by
  have lower : Increasing (l.take (partitionPoint (· < e) l)) :=
    increasing.sublist (take_sublist _ _)
  have filtered := drop_partitionPoint lower s
  rw [partitionPoint_take, take_partitionPoint increasing, filter_filter] at filtered
  rw [take_partitionPoint increasing]
  have length : (l.filter (· < e)).length ≤ partitionPoint (· < e) l := by
    rw [← take_partitionPoint increasing]
    exact length_take_le _ _
  simp only [Bool.decide_and]
  rw [← filtered]
  rcases Nat.le_total (partitionPoint (· < s) l) (partitionPoint (· < e) l) with inOrder | inverted
  · rw [Nat.min_eq_left inOrder]
  · rw [Nat.min_eq_right inverted, drop_eq_nil_of_le length,
      drop_eq_nil_of_le (length.trans inverted)]

theorem partitionPoint_zero {s : α} (all : ∀ k ∈ l, s ≤ k) : partitionPoint (· < s) l = 0 := by
  cases l with
  | nil => rfl
  | cons a l => simp [partitionPoint_cons, not_lt.mpr (all a (by simp))]

theorem partitionPoint_ordered (increasing : Increasing l) (s e : α) :
    partitionPoint (· < s) l ≤ partitionPoint (· < e) l ↔ ∀ k ∈ l, e ≤ k → s ≤ k := by
  induction l with
  | nil => simp
  | cons a l ih =>
    obtain ⟨above, rest⟩ := pairwise_cons.mp increasing
    simp only [partitionPoint_cons, forall_mem_cons, ← ih rest, decide_eq_true_eq]
    by_cases left : a < s
    · by_cases right : a < e
      · simp [left, right]
      · simp [left, right, not_lt.mp right]
    · have none : partitionPoint (· < s) l = 0 :=
        partitionPoint_zero fun k member => (not_lt.mp left).trans (above k member).le
      simp [left, none, not_lt.mp left]

theorem dropWhile_eq_filter (increasing : Increasing l) (s : α) :
    l.dropWhile (fun k => k < s) = l.filter (s ≤ ·) := by
  have whole : l.takeWhile (fun k => k < s) ++ l.dropWhile (fun k => k < s) = l :=
    takeWhile_append_dropWhile
  have dropped := @drop_left α (l.takeWhile fun k => k < s) (l.dropWhile fun k => k < s)
  rw [whole] at dropped
  exact dropped.symm.trans (drop_partitionPoint increasing s)

theorem takeWhile_eq_filter (increasing : Increasing l) {p : α → Bool}
    (initial : ∀ x ∈ l, ∀ y ∈ l, x < y → p y = true → p x = true) : l.takeWhile p = l.filter p := by
  induction l with
  | nil => rfl
  | cons b l ih =>
    obtain ⟨above, rest⟩ := pairwise_cons.mp increasing
    cases taken : p b with
    | true =>
      have later := ih rest fun x first y second =>
        initial x (mem_cons_of_mem b first) y (mem_cons_of_mem b second)
      rw [takeWhile_cons_of_pos taken, filter_cons_of_pos taken, later]
    | false =>
      have none : ∀ y ∈ l, ¬ p y = true := by
        intro y member yes
        have before := initial b mem_cons_self y (mem_cons_of_mem b member) (above y member) yes
        rw [taken] at before
        cases before
      rw [takeWhile_cons_of_neg (by simp [taken]), filter_cons_of_neg (by simp [taken]),
        filter_eq_nil_iff.mpr none]

end
end SortedKeys
