import Mathlib

/-!
Selection in one pass: keep the current element unless the next one beats it. Where beating
is a strict weak order, the element that is kept at the end is beaten by none, however the
elements are split and merged.
-/
namespace Selection
open List
variable {α : Type} (beats : α → α → Bool)

def keep (cur : Option α) (next : α) : Option α :=
  match cur with
  | none => some next
  | some c => if beats next c then some next else some c

structure Weak (l : List α) : Prop where
  asymm : ∀ a ∈ l, ∀ b ∈ l, beats a b = true → beats b a = false
  cotrans : ∀ a ∈ l, ∀ b ∈ l, ∀ c ∈ l, beats a c = true → beats a b = true ∨ beats b c = true

def Unbeaten (l : List α) (a : α) : Prop := ∀ z ∈ l, beats z a = false

def Chosen (l : List α) : Option α → Prop
  | none => l = []
  | some a => a ∈ l ∧ (Weak beats l → Unbeaten beats l a)

variable {beats} {l more : List α} {a b : α}

theorem Weak.subset (weak : Weak beats l) (subset : more ⊆ l) : Weak beats more where
  asymm := fun a memberA b memberB => weak.asymm a (subset memberA) b (subset memberB)
  cotrans := fun a memberA b memberB c memberC =>
    weak.cotrans a (subset memberA) b (subset memberB) c (subset memberC)

theorem Weak.irrefl (weak : Weak beats l) (member : a ∈ l) : beats a a = false := by
  cases beaten : beats a a with
  | false => rfl
  | true => exact beaten ▸ weak.asymm a member a member beaten

theorem chosen_merge (left : Chosen beats l (some a)) (right : Chosen beats more (some b)) :
    Chosen beats (l ++ more) (keep beats (some a) b) := by
  have inL : a ∈ l ++ more := mem_append_left more left.1
  have inMore : b ∈ l ++ more := mem_append_right l right.1
  unfold keep
  dsimp only
  split
  · rename_i better
    refine ⟨inMore, fun weak z member => ?_⟩
    rcases mem_append.mp member with early | late
    · -- An earlier element that beats `b` would beat `a` as well.
      have unbeaten := left.2 (weak.subset (subset_append_left l more)) z early
      by_contra beaten
      have beaten : beats z b = true := by simpa using beaten
      rcases weak.cotrans z member a inL b inMore beaten with first | second
      · rw [unbeaten] at first
        cases first
      · have asymmetric := weak.asymm b inMore a inL better
        rw [asymmetric] at second
        cases second
    · exact right.2 (weak.subset (subset_append_right l more)) z late
  · rename_i worse
    refine ⟨inL, fun weak z member => ?_⟩
    rcases mem_append.mp member with early | late
    · exact left.2 (weak.subset (subset_append_left l more)) z early
    · have unbeaten := right.2 (weak.subset (subset_append_right l more)) z late
      by_contra beaten
      have beaten : beats z a = true := by simpa using beaten
      rcases weak.cotrans z member b inMore a inL beaten with first | second
      · rw [unbeaten] at first
        cases first
      · exact worse second

theorem chosen_single (a : α) : Chosen beats [a] (some a) := by
  refine ⟨mem_cons_self, fun weak z member => ?_⟩
  rw [mem_singleton.mp member]
  exact weak.irrefl mem_cons_self

theorem chosen_keep {cur : Option α} (chosen : Chosen beats l cur) (b : α) :
    Chosen beats (l ++ [b]) (keep beats cur b) := by
  cases cur with
  | none =>
    obtain rfl : l = [] := chosen
    exact chosen_single b
  | some a => exact chosen_merge chosen (chosen_single b)

theorem exists_kept (beats : α → α → Bool) (l : List α) (a : α) : ∃ m, l.foldl (keep beats) (some a) = some m := by
  induction l generalizing a with
  | nil => exact ⟨a, rfl⟩
  | cons b rest ih =>
    rw [foldl_cons, keep]
    split
    · exact ih b
    · exact ih a

theorem keep_of_unbeaten (unbeaten : Unbeaten beats l a) : l.foldl (keep beats) (some a) = some a := by
  induction l with
  | nil => rfl
  | cons b rest ih =>
    have first : keep beats (some a) b = some a := by
      unfold keep
      dsimp only
      rw [unbeaten b mem_cons_self]
      rfl
    rw [foldl_cons, first]
    exact ih fun z member => unbeaten z (mem_cons_of_mem b member)

end Selection
