import Mathlib

/-!
Finite maps with the entry operations of a hash map. Lookups are stated once for all
keys, so that a proof about a map splits on the key and nothing else.
-/
namespace KeyedMaps
open List

abbrev Map (κ ν : Type) := AList (fun _ : κ => ν)

section Entries
variable {κ ν : Type}

def pairs (m : Map κ ν) : List (κ × ν) := m.entries.map fun e => (e.1, e.2)

def isEmpty (m : Map κ ν) : Bool := m.entries.isEmpty

def retain (p : κ → ν → Bool) (m : Map κ ν) : Map κ ν where
  entries := m.entries.filter fun e => p e.1 e.2
  nodupKeys := m.nodupKeys.sublist List.filter_sublist

/-- `iter_mut`: change every value. -/
def mapValues (f : ν → ν) (m : Map κ ν) : Map κ ν where
  entries := m.entries.map fun e => ⟨e.1, f e.2⟩
  nodupKeys := by
    have keys : (m.entries.map fun e => (⟨e.1, f e.2⟩ : Sigma fun _ : κ => ν)).keys =
        m.entries.keys := by
      simp [List.keys, Function.comp_def]
    rw [List.NodupKeys, keys]
    exact m.nodupKeys

variable (m : Map κ ν)

theorem pairs_retain (p : κ → ν → Bool) :
    pairs (retain p m) = (pairs m).filter fun e => p e.1 e.2 := by
  simp [pairs, retain, filter_map, Function.comp_def]

theorem pairs_mapValues (f : ν → ν) : pairs (mapValues f m) = (pairs m).map fun e => (e.1, f e.2) := by
  simp [pairs, mapValues, Function.comp_def]

theorem pairs_keys_nodup : ((pairs m).map Prod.fst).Nodup := by
  have keys : (pairs m).map Prod.fst = m.entries.keys := by
    simp [pairs, List.keys, Function.comp_def]
  rw [keys]
  exact m.nodupKeys

end Entries

section Lookup
variable {κ ν : Type} [DecidableEq κ]

def get (m : Map κ ν) (k : κ) : Option ν := m.lookup k

/-- `get_mut`: change the value of a key that is present. -/
def adjust (m : Map κ ν) (k : κ) (f : ν → ν) : Map κ ν :=
  match get m k with
  | some v => m.insert k (f v)
  | none => m

/-- `entry(k).or_insert(fresh)`, then a change of the entry. -/
def upsert (m : Map κ ν) (k : κ) (fresh : ν) (f : ν → ν) : Map κ ν :=
  m.insert k (f ((get m k).getD fresh))

def assign (m : Map κ ν) : Option (κ × ν) → Map κ ν
  | none => m
  | some e => m.insert e.1 e.2

def lastValue (writes : List (κ × ν)) (k : κ) : Option ν :=
  writes.foldl (fun seen w => if w.1 = k then some w.2 else seen) none

section Assignments
variable (k : κ)

@[simp] theorem lastValue_nil : lastValue ([] : List (κ × ν)) k = none := rfl

theorem foldl_lastValue (writes : List (κ × ν)) (seen : Option ν) :
    writes.foldl (fun seen w => if w.1 = k then some w.2 else seen) seen =
      (lastValue writes k).or seen := by
  induction writes generalizing seen with
  | nil => rfl
  | cons w writes ih =>
    rw [lastValue, foldl_cons, foldl_cons, ih, ih]
    cases lastValue writes k with
    | some v => rfl
    | none => split <;> rfl

theorem lastValue_append (before after : List (κ × ν)) :
    lastValue (before ++ after) k = (lastValue after k).or (lastValue before k) := by
  rw [lastValue, foldl_append, foldl_lastValue]
  rfl

theorem lastValue_cons (w : κ × ν) (writes : List (κ × ν)) :
    lastValue (w :: writes) k = (lastValue writes k).or (if w.1 = k then some w.2 else none) :=
  lastValue_append k [w] writes

theorem lastValue_map {μ : Type} (f : ν → μ) (writes : List (κ × ν)) :
    lastValue (writes.map fun w => (w.1, f w.2)) k = (lastValue writes k).map f := by
  induction writes with
  | nil => rfl
  | cons w writes ih =>
    rw [map_cons, lastValue_cons, lastValue_cons, ih]
    cases lastValue writes k with
    | some v => rfl
    | none => split <;> rfl

variable {v : ν} {α : Type}

variable {writes : List (κ × ν)}

theorem lastValue_mem (last : lastValue writes k = some v) :
    (k, v) ∈ writes := by
  induction writes with
  | nil => cases last
  | cons w writes ih =>
    rw [lastValue_cons, Option.or_eq_some_iff] at last
    rcases last with later | ⟨_, here⟩
    · exact mem_cons_of_mem w (ih later)
    · split at here
      · rename_i same
        cases here
        subst same
        exact mem_cons_self
      · cases here

theorem lastValue_isSome :
    (lastValue writes k).isSome = true ↔ k ∈ writes.map Prod.fst := by
  induction writes with
  | nil => simp
  | cons w writes ih =>
    rw [lastValue_cons, Option.isSome_or, Bool.or_eq_true, ih, map_cons, mem_cons, or_comm]
    refine or_congr ?_ Iff.rfl
    split
    · rename_i same
      simp [same]
    · rename_i other
      simp [Ne.symm other]

theorem lastValue_of_nodup (distinct : (writes.map Prod.fst).Nodup) :
    lastValue writes k = some v ↔ (k, v) ∈ writes := by
  constructor
  · exact lastValue_mem k
  · intro member
    obtain ⟨w, last⟩ := Option.isSome_iff_exists.mp
      ((lastValue_isSome k).mpr (mem_map.mpr ⟨(k, v), member, rfl⟩))
    have same := inj_on_of_nodup_map distinct (lastValue_mem k last) member rfl
    rw [last, (Prod.mk.inj same).2]

theorem lastValue_flatMap_some {block : α → List (κ × ν)} {entries : List α}
    (found : lastValue (entries.flatMap block) k = some v) :
    ∃ a ∈ entries, lastValue (block a) k = some v := by
  induction entries with
  | nil => simp at found
  | cons a entries ih =>
    rw [flatMap_cons, lastValue_append, Option.or_eq_some_iff] at found
    rcases found with later | ⟨_, here⟩
    · obtain ⟨other, member, holds⟩ := ih later
      exact ⟨other, mem_cons_of_mem a member, holds⟩
    · exact ⟨a, mem_cons_self, here⟩

theorem lastValue_flatMap_isSome {block : α → List (κ × ν)} {entries : List α} {a : α}
    (member : a ∈ entries) (writes : (lastValue (block a) k).isSome) :
    (lastValue (entries.flatMap block) k).isSome := by
  rw [lastValue_isSome, mem_map] at writes ⊢
  obtain ⟨w, inside, same⟩ := writes
  exact ⟨w, mem_flatMap.mpr ⟨a, member, inside⟩, same⟩

/-- Blocks assigned in an unknown order leave a known value exactly when every block that
    writes the key ends on that value. -/
theorem lastValue_every_order (entries : List α) (chosen : α → Bool) (block : α → List (κ × ν))
    (x : Option ν) :
    (∀ order : List α, order.Perm entries →
      lastValue ((order.filter chosen).flatMap block) k = x) ↔
      (∀ a ∈ entries, chosen a → ∀ v, lastValue (block a) k = some v → x = some v) ∧
      ∀ v, x = some v → ∃ a ∈ entries, chosen a ∧ lastValue (block a) k = some v := by
  constructor
  · intro always
    constructor
    · intro a member taken v ends
      -- the order that leaves this block for the end
      obtain ⟨before, after, rfl⟩ := append_of_mem member
      have order : (before ++ after ++ [a]).Perm (before ++ a :: after) := by
        rw [append_assoc]
        apply List.Perm.append_left
        exact perm_append_singleton a after
      have left := always _ order
      have last : [a].filter chosen = [a] := by simp [taken]
      rw [filter_append, last, flatMap_append, lastValue_append, flatMap_singleton,
        ends, Option.some_or] at left
      exact left.symm
    · intro v known
      have left := always entries (List.Perm.refl entries)
      obtain ⟨a, member, ends⟩ := lastValue_flatMap_some k (left.trans known)
      rw [mem_filter] at member
      exact ⟨a, member.1, member.2, ends⟩
  · intro ⟨agree, carried⟩ order perm
    cases found : lastValue ((order.filter chosen).flatMap block) k with
    | some v =>
      obtain ⟨a, member, ends⟩ := lastValue_flatMap_some k found
      rw [mem_filter] at member
      exact (agree a (perm.mem_iff.mp member.1) member.2 v ends).symm
    | none =>
      cases known : x with
      | none => rfl
      | some v =>
        obtain ⟨a, member, taken, ends⟩ := carried v known
        have inside : a ∈ order.filter chosen := mem_filter.mpr ⟨perm.mem_iff.mpr member, taken⟩
        have written := lastValue_flatMap_isSome k inside (by rw [ends]; rfl)
        rw [found] at written
        cases written

end Assignments

variable (m : Map κ ν) (k j : κ)

@[simp] theorem get_empty : get (∅ : Map κ ν) j = none := AList.lookup_empty j

theorem get_insert (v : ν) : get (m.insert k v) j = if j = k then some v else get m j := by
  rcases eq_or_ne j k with rfl | other
  · simp [get]
  · simp [get, other]

theorem get_erase : get (m.erase k) j = if j = k then none else get m j := by
  rcases eq_or_ne j k with rfl | other
  · simp [get]
  · simp [get, other]

theorem get_adjust (f : ν → ν) :
    get (adjust m k f) j = if j = k then (get m k).map f else get m j := by
  unfold adjust
  cases found : get m k with
  | none =>
    rcases eq_or_ne j k with rfl | other
    · simp [found]
    · simp [other]
  | some v => simp [get_insert]

theorem get_upsert (fresh : ν) (f : ν → ν) :
    get (upsert m k fresh f) j = if j = k then some (f ((get m k).getD fresh)) else get m j :=
  get_insert m k j _

section Entries
variable {m : Map κ ν} {k : κ} {P : κ → ν → Prop} (others : ∀ j w, get m j = some w → P j w)
include others

theorem forall_insert {v : ν} (new : P k v) : ∀ j w, get (m.insert k v) j = some w → P j w := by
  intro j w found
  rw [get_insert] at found
  split at found
  · rename_i same
    cases found
    exact same ▸ new
  · exact others j w found

theorem forall_adjust {f : ν → ν} (changed : ∀ v, get m k = some v → P k (f v)) :
    ∀ j w, get (adjust m k f) j = some w → P j w := by
  intro j w found
  rw [get_adjust] at found
  split at found
  · rename_i same
    obtain ⟨before, was, rfl⟩ := Option.map_eq_some_iff.mp found
    exact same ▸ changed before was
  · exact others j w found

end Entries

theorem mem_pairs {m : Map κ ν} {k : κ} {v : ν} : (k, v) ∈ pairs m ↔ get m k = some v := by
  have entry : get m k = some v ↔ (⟨k, v⟩ : Sigma fun _ : κ => ν) ∈ m.entries := AList.mem_lookup_iff
  rw [entry, pairs, mem_map]
  constructor
  · rintro ⟨⟨a, b⟩, member, same⟩
    obtain ⟨rfl, rfl⟩ := same
    exact member
  · intro member
    exact ⟨⟨k, v⟩, member, rfl⟩

theorem get_retain (p : κ → ν → Bool) : get (retain p m) k = (get m k).filter (p k) := by
  refine Option.ext fun v => ?_
  rw [← mem_pairs, pairs_retain, mem_filter, mem_pairs, Option.filter_eq_some_iff]

theorem get_mapValues (f : ν → ν) : get (mapValues f m) k = (get m k).map f := by
  refine Option.ext fun v => ?_
  rw [← mem_pairs, pairs_mapValues, mem_map, Option.map_eq_some_iff]
  constructor
  · rintro ⟨⟨a, b⟩, member, same⟩
    obtain ⟨rfl, rfl⟩ := same
    exact ⟨b, mem_pairs.mp member, rfl⟩
  · rintro ⟨b, found, rfl⟩
    exact ⟨(k, b), mem_pairs.mpr found, rfl⟩

theorem isEmpty_iff : isEmpty m = true ↔ ∀ k, get m k = none := by
  have entries : isEmpty m = true ↔ pairs m = [] := by
    rw [isEmpty, List.isEmpty_iff, pairs, List.map_eq_nil_iff]
  rw [entries]
  constructor
  · intro none k
    by_contra held
    obtain ⟨v, found⟩ := Option.ne_none_iff_exists'.mp held
    have member := mem_pairs.mpr found
    rw [none] at member
    cases member
  · intro absent
    rw [eq_nil_iff_forall_not_mem]
    rintro ⟨k, v⟩ member
    have found := mem_pairs.mp member
    rw [absent k] at found
    cases found

theorem get_assignments {α : Type} (entry : α → Option (κ × ν)) (steps : List α) :
    get (steps.foldl (fun m a => assign m (entry a)) m) k =
      (lastValue (steps.filterMap entry) k).or (get m k) := by
  induction steps generalizing m with
  | nil => rfl
  | cons a steps ih =>
    rw [foldl_cons, ih]
    cases made : entry a with
    | none => rw [filterMap_cons_none made, assign]
    | some e =>
      rw [filterMap_cons_some made, lastValue_cons, assign, get_insert]
      by_cases same : e.1 = k
      · simp [same]
      · simp [same, Ne.symm same]

section Inserts
variable {α : Type} {name : α → κ} {value : α → ν} {l : List α}

theorem get_inserts_eq : get (l.foldl (fun m b => m.insert (name b) (value b)) m) k =
    (lastValue (l.map fun b => (name b, value b)) k).or (get m k) := by
  rw [← filterMap_eq_map]
  exact get_assignments m k (fun b => some (name b, value b)) l

theorem get_inserts_absent (absent : ∀ b ∈ l, name b ≠ k) :
    get (l.foldl (fun m b => m.insert (name b) (value b)) m) k = get m k := by
  have none : lastValue (l.map fun b => (name b, value b)) k = none := by
    rw [← Option.not_isSome_iff_eq_none, lastValue_isSome]
    simpa using absent
  rw [get_inserts_eq, none, Option.none_or]

theorem get_inserts {a : α} (member : a ∈ l) (agree : ∀ b ∈ l, name b = name a → value b = value a) :
    get (l.foldl (fun m b => m.insert (name b) (value b)) m) (name a) = some (value a) := by
  have written : (lastValue (l.map fun b => (name b, value b)) (name a)).isSome := by
    rw [lastValue_isSome, map_map]
    exact mem_map_of_mem member
  obtain ⟨v, last⟩ := Option.isSome_iff_exists.mp written
  obtain ⟨b, inside, same⟩ := mem_map.mp (lastValue_mem _ last)
  obtain ⟨named, rfl⟩ := Prod.mk.inj same
  rw [get_inserts_eq, last, Option.some_or, agree b inside named]

end Inserts
end Lookup

section Totals
variable {κ ν : Type}

def total (measure : ν → Nat) (m : Map κ ν) : Nat := ((pairs m).map fun e => measure e.2).sum

variable [DecidableEq κ] (measure : ν → Nat) (m : Map κ ν) (k : κ)

def share : Nat := ((get m k).map measure).getD 0

theorem total_erase : total measure (m.erase k) + share measure m k = total measure m := by
  by_cases present : k ∈ m
  · obtain ⟨v, before, after, _, split, erased⟩ := exists_of_kerase (AList.mem_keys.mp present)
    have found : get m k = some v :=
      mem_pairs.mp (by rw [pairs, split]; simp)
    have left : pairs (m.erase k) = before.map (fun e => (e.1, e.2)) ++ after.map fun e => (e.1, e.2) := by
      rw [← map_append, ← erased]
      rfl
    have whole : pairs m = before.map (fun e => (e.1, e.2)) ++ (k, v) :: after.map fun e => (e.1, e.2) := by
      rw [pairs, split, map_append, map_cons]
    unfold total share
    rw [left, whole, found]
    simp only [map_append, map_cons, sum_append, sum_cons, Option.map_some, Option.getD_some]
    omega
  · have absent : get m k = none := AList.lookup_eq_none.mpr present
    have same : m.erase k = m := AList.ext (kerase_of_notMem_keys present)
    rw [share, absent, same]
    rfl

theorem total_insert (v : ν) :
    total measure (m.insert k v) + share measure m k = total measure m + measure v := by
  have erased := total_erase measure m k
  have inserted : total measure (m.insert k v) = measure v + total measure (m.erase k) := by
    unfold total pairs
    rw [AList.entries_insert]
    rfl
  omega

theorem pairs_length_insert (v : ν) : (pairs (m.insert k v)).length ≤ (pairs m).length + 1 := by
  have counted := total_insert (fun _ => 1) m k v
  simp only [total, map_const', sum_replicate, smul_eq_mul, mul_one] at counted
  omega

end Totals
end KeyedMaps
