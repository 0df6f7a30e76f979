import SochDB.Library.Cycles

/-!
Serializability over a versioned store. A transaction reads the state left by all that
ended before it began, and its writes take effect when it ends. If no cycle of conflicts
has a pivot, a transaction that missed the write of another one that ended first and is
itself followed by nothing earlier, then some serial order explains every read.
-/
namespace Serialization
open Cycles List Option

inductive Access (κ ν : Type) where
  | read (key : κ) (value : ν)
  | write (key : κ) (value : ν)
  deriving DecidableEq, Repr

structure Txn (κ ν : Type) where
  began : Nat
  ended : Nat
  accesses : List (Access κ ν)
  deriving DecidableEq, Repr

section Chronicles
variable {κ ν : Type}

structure Chronicle (h : List (Txn κ ν)) : Prop where
  sorted : h.Pairwise fun a b => a.ended < b.ended
  spans : ∀ t ∈ h, t.began ≤ t.ended

variable {h : List (Txn κ ν)}

theorem ended_nodup (sorted : h.Pairwise fun a b => a.ended < b.ended) :
    (h.map Txn.ended).Nodup :=
  (pairwise_map.mpr sorted).imp Nat.ne_of_lt

theorem Chronicle.nodup (chronicle : Chronicle h) : h.Nodup :=
  List.Nodup.of_map _ (ended_nodup chronicle.sorted)

theorem Chronicle.ended_inj (chronicle : Chronicle h) {a b : Txn κ ν} (first : a ∈ h) (second : b ∈ h)
    (same : a.ended = b.ended) : a = b :=
  inj_on_of_nodup_map (ended_nodup chronicle.sorted) first second same

theorem eq_of_ended_sorted {first second : List (Txn κ ν)}
    (sorted : first.Pairwise fun a b => a.ended < b.ended)
    (also : second.Pairwise fun a b => a.ended < b.ended)
    (same : ∀ t, t ∈ first ↔ t ∈ second) : first = second := by
  have perm : first.Perm second :=
    (perm_ext_iff_of_nodup (List.Nodup.of_map _ (ended_nodup sorted))
      (List.Nodup.of_map _ (ended_nodup also))).mpr same
  refine perm.eq_of_pairwise ?_ sorted also
  intro a b _ _ before after
  omega

end Chronicles

section Accesses
variable {κ ν : Type}

def readsOutside : List (Access κ ν) → κ → Prop
  | [], _ => False
  | .read j _ :: rest, k => j = k ∨ readsOutside rest k
  | .write j _ :: rest, k => j ≠ k ∧ readsOutside rest k

variable {k : κ} {db db' : κ → ν} {accesses : List (Access κ ν)}

theorem readsOutside_append {first : List (Access κ ν)} {a : Access κ ν}
    (reads : readsOutside (first ++ [a]) k) :
    readsOutside first k ∨ ∃ v, a = .read k v := by
  induction first with
  | nil =>
    cases a with
    | read j v =>
      rcases reads with rfl | none
      · exact .inr ⟨v, rfl⟩
      · cases none
    | write j v => cases reads.2
  | cons b first ih =>
    cases b with
    | read j v =>
      rcases reads with same | later
      · exact .inl (.inl same)
      · exact (ih later).imp_left .inr
    | write j v => exact (ih reads.2).imp_left fun earlier => ⟨reads.1, earlier⟩

variable [DecidableEq κ]

def writes (accesses : List (Access κ ν)) (k : κ) : Bool :=
  accesses.any fun
    | .write j _ => j = k
    | .read _ _ => false

def effect (db : κ → ν) : List (Access κ ν) → κ → ν
  | [] => db
  | .read _ _ :: rest => effect db rest
  | .write k v :: rest => effect (Function.update db k v) rest

def lastWrite : List (Access κ ν) → κ → Option ν
  | [], _ => none
  | .read _ _ :: rest, k => lastWrite rest k
  | .write j v :: rest, k => (lastWrite rest k).or (if j = k then some v else none)

/-- One access after the other; a read must find the value that it returned. -/
def perform [DecidableEq ν] (db : κ → ν) : List (Access κ ν) → Option (κ → ν)
  | [] => some db
  | .read k v :: rest => if db k = v then perform db rest else none
  | .write k v :: rest => perform (Function.update db k v) rest

theorem effect_congr (same : db k = db' k) (accesses : List (Access κ ν)) :
    effect db accesses k = effect db' accesses k := by
  induction accesses generalizing db db' with
  | nil => exact same
  | cons a rest ih =>
    cases a with
    | read j v => exact ih same
    | write j v =>
      refine ih ?_
      rcases eq_or_ne k j with rfl | other
      · simp
      · simpa [Function.update_of_ne other] using same

theorem effect_unwritten (unwritten : writes accesses k = false) (db : κ → ν) :
    effect db accesses k = db k := by
  induction accesses generalizing db with
  | nil => rfl
  | cons a rest ih =>
    cases a with
    | read j v => exact ih (by simpa [writes] using unwritten) db
    | write j v =>
      simp only [writes, any_cons, Bool.or_eq_false_iff, decide_eq_false_iff_not] at unwritten
      rw [effect, ih unwritten.2, Function.update_of_ne (Ne.symm unwritten.1)]

theorem effect_eq (db : κ → ν) (accesses : List (Access κ ν)) (k : κ) :
    effect db accesses k = (lastWrite accesses k).getD (db k) := by
  induction accesses generalizing db with
  | nil => rfl
  | cons a rest ih =>
    cases a with
    | read j v => exact ih db
    | write j v =>
      rw [effect, ih, lastWrite]
      cases lastWrite rest k with
      | some w => rfl
      | none =>
        rcases eq_or_ne j k with rfl | other
        · simp
        · simp [other, Function.update_of_ne (Ne.symm other)]

theorem writes_iff_lastWrite :
    writes accesses k = true ↔ (lastWrite accesses k).isSome = true := by
  induction accesses with
  | nil => simp [writes, lastWrite]
  | cons a rest ih =>
    cases a with
    | read j v => simpa [writes, lastWrite] using ih
    | write j v =>
      simp only [writes] at ih
      simp only [writes, any_cons, Bool.or_eq_true, decide_eq_true_eq, ih, lastWrite,
        isSome_or]
      rw [or_comm]
      by_cases same : j = k <;> simp [same]

theorem lastWrite_append (first rest : List (Access κ ν)) (k : κ) :
    lastWrite (first ++ rest) k = (lastWrite rest k).or (lastWrite first k) := by
  induction first with
  | nil => simp [lastWrite]
  | cons a first ih =>
    cases a with
    | read j v => exact ih
    | write j v => rw [cons_append, lastWrite, ih, lastWrite, Option.or_assoc]

variable [DecidableEq ν]

theorem perform_append (db : κ → ν) (first rest : List (Access κ ν)) :
    perform db (first ++ rest) = (perform db first).bind (perform · rest) := by
  induction first generalizing db with
  | nil => rfl
  | cons a first ih =>
    cases a with
    | read k v =>
      simp only [cons_append, perform]
      split
      · exact ih db
      · rfl
    | write k v => exact ih (Function.update db k v)

theorem perform_effect (done : perform db accesses = some db') : db' = effect db accesses := by
  induction accesses generalizing db with
  | nil => exact (some.inj done).symm
  | cons a rest ih =>
    cases a with
    | read k v =>
      rw [perform] at done
      split at done
      · exact ih done
      · cases done
    | write k v => exact ih done

theorem perform_append_one (a : Access κ ν) (done : (perform db accesses).isSome)
    (answered : ∀ k v, a = .read k v → (lastWrite accesses k).getD (db k) = v) :
    (perform db (accesses ++ [a])).isSome := by
  obtain ⟨db', result⟩ := isSome_iff_exists.mp done
  rw [perform_append, result, bind_some]
  cases a with
  | read k v =>
    have found : db' k = v := by
      rw [perform_effect result, effect_eq]
      exact answered k v rfl
    simp [perform, found]
  | write k v => rfl

theorem perform_of_agree (done : (perform db accesses).isSome)
    (agree : ∀ k, readsOutside accesses k → db' k = db k) :
    perform db' accesses = some (effect db' accesses) := by
  induction accesses generalizing db db' with
  | nil => rfl
  | cons a rest ih =>
    cases a with
    | read k v =>
      rw [perform] at done
      split at done
      · rename_i found
        have also : db' k = v := (agree k (.inl rfl)).trans found
        rw [perform, if_pos also]
        exact ih done fun j outside => agree j (.inr outside)
      · cases done
    | write k v =>
      refine ih done fun j outside => ?_
      rcases eq_or_ne j k with rfl | other
      · simp
      · rw [Function.update_of_ne other, Function.update_of_ne other]
        exact agree j ⟨Ne.symm other, outside⟩

end Accesses

section Histories
variable {κ ν : Type} [DecidableEq κ] (init : κ → ν)

def settle (h : List (Txn κ ν)) : κ → ν := h.foldl (fun db t => effect db t.accesses) init

def snapshot (h : List (Txn κ ν)) (s : Nat) : κ → ν := settle init (h.filter fun t => t.ended < s)

theorem settle_append (h : List (Txn κ ν)) (t : Txn κ ν) :
    settle init (h ++ [t]) = effect (settle init h) t.accesses := by
  simp [settle]

section Snapshots
variable {init} {h : List (Txn κ ν)} {t : Txn κ ν} {s : Nat}

theorem snapshot_append_unseen (unseen : s ≤ t.ended) :
    snapshot init (h ++ [t]) s = snapshot init h s := by
  rw [snapshot, filter_append, filter_cons_of_neg (by simpa using unseen), filter_nil,
    append_nil]
  rfl

theorem snapshot_append_seen (seen : t.ended < s) :
    snapshot init (h ++ [t]) s = effect (snapshot init h s) t.accesses := by
  rw [snapshot, filter_append, filter_cons_of_pos (by simpa using seen), filter_nil,
    settle_append]
  rfl

theorem snapshot_all (seen : ∀ t ∈ h, t.ended < s) : snapshot init h s = settle init h := by
  rw [snapshot, filter_eq_self.mpr (by simpa using seen)]

end Snapshots

theorem settle_writers {db db' : κ → ν} {k : κ} (same : db k = db' k) (h : List (Txn κ ν)) :
    settle db h k = settle db' (h.filter fun t => writes t.accesses k) k := by
  induction h generalizing db db' with
  | nil => exact same
  | cons t h ih =>
    cases writing : writes t.accesses k with
    | true =>
      rw [filter_cons_of_pos (by simpa using writing)]
      exact ih (effect_congr same t.accesses)
    | false =>
      rw [filter_cons_of_neg (by simp [writing])]
      exact ih ((effect_unwritten writing db).trans same)

theorem settle_eq_of_writers {k : κ} {h h' : List (Txn κ ν)}
    (same : (h.filter fun t => writes t.accesses k) = h'.filter fun t => writes t.accesses k) :
    settle init h k = settle init h' k := by
  rw [settle_writers rfl h, same, ← settle_writers rfl h']

/-- One transaction has to come before the other in every serial order that explains
    the history. -/
inductive Conflict (a b : Txn κ ν) : Prop where
  | writeWrite (k : κ) (first : writes a.accesses k) (second : writes b.accesses k)
      (order : a.ended < b.ended)
  | writeRead (k : κ) (first : writes a.accesses k) (second : readsOutside b.accesses k)
      (order : a.ended < b.began)
  | readWrite (k : κ) (first : readsOutside a.accesses k) (second : writes b.accesses k)
      (order : a.began ≤ b.ended) (other : a.ended ≠ b.ended)

/-- A transaction that missed a write of one that ended before it and no later than `a`,
    and that wrote what `a` wrote before it or read in a snapshot without it. -/
structure Pivot (a b c : Txn κ ν) : Prop where
  missed : ∃ k, readsOutside b.accesses k ∧ writes c.accesses k
  overlap : b.began ≤ c.ended
  earlier : c.ended < b.ended
  earliest : c.ended ≤ a.ended
  follows : ∃ k, writes b.accesses k ∧ (writes a.accesses k ∧ a.ended < b.ended ∨
    readsOutside a.accesses k ∧ a.began ≤ b.ended ∧ a.ended ≠ b.ended)

section Orders
variable {init} {h order : List (Txn κ ν)}

structure Respects (order h : List (Txn κ ν)) : Prop where
  perm : order.Perm h
  forward : order.Pairwise fun a b => ¬ Conflict b a

/-- Without a cycle the conflicts extend to a linear order, and the history is sorted
    along it. -/
theorem exists_respecting (chronicle : Chronicle h)
    (acyclic : ∀ t, ¬ Relation.TransGen (fun a b => a ∈ h ∧ b ∈ h ∧ Conflict a b) t t) :
    ∃ order, Respects order h := by
  classical
  let before : Txn κ ν → Txn κ ν → Prop :=
    Relation.ReflTransGen fun a b => a ∈ h ∧ b ∈ h ∧ Conflict a b
  have antisymmetric : ∀ a b, before a b → before b a → a = b := by
    intro a b there back
    by_contra different
    rcases Relation.reflTransGen_iff_eq_or_transGen.mp there with same | there
    · exact different same.symm
    · exact acyclic a (there.trans_left back)
  have : IsPartialOrder (Txn κ ν) before :=
    { refl := fun _ => Relation.ReflTransGen.refl
      trans := fun _ _ _ => Relation.ReflTransGen.trans
      antisymm := antisymmetric }
  obtain ⟨linear, total, extended⟩ := extend_partialOrder before
  refine ⟨h.insertionSort linear, h.perm_insertionSort linear, ?_⟩
  have sorted := pairwise_insertionSort linear h
  have distinct : (h.insertionSort linear).Nodup :=
    (h.perm_insertionSort linear).nodup_iff.mpr chronicle.nodup
  refine (sorted.and distinct).imp_of_mem ?_
  rintro a b onA onB ⟨first, different⟩ conflict
  have inA : a ∈ h := (h.perm_insertionSort linear).mem_iff.mp onA
  have inB : b ∈ h := (h.perm_insertionSort linear).mem_iff.mp onB
  have second : linear b a := extended b a (Relation.ReflTransGen.single ⟨inB, inA, conflict⟩)
  exact different (antisymm first second)

theorem Respects.nodup (respects : Respects order h) (chronicle : Chronicle h) : order.Nodup :=
  respects.perm.nodup_iff.mpr chronicle.nodup

theorem Respects.writers_sorted (respects : Respects order h) (chronicle : Chronicle h) (k : κ) :
    (order.filter fun t => writes t.accesses k).Pairwise fun a b => a.ended < b.ended := by
  refine (List.Pairwise.filter _ (respects.forward.and (respects.nodup chronicle))).imp_of_mem ?_
  rintro a b onA onB ⟨forward, different⟩
  obtain ⟨memberA, writesA⟩ := mem_filter.mp onA
  obtain ⟨memberB, writesB⟩ := mem_filter.mp onB
  have distinct : a.ended ≠ b.ended := fun same => different
    (chronicle.ended_inj (respects.perm.mem_iff.mp memberA) (respects.perm.mem_iff.mp memberB) same)
  by_contra later
  exact forward (.writeWrite k writesB writesA (by omega))

theorem Respects.reads_snapshot (respects : Respects order h) (chronicle : Chronicle h)
    {before after : List (Txn κ ν)} {t : Txn κ ν} (split : order = before ++ t :: after) {k : κ}
    (reads : readsOutside t.accesses k) : settle init before k = snapshot init h t.began k := by
  have member : ∀ x, x ∈ before ∨ x = t ∨ x ∈ after ↔ x ∈ h := by
    intro x
    rw [← respects.perm.mem_iff, split]
    simp
  have onT : t ∈ h := (member t).mp (.inr (.inl rfl))
  have span := chronicle.spans t onT
  have forward := respects.forward
  have distinct := respects.nodup chronicle
  rw [split, pairwise_append] at forward
  rw [split, nodup_append] at distinct
  refine settle_eq_of_writers init (eq_of_ended_sorted ?_ ?_ fun x => ?_)
  · refine (respects.writers_sorted chronicle k).sublist ?_
    rw [split]
    exact (sublist_append_left _ _).filter _
  · exact chronicle.sorted.sublist (filter_sublist.trans filter_sublist)
  · simp only [mem_filter, decide_eq_true_eq]
    constructor
    · rintro ⟨earlier, writing⟩
      have onX : x ∈ h := (member x).mp (.inl earlier)
      refine ⟨⟨onX, ?_⟩, writing⟩
      by_contra late
      have apart : t.ended ≠ x.ended := fun same =>
        distinct.2.2 x earlier t (by simp) (chronicle.ended_inj onT onX same).symm
      exact forward.2.2 x earlier t (by simp) (.readWrite k reads writing (by omega) apart)
    · rintro ⟨⟨onX, visible⟩, writing⟩
      refine ⟨?_, writing⟩
      rcases (member x).mpr onX with earlier | rfl | later
      · exact earlier
      · omega
      · exact absurd (.writeRead k writing reads visible)
          ((pairwise_cons.mp forward.2.1).1 x later)

theorem pivot_of_conflicts (chronicle : Chronicle h) {a b c : Txn κ ν} (onB : b ∈ h) (onC : c ∈ h)
    (first : Conflict a b) (second : Conflict b c) (earliest : c.ended ≤ a.ended)
    (earlier : c.ended ≤ b.ended) : Pivot a b c := by
  have spanB := chronicle.spans b onB
  have spanC := chronicle.spans c onC
  rcases second with ⟨k, _, _, order⟩ | ⟨k, _, _, order⟩ | ⟨k, reads, overwrites, overlap, other⟩
  · omega
  · omega
  · have before : c.ended < b.ended := by omega
    refine ⟨⟨k, reads, overwrites⟩, overlap, before, earliest, ?_⟩
    rcases first with ⟨j, one, two, order⟩ | ⟨j, _, _, order⟩ | ⟨j, one, two, order, apart⟩
    · exact ⟨j, two, .inl ⟨one, order⟩⟩
    · omega
    · exact ⟨j, two, .inr ⟨one, order, apart⟩⟩

variable [DecidableEq ν]

def Consistent (init : κ → ν) (h : List (Txn κ ν)) : Prop :=
  ∀ t ∈ h, (perform (snapshot init h t.began) t.accesses).isSome

theorem Respects.performs_front (respects : Respects order h) (chronicle : Chronicle h)
    (consistent : Consistent init h) {before after : List (Txn κ ν)}
    (split : order = before ++ after) :
    perform init (before.flatMap Txn.accesses) = some (settle init before) := by
  induction before using List.reverseRecOn generalizing after with
  | nil => rfl
  | append_singleton before t ih =>
    rw [append_assoc, singleton_append] at split
    have member : t ∈ h := respects.perm.mem_iff.mp (by simp [split])
    rw [flatMap_append, perform_append, ih split, bind_some, settle_append,
      flatMap_singleton]
    exact perform_of_agree (consistent t member) fun k reads =>
      respects.reads_snapshot chronicle split reads

theorem Respects.performs (respects : Respects order h) (chronicle : Chronicle h)
    (consistent : Consistent init h) :
    perform init (order.flatMap Txn.accesses) = some (settle init h) := by
  rw [respects.performs_front chronicle consistent (append_nil order).symm]
  congr 1
  funext k
  refine settle_eq_of_writers init (eq_of_ended_sorted (respects.writers_sorted chronicle k) ?_ ?_)
  · exact chronicle.sorted.sublist filter_sublist
  · intro t
    rw [mem_filter, mem_filter, respects.perm.mem_iff]

/-- Some order of the transactions, run one after the other, answers every read as it was
    answered and ends in the same state. -/
def Serializable (init : κ → ν) (h : List (Txn κ ν)) (final : κ → ν) : Prop :=
  ∃ order : List (Txn κ ν), order.Perm h ∧ perform init (order.flatMap Txn.accesses) = some final

theorem serializable_of_no_pivot (chronicle : Chronicle h) (consistent : Consistent init h)
    (safe : ∀ a ∈ h, ∀ b ∈ h, ∀ c ∈ h, ¬ Pivot a b c) : Serializable init h (settle init h) := by
  obtain ⟨order, respects⟩ : ∃ order, Respects order h := by
    refine exists_respecting chronicle fun t cycle => ?_
    obtain ⟨c, b, a, first, second, earlier, earliest⟩ := least_on_cycle Txn.ended cycle
    exact safe a first.1 b first.2.1 c second.2.1
      (pivot_of_conflicts chronicle first.2.1 second.2.1 first.2.2 second.2.2 earliest earlier)
  exact ⟨order, respects.perm, respects.performs chronicle consistent⟩

end Orders
end Histories
end Serialization
