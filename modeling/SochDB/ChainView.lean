import SochDB.MemTables

/-!
What a memtable is for: a version chain for every key, whichever table and index hold
it. Every memtable operation is one operation on this map of chains.
-/
namespace ChainView
open KeyedMaps WalRecords VersionChains KeyIndexes MemTables List VersionChain Function

abbrev Chains := Bytes → VersionChain

def put (c : Chains) (key : Bytes) (value : Option Bytes) (txnId : Nat) : Chains × Bool :=
  if (c key).hasWriteConflict txnId then (c, false)
  else (Function.update c key ((c key).addUncommitted value txnId), true)

def putAll (c : Chains) (txnId : Nat) : List (Bytes × Option Bytes) → Chains × Bool
  | [] => (c, true)
  | (key, value) :: writes =>
    match put c key value txnId with
    | (c, false) => (c, false)
    | (c, true) => putAll c txnId writes

local instance bytesLawful : LawfulBEq Bytes := inferInstance

def publish (c : Chains) (txnId commitTs : Nat) (keys : List Bytes) : Chains :=
  fun k => if k ∈ keys then (c k).commit txnId commitTs else c k

def rollback (c : Chains) (txnId : Nat) : Chains := fun k => (c k).abort txnId

def collect (c : Chains) (minActiveTs : Nat) (keys : List Bytes) : Chains :=
  fun k => if k ∈ keys then (c k).gc minActiveTs else c k

def reply (taken : Bool) : Except SochDBError Unit := if taken then .ok () else .error writeConflict

theorem commit_idempotent (chain : VersionChain) (txnId commitTs : Nat) :
    (chain.commit txnId commitTs).commit txnId commitTs = chain.commit txnId commitTs := by
  refine commit_other ?_ commitTs
  cases mine : chain.own txnId with
  | none => rw [commit_other mine, mine]
  | some value => simp [VersionChain.own, (commit_own mine commitTs).2]

variable {key : Bytes} {value : Option Bytes} (m : MvccMemTable) (c : Chains)

theorem owner_put (key : Bytes) (value : Option Bytes) (txnId : Nat) (k : Bytes) :
    ((put c key value txnId).1 k).owner =
      if k = key ∧ (put c key value txnId).2 = true then some txnId else (c k).owner := by
  unfold put
  split
  · simp
  · by_cases same : k = key
    · subst same
      simp
    · simp [same]

variable {txnId : Nat}

theorem put_taken {c : Chains} :
    (put c key value txnId).2 = true ↔ ∀ holder, (c key).owner = some holder → holder = txnId := by
  rw [← hasWriteConflict_eq_false]
  unfold put
  split <;> simp [*]

theorem put_refused {c : Chains} (refused : (put c key value txnId).2 = false) :
    put c key value txnId = (c, false) := by
  unfold put at refused ⊢
  split
  · rfl
  · rename_i free
    rw [if_neg free] at refused
    cases refused

theorem putAll_refused {c : Chains} (refused : (put c key value txnId).2 = false)
    (writes : List (Bytes × Option Bytes)) :
    putAll c txnId ((key, value) :: writes) = (c, false) := by
  rw [putAll, put_refused refused]

theorem put_some {c : Chains} (taken : (put c key value txnId).2 = true) :
    put c key value txnId =
      (Function.update c key ((c key).addUncommitted value txnId), true) := by
  unfold put at taken ⊢
  split
  · rename_i conflict
    rw [if_pos conflict] at taken
    cases taken
  · rfl

theorem putAll_cons_taken {c : Chains} (taken : (put c key value txnId).2 = true)
    (writes : List (Bytes × Option Bytes)) :
    putAll c txnId ((key, value) :: writes) =
      putAll (Function.update c key ((c key).addUncommitted value txnId)) txnId writes := by
  rw [putAll, put_some taken]

theorem committed_putAll (txnId : Nat) (writes : List (Bytes × Option Bytes)) (k : Bytes) :
    ((putAll c txnId writes).1 k).committed = (c k).committed := by
  induction writes generalizing c with
  | nil => rfl
  | cons w writes ih =>
    obtain ⟨key, value⟩ := w
    cases taken : (put c key value txnId).2 with
    | false => rw [putAll_refused taken]
    | true =>
      rw [putAll_cons_taken taken, ih]
      rcases eq_or_ne k key with rfl | other
      · rw [update_self, committed_addUncommitted]
      · rw [update_of_ne other]

theorem slot_putAll {c : Chains} {writes : List (Bytes × Option Bytes)}
    (taken : (putAll c txnId writes).2 = true) (k : Bytes) :
    ((putAll c txnId writes).1 k).slot =
      ((lastValue writes k).map fun value => ⟨value, txnId, 0⟩).or (c k).slot := by
  induction writes generalizing c with
  | nil => rfl
  | cons w writes ih =>
    obtain ⟨key, value⟩ := w
    cases first : (put c key value txnId).2 with
    | false =>
      rw [putAll_refused first] at taken
      cases taken
    | true =>
      rw [putAll_cons_taken first] at taken ⊢
      rw [ih taken, lastValue_cons]
      rcases eq_or_ne k key with rfl | other
      · rw [update_self, slot_addUncommitted, if_pos rfl]
        cases lastValue writes k <;> rfl
      · rw [update_of_ne other, if_neg (Ne.symm other), Option.or_none]

theorem putAll_alone {c : Chains}
    (alone : ∀ k holder, (c k).owner = some holder → holder = txnId)
    (writes : List (Bytes × Option Bytes)) : (putAll c txnId writes).2 = true := by
  induction writes generalizing c with
  | nil => rfl
  | cons w writes ih =>
    obtain ⟨key, value⟩ := w
    have taken : (put c key value txnId).2 = true := put_taken.mpr (alone key)
    rw [putAll_cons_taken taken]
    refine ih fun k holder held => ?_
    have owner := owner_put c key value txnId k
    rw [put_some taken] at owner
    rw [owner] at held
    split at held
    · exact (Option.some.inj held).symm
    · exact alone k holder held

theorem owner_putAll (txnId : Nat) (writes : List (Bytes × Option Bytes)) (k : Bytes) (holder : Nat)
    (held : ((putAll c txnId writes).1 k).owner = some holder) :
    (c k).owner = some holder ∨ holder = txnId ∧ k ∈ writes.map Prod.fst := by
  induction writes generalizing c with
  | nil => exact Or.inl held
  | cons w writes ih =>
    obtain ⟨key, value⟩ := w
    have first := owner_put c key value txnId k
    rw [putAll] at held
    rcases taken : put c key value txnId with ⟨c', _ | _⟩
    · rw [taken] at held first
      simp only [Bool.false_eq_true, and_false, if_false] at first
      exact Or.inl (first ▸ held)
    · rw [taken] at held first
      rcases ih c' held with before | ⟨same, later⟩
      · rw [first] at before
        split at before
        · rename_i here
          cases before
          exact Or.inr ⟨rfl, by simp [here]⟩
        · exact Or.inl before
      · exact Or.inr ⟨same, mem_cons_of_mem _ later⟩

theorem owner_putAll_kept (txnId : Nat) (writes : List (Bytes × Option Bytes)) (k : Bytes) {holder : Nat}
    (held : (c k).owner = some holder) : ((putAll c txnId writes).1 k).owner = some holder := by
  induction writes generalizing c with
  | nil => exact held
  | cons w writes ih =>
    obtain ⟨key, value⟩ := w
    cases taken : (put c key value txnId).2 with
    | false => rw [putAll_refused taken, held]
    | true =>
      rw [putAll_cons_taken taken]
      refine ih _ ?_
      rcases eq_or_ne k key with rfl | away
      · rw [update_self, owner_addUncommitted, put_taken.mp taken holder held]
      · rw [update_of_ne away, held]

theorem owner_publish (txnId commitTs : Nat) (keys : List Bytes) (k : Bytes) :
    (publish c txnId commitTs keys k).owner =
      if k ∈ keys ∧ (c k).owner = some txnId then none else (c k).owner := by
  unfold publish
  by_cases member : k ∈ keys
  · simp [member, owner_commit]
  · simp [member]

theorem publish_own {c : Chains} {keys : List Bytes} {k : Bytes} (member : k ∈ keys)
    (mine : (c k).own txnId = some value) (commitTs : Nat) :
    (publish c txnId commitTs keys k).committed =
        Timeline.place Version.commitTs ⟨value, txnId, commitTs⟩ (c k).committed ∧
      (publish c txnId commitTs keys k).slot = none := by
  rw [publish, if_pos member]
  exact commit_own mine commitTs

theorem publish_other {c : Chains} {keys : List Bytes} {k : Bytes}
    (untouched : k ∉ keys ∨ (c k).own txnId = none) (commitTs : Nat) :
    publish c txnId commitTs keys k = c k := by
  unfold publish
  split
  · rename_i member
    exact commit_other (untouched.resolve_left (not_not.mpr member)) commitTs
  · rfl

theorem owner_rollback (txnId : Nat) (k : Bytes) :
    (rollback c txnId k).owner = if (c k).owner = some txnId then none else (c k).owner :=
  owner_abort (c k) txnId

variable (minActiveTs : Nat)

theorem owner_collect (keys : List Bytes) (k : Bytes) :
    (collect c minActiveTs keys k).owner = (c k).owner := by
  unfold collect
  split <;> rfl

theorem own_put (key : Bytes) (value : Option Bytes) (writer : Nat) (k : Bytes) (txnId : Nat) :
    ((put c key value writer).1 k).own txnId =
      if k = key ∧ txnId = writer ∧ (put c key value writer).2 = true then some value
      else (c k).own txnId := by
  cases taken : (put c key value writer).2 with
  | false => simp [put_refused taken]
  | true =>
    rw [put_some taken]
    rcases eq_or_ne k key with rfl | other
    · simp only [update_self, own_addUncommitted]
      rcases eq_or_ne txnId writer with rfl | different
      · simp
      · have free : (c k).own txnId = none := by
          rw [← Option.not_isSome_iff_eq_none, own_isSome]
          exact fun held => different (put_taken.mp taken txnId held)
        simp [different, Ne.symm different, free]
    · simp [other]

theorem own_publish (ended commitTs : Nat) (keys : List Bytes) (k : Bytes)
    (different : txnId ≠ ended) : (publish c ended commitTs keys k).own txnId = (c k).own txnId := by
  unfold publish
  split
  · rw [own_commit, if_neg different]
  · rfl

theorem own_rollback (ended : Nat) (k : Bytes) (different : txnId ≠ ended) :
    (rollback c ended k).own txnId = (c k).own txnId := by
  rw [rollback, own_abort, if_neg different]

section Data
variable {κ : Type} [DecidableEq κ] (f : Bytes → κ)

def view (data : Map κ VersionChain) : Chains := fun k => (get data (f k)).getD VersionChain.new

theorem view_abort (data : Map κ VersionChain) (txnId : Nat) :
    view f (mapValues (·.abort txnId) data) = rollback (view f data) txnId := by
  funext k
  simp only [view, rollback, get_mapValues]
  cases get data (f k) with
  | none => rfl
  | some chain => rfl

variable {f} (injective : Function.Injective f)
include injective

variable (data : Map κ VersionChain)

theorem view_insert (key : Bytes) (chain : VersionChain) :
    view f (data.insert (f key) chain) = Function.update (view f data) key chain := by
  funext k
  by_cases same : k = key
  · subst same
    simp [view, get_insert]
  · simp [view, get_insert, injective.ne same, same]

theorem view_install (key : Bytes) (value : Option Bytes) (txnId : Nat) :
    (view f (install data (f key) value txnId).1, (install data (f key) value txnId).2) =
      put (view f data) key value txnId := by
  have entry : (get data (f key)).getD VersionChain.new = view f data key := rfl
  simp only [install, put, entry]
  split
  · rw [view_insert injective, update_eq_self]
  · rw [view_insert injective]

theorem view_adjust (key : Bytes) {change : VersionChain → VersionChain}
    (empty : change VersionChain.new = VersionChain.new) :
    view f (adjust data (f key) change) =
      Function.update (view f data) key (change (view f data key)) := by
  funext k
  by_cases same : k = key
  · subst same
    simp only [view, get_adjust, if_true, update_self]
    cases get data (f k) with
    | none => simp [empty]
    | some chain => rfl
  · simp [view, get_adjust, injective.ne same, same]

theorem view_commitKeys (txnId commitTs : Nat) (keys : List Bytes) :
    view f (commitKeys data txnId commitTs (keys.map f)) =
      publish (view f data) txnId commitTs keys := by
  induction keys generalizing data with
  | nil => funext k; simp [commitKeys, publish]
  | cons key keys ih =>
    have first : view f (adjust data (f key) (·.commit txnId commitTs)) = _ :=
      view_adjust injective data key (commit_other rfl commitTs)
    refine (ih (adjust data (f key) (·.commit txnId commitTs))).trans ?_
    funext k
    rw [first]
    by_cases same : k = key
    · subst same
      simp [publish, commit_idempotent]
    · simp [publish, same]

end Data

section Collection
variable {κ : Type} [DecidableEq κ]

theorem get_gcKey (acc : Map κ VersionChain × Nat) (key j : κ) :
    get (gcKey minActiveTs acc key).1 j =
      if j = key then (get acc.1 j).map (·.gc minActiveTs) else get acc.1 j := by
  unfold gcKey
  rcases eq_or_ne j key with rfl | other
  · cases found : get acc.1 j with
    | none => simp [found]
    | some chain => simp [get_insert]
  · cases get acc.1 key with
    | none => simp [other]
    | some chain => simp [get_insert, other]

theorem get_gcKeys (acc : Map κ VersionChain × Nat) (keys : List κ)
    (distinct : keys.Nodup) (j : κ) :
    get (keys.foldl (gcKey minActiveTs) acc).1 j =
      if j ∈ keys then (get acc.1 j).map (·.gc minActiveTs) else get acc.1 j := by
  induction keys generalizing acc with
  | nil => simp
  | cons key keys ih =>
    obtain ⟨fresh, rest⟩ := nodup_cons.mp distinct
    rw [foldl_cons, ih _ rest, get_gcKey]
    by_cases same : j = key
    · subst same
      simp [fresh]
    · simp [same]

theorem view_gcKeys (f : Bytes → κ) (data : Map κ VersionChain) (minActiveTs : Nat) (keys : List κ)
    (distinct : keys.Nodup) (k : Bytes) :
    view f (gcKeys data minActiveTs keys).1 k =
      if f k ∈ keys then (view f data k).gc minActiveTs else view f data k := by
  simp only [view, gcKeys, get_gcKeys minActiveTs (data, 0) keys distinct]
  split
  · cases get data (f k) with
    | none => rfl
    | some chain => rfl
  · rfl

end Collection
def chains : MemTableKind → Chains
  | .standard m => view id m.data
  | .arena m => view ArenaKeyHandle.new m.data

def dirtyKeys : MemTableKind → List Bytes
  | .standard m => m.dirtyList.epochs m.dirtyList.idx
  | .arena m => (m.dirtyList.epochs m.dirtyList.idx).map ArenaKeyHandle.asBytes

theorem new_injective : Function.Injective ArenaKeyHandle.new := by
  intro a b same
  have bytes := congrArg ArenaKeyHandle.asBytes same
  simpa using bytes

@[simp] theorem chains_new (kind : MemTableType) (enableOrderedIndex : Bool) :
    chains (.new kind enableOrderedIndex) = fun _ => VersionChain.new := by
  cases kind <;> rfl

@[simp] theorem indexKey_data (m : MvccMemTable) (key : Bytes) : (m.indexKey key).data = m.data := by
  unfold MvccMemTable.indexKey
  split <;> rfl

theorem standard_write (key : Bytes) (value : Option Bytes) (txnId : Nat) :
    view id (m.write key value txnId).1.data = (put (view id m.data) key value txnId).1 ∧
      (m.write key value txnId).2 = reply (put (view id m.data) key value txnId).2 := by
  have installed := view_install injective_id m.data key value txnId
  simp only [id_eq] at installed
  rw [← installed]
  unfold MvccMemTable.write
  simp only [indexKey_data]
  rcases install m.data key value txnId with ⟨data, _ | _⟩ <;> exact ⟨rfl, rfl⟩

theorem arena_write (m : ArenaMvccMemTable) (key : Bytes) (value : Option Bytes) (txnId : Nat) :
    view .new (m.write key value txnId).1.data = (put (view .new m.data) key value txnId).1 ∧
      (m.write key value txnId).2 = reply (put (view .new m.data) key value txnId).2 := by
  have installed := view_install new_injective m.data key value txnId
  rw [← installed]
  simp only [ArenaMvccMemTable.write, ArenaMvccMemTable.trackKey]
  rcases install m.data (.new key) value txnId with ⟨data, _ | _⟩ <;> exact ⟨rfl, rfl⟩

theorem standard_writeEach (txnId totalSize : Nat) (writes : List (Bytes × Option Bytes)) :
    view id (m.writeEach txnId totalSize writes).1.data = (putAll (view id m.data) txnId writes).1 ∧
      (m.writeEach txnId totalSize writes).2 = reply (putAll (view id m.data) txnId writes).2 := by
  induction writes generalizing m totalSize with
  | nil => exact ⟨rfl, rfl⟩
  | cons w writes ih =>
    obtain ⟨key, value⟩ := w
    have installed := view_install injective_id m.data key value txnId
    simp only [id_eq] at installed
    rw [putAll, ← installed]
    unfold MvccMemTable.writeEach
    simp only [indexKey_data]
    rcases install m.data key value txnId with ⟨data, _ | _⟩
    · exact ⟨rfl, rfl⟩
    · exact ih _ _

theorem arena_writeEach (m : ArenaMvccMemTable) (txnId totalSize : Nat)
    (writes : List (Bytes × Option Bytes)) :
    view .new (m.writeEach txnId totalSize writes).1.data =
        (putAll (view .new m.data) txnId writes).1 ∧
      (m.writeEach txnId totalSize writes).2 = reply (putAll (view .new m.data) txnId writes).2 := by
  induction writes generalizing m totalSize with
  | nil => exact ⟨rfl, rfl⟩
  | cons w writes ih =>
    obtain ⟨key, value⟩ := w
    have installed := view_install new_injective m.data key value txnId
    rw [putAll, ← installed]
    simp only [ArenaMvccMemTable.writeEach, ArenaMvccMemTable.trackKey]
    rcases install m.data (.new key) value txnId with ⟨data, _ | _⟩
    · exact ⟨rfl, rfl⟩
    · exact ih _ _

theorem standard_gc : (m.gc minActiveTs).1.data =
    (gcKeys m.data minActiveTs (m.dirtyList.epochs m.dirtyList.idx).dedup).1 := by
  cases dirty : m.dirtyList.epochs m.dirtyList.idx <;>
    simp [MvccMemTable.gc, EpochDirtyList.advanceEpoch, dirty, gcKeys]

theorem arena_gc (m : ArenaMvccMemTable) (minActiveTs : Nat) : (m.gc minActiveTs).1.data =
    (gcKeys m.data minActiveTs (m.dirtyList.epochs m.dirtyList.idx).dedup).1 := by
  cases dirty : m.dirtyList.epochs m.dirtyList.idx <;>
    simp [ArenaMvccMemTable.gc, EpochDirtyList.advanceEpoch, dirty, gcKeys]

theorem mem_asBytes {handles : List ArenaKeyHandle} {k : Bytes} :
    k ∈ handles.map ArenaKeyHandle.asBytes ↔ .new k ∈ handles := by
  rw [mem_map]
  constructor
  · rintro ⟨handle, member, rfl⟩
    rwa [ArenaKeyHandle.new_asBytes]
  · intro member
    exact ⟨.new k, member, ArenaKeyHandle.asBytes_new k⟩

section Tables
variable (table : MemTableKind)

theorem chains_write (key : Bytes) (value : Option Bytes) (txnId : Nat) :
    chains (table.write key value txnId).1 = (put (chains table) key value txnId).1 ∧
      (table.write key value txnId).2 = reply (put (chains table) key value txnId).2 := by
  cases table with
  | standard m => exact standard_write m key value txnId
  | arena m => exact arena_write m key value txnId

theorem chains_writeBatch (writes : List (Bytes × Option Bytes)) (txnId : Nat) :
    chains (table.writeBatch writes txnId).1 = (putAll (chains table) txnId writes).1 ∧
      (table.writeBatch writes txnId).2 = reply (putAll (chains table) txnId writes).2 := by
  cases table with
  | standard m => exact standard_writeEach _ txnId 0 writes
  | arena m => exact arena_writeEach m txnId 0 writes

theorem chains_commit (txnId commitTs : Nat) (writeSet : List Bytes) :
    chains (table.commit txnId commitTs writeSet) =
      publish (chains table) txnId commitTs writeSet := by
  cases table with
  | standard m =>
    have committed := view_commitKeys injective_id m.data txnId commitTs writeSet
    rwa [map_id] at committed
  | arena m => exact view_commitKeys new_injective m.data txnId commitTs writeSet

theorem chains_abort (txnId : Nat) :
    chains (table.abort txnId) = rollback (chains table) txnId := by
  cases table with
  | standard m => exact view_abort id m.data txnId
  | arena m => exact view_abort .new m.data txnId

theorem chains_gc (minActiveTs : Nat) :
    chains (table.gc minActiveTs).1 = collect (chains table) minActiveTs (dirtyKeys table) := by
  funext k
  cases table with
  | standard m =>
    refine (congrFun (congrArg (view id) (standard_gc m minActiveTs)) k).trans ?_
    rw [view_gcKeys id m.data minActiveTs _ (nodup_dedup _) k]
    simp only [collect, dirtyKeys, chains, mem_dedup, id_eq]
    congr
  | arena m =>
    refine (congrFun (congrArg (view .new) (arena_gc m minActiveTs)) k).trans ?_
    rw [view_gcKeys .new m.data minActiveTs _ (nodup_dedup _) k]
    simp only [collect, dirtyKeys, chains, mem_dedup, mem_asBytes]

theorem read_eq (key : Bytes) (snapshotTs : Nat) (currentTxnId : Option Nat) :
    table.read key snapshotTs currentTxnId = readVersion (chains table key) snapshotTs currentTxnId := by
  have absent : readVersion VersionChain.new snapshotTs currentTxnId = none := by
    cases currentTxnId <;> rfl
  cases table with
  | standard m =>
    show readKey m.data key snapshotTs currentTxnId = readVersion (view id m.data key) _ _
    cases found : get m.data key <;> simp [readKey, view, found, absent]
  | arena m =>
    show readKey m.data (.new key) snapshotTs currentTxnId = readVersion (view .new m.data key) _ _
    cases found : get m.data (.new key) <;> simp [readKey, view, found, absent]

end Tables
end ChainView
