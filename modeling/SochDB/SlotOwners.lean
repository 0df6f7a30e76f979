import SochDB.Library.Runs
import SochDB.Recovery

/-!
Who may hold the uncommitted slot of a key. As long as writes come from active
transactions and no transaction that holds a slot fails validation, every slot belongs
to an active transaction, and a key is free as soon as its writers are done.
-/
namespace SlotOwners
open Runs KeyedMaps WalRecords TxnManager BloomFilter VersionChains MemTables ChainView
open StorageEngine EngineSteps Recovery

section
variable {H : KeyHashes} (crc : Crc32fast)

def SlotOwnersActive (s : DurableStorage H) : Prop :=
  ∀ key txnId, holder s key = some txnId → (active s txnId).isSome

def HoldsNothing (s : DurableStorage H) (txnId : Nat) : Prop := ∀ key, holder s key ≠ some txnId

/-- The step writes only for an active transaction, and ends a transaction that holds
    a slot only by a successful commit or by a full abort. -/
def LeavesNoOrphan (s : DurableStorage H) : Op → Prop
  | .writeRefs txnId _ key _ => (active s txnId).isSome ∨ Refused s txnId key
  | .delete txnId _ key => (active s txnId).isSome ∨ Refused s txnId key
  | .writeBatchRefs txnId (first :: _) => (active s txnId).isSome ∨ Refused s txnId first.2.1
  | .commit txnId _ _ => commits s txnId = true ∨ HoldsNothing s txnId
  | .abortReadOnlyFast txnId => HoldsNothing s txnId
  | _ => True

/-- The holder of the slot is active, counts the key among its writes and has a write
    buffer, so that its commit publishes the slot and its abort clears it. -/
def Backed (s : DurableStorage H) (key : Bytes) (txnId : Nat) : Prop :=
  ∃ txn, active s txnId = some txn ∧ key ∈ txn.writeSet ∧ (pendingBuffer s txnId).isSome

def AllBacked (s : DurableStorage H) : Prop := ∀ key txnId, holder s key = some txnId → Backed s key txnId

structure Sound (s : DurableStorage H) : Prop where
  slots_backed : ∀ key txnId, holder s key = some txnId → Backed s key txnId
  ids_issued : ∀ txnId, (active s txnId).isSome → txnId < s.wal.nextTxnId

variable {s s' : DurableStorage H} {txnId : Nat} {key : Bytes}

theorem Sound.owners_active (sound : Sound s) : SlotOwnersActive s := by
  intro key txnId held
  obtain ⟨txn, found, _, _⟩ := sound.slots_backed key txnId held
  rw [found]
  rfl

theorem started_sound (ourPid : UInt32) (file : Bytes) (kind : MemTableType)
    (enableOrderedIndex recovers : Bool) :
    Sound (started crc ourPid file kind enableOrderedIndex recovers : DurableStorage H) := by
  have fresh : Fresh (started crc ourPid file kind enableOrderedIndex recovers : DurableStorage H) :=
    started_fresh crc ourPid file kind enableOrderedIndex recovers
  constructor
  · intro key txnId held
    simp [holder, VersionChain.owner, fresh.slots_free key] at held
  · intro txnId found
    simp [fresh.none_active txnId] at found

def Keeps (s s' : DurableStorage H) (txnId : Nat) : Prop :=
  ∀ txn, active s txnId = some txn → ∃ txn', active s' txnId = some txn' ∧
    txn.writeSet ⊆ txn'.writeSet ∧ ((pendingBuffer s txnId).isSome → (pendingBuffer s' txnId).isSome)

theorem Keeps.of_same (sameActive : active s' txnId = active s txnId)
    (sameBuffer : pendingBuffer s' txnId = pendingBuffer s txnId) : Keeps s s' txnId := by
  intro txn found
  exact ⟨txn, sameActive.trans found, fun _ member => member, fun logged => sameBuffer ▸ logged⟩

theorem Keeps.backed (keeps : Keeps s s' txnId) (backed : Backed s key txnId) : Backed s' key txnId := by
  obtain ⟨txn, found, member, logged⟩ := backed
  obtain ⟨txn', found', more, stays⟩ := keeps txn found
  exact ⟨txn', found', more member, stays logged⟩

section Steps
variable (s : DurableStorage H)
variable (txnId : Nat)

theorem keeps_writeKey (now : UInt64) (key logged : Bytes) (value : Option Bytes) (other : Nat) :
    Keeps s (s.writeKey crc txnId now key logged value).1 other := by
  intro txn found
  rw [active_writeKey, pendingBuffer_writeKey]
  rcases eq_or_ne other txnId with rfl | different
  · refine ⟨txn.recordWrite key, by simp [found], fun k member => ?_, by simp⟩
    exact MvccTransaction.mem_recordWrite.mpr (.inr member)
  · simp [different, found]

variable (writes : List (UInt64 × Bytes × Bytes))

theorem keeps_batch (other : Nat) :
    Keeps s (s.writeBatchRefs crc txnId writes).1 other := by
  intro txn found
  rw [active_batch, pendingBuffer_batch]
  rcases eq_or_ne other txnId with rfl | different
  · refine ⟨recordWrites txn ((rows writes).map Prod.fst), by simp [found], fun k member => ?_, ?_⟩
    · exact mem_recordWrites.mpr (.inr member)
    · intro logged
      split
      · rfl
      · exact logged
  · simp [different, found]

theorem batch_refused_first {s : DurableStorage H} {txnId : Nat}
    {writes : List (UInt64 × Bytes × Bytes)}
    (refused : ∀ w ∈ writes.head?, Refused s txnId w.2.1) :
    (putAll (chainsOf s) txnId (rows writes)).1 = chainsOf s := by
  cases writes with
  | nil => rfl
  | cons w writes =>
    obtain ⟨other, held, different⟩ := refused w rfl
    have conflict : (put (chainsOf s) w.2.1 (some w.2.2) txnId).2 = false := by
      rw [← Bool.not_eq_true, put_taken]
      exact fun all => different (all other held)
    exact congrArg Prod.fst (putAll_refused conflict (rows writes))

variable {s} (sound : Sound s)
include sound

theorem Sound.begin {s' : DurableStorage H} {mode : TransactionMode}
    (sameChains : chainsOf s' = chainsOf s)
    (sameBuffers : ∀ other, pendingBuffer s' other = pendingBuffer s other)
    (entered : ∀ other, active s' other = if other = s.wal.nextTxnId then
      some (.withMode s.wal.nextTxnId s.mvcc.tsCounter mode) else active s other) : AllBacked s' := by
  intro key txnId held
  have before : holder s key = some txnId := by rw [← held, holder, holder, sameChains]
  have backed := sound.slots_backed key txnId before
  have old : txnId ≠ s.wal.nextTxnId :=
    Nat.ne_of_lt (sound.ids_issued txnId (sound.owners_active key txnId before))
  exact (Keeps.of_same (by rw [entered, if_neg old]) (sameBuffers txnId)).backed backed

theorem Sound.writeKey (now : UInt64) (key logged : Bytes) (value : Option Bytes)
    (guarded : (active s txnId).isSome ∨ Refused s txnId key) :
    AllBacked (s.writeKey crc txnId now key logged value).1 := by
  intro k other held
  rw [holder_writeKey] at held
  split at held
  · rename_i taken
    obtain ⟨rfl, accepted⟩ := taken
    obtain rfl : txnId = other := Option.some.inj held
    obtain ⟨txn, found⟩ := Option.isSome_iff_exists.mp (guarded.resolve_right accepted)
    refine ⟨txn.recordWrite k, ?_, MvccTransaction.mem_recordWrite.mpr (.inl rfl), ?_⟩
    · simp [active_writeKey, found]
    · simp [pendingBuffer_writeKey]
  · exact (keeps_writeKey crc s txnId now key logged value other).backed (sound.slots_backed k other held)

theorem Sound.batch (guarded : (active s txnId).isSome ∨ ∀ w ∈ writes.head?, Refused s txnId w.2.1) :
    AllBacked (s.writeBatchRefs crc txnId writes).1 := by
  intro k other held
  have after := (chains_batch crc s txnId writes).1
  rw [holder, after] at held
  rcases owner_putAll (chainsOf s) txnId (rows writes) k other held with before | ⟨rfl, member⟩
  · exact (keeps_batch crc s txnId writes other).backed (sound.slots_backed k other before)
  · rcases guarded with running | refused
    · obtain ⟨txn, found⟩ := Option.isSome_iff_exists.mp running
      have nonempty : writes ≠ [] := by
        rintro rfl
        cases member
      refine ⟨recordWrites txn ((rows writes).map Prod.fst), ?_, ?_, ?_⟩
      · simp [active_batch, found]
      · exact mem_recordWrites.mpr (.inl member)
      · simp [pendingBuffer_batch, nonempty]
    · -- the first row is refused, so the memtable is not touched at all
      rw [batch_refused_first refused] at held
      exact (keeps_batch crc s other writes other).backed (sound.slots_backed k other held)

/-- Whatever ends a transaction keeps the rest, if no slot is left to the one that ended. -/
theorem Sound.ended {s' : DurableStorage H} {txnId : Nat}
    (holders : ∀ key other, holder s' key = some other → holder s key = some other ∧ other ≠ txnId)
    (left : ∀ other, active s' other = if other = txnId then none else active s other)
    (buffers : ∀ other, other ≠ txnId → pendingBuffer s' other = pendingBuffer s other) : AllBacked s' := by
  intro key other held
  obtain ⟨before, different⟩ := holders key other held
  refine Keeps.backed ?_ (sound.slots_backed key other before)
  exact Keeps.of_same (by rw [left, if_neg different]) (buffers other different)

theorem Sound.commit (shouldSync : Bool) (now : UInt64)
    (guarded : commits s txnId = true ∨ HoldsNothing s txnId) :
    AllBacked (s.commit crc txnId shouldSync now).1 := by
  refine sound.ended ?_ (active_commit crc s txnId shouldSync now) ?_
  · intro key other held
    cases verdict : commits s txnId with
    | false =>
      rw [holder, chains_commit_failed crc s verdict] at held
      refine ⟨held, ?_⟩
      rintro rfl
      exact guarded.resolve_left (by simp [verdict]) key held
    | true =>
      obtain ⟨txn, found, accepted⟩ := commits_iff.mp verdict
      rw [holder, chains_commit_succeeded crc s found accepted, owner_publish] at held
      split at held
      · cases held
      · rename_i untouched
        refine ⟨held, ?_⟩
        rintro rfl
        obtain ⟨txn', found', member, _⟩ := sound.slots_backed key other held
        obtain rfl : txn = txn' := Option.some.inj (found.symm.trans found')
        exact untouched ⟨member, held⟩
  · intro other different
    rw [pendingBuffer_commit, if_neg different]

theorem Sound.abort (now : UInt64) : AllBacked (s.abort crc txnId now) := by
  refine sound.ended ?_ (active_abort crc s txnId now) ?_
  · intro key other held
    rw [holder, EngineSteps.chains_abort] at held
    split at held
    · rw [owner_rollback] at held
      split at held
      · cases held
      · rename_i untouched
        refine ⟨held, ?_⟩
        rintro rfl
        exact untouched held
    · rename_i unlogged
      refine ⟨held, ?_⟩
      rintro rfl
      obtain ⟨_, _, _, logged⟩ := sound.slots_backed key other held
      exact unlogged logged
  · intro other different
    rw [pendingBuffer_abort, if_neg different]

theorem Sound.fastAbort {txnId : Nat} (nothing : HoldsNothing s txnId) :
    AllBacked (s.abortReadOnlyFast txnId) := by
  refine sound.ended ?_ (s.mvcc.active_abort txnId) fun _ _ => rfl
  intro key other held
  refine ⟨held, ?_⟩
  rintro rfl
  exact nothing key held

theorem Sound.read (key : Bytes) : AllBacked (s.read txnId key).1 := by
  have rest := read_rest s txnId key
  have keeps : ∀ other, Keeps s (s.read txnId key).1 other := by
    intro other txn found
    have sameBuffer : pendingBuffer (s.read txnId key).1 other = pendingBuffer s other := by
      rw [rest]
      rfl
    rw [active_read, sameBuffer]
    rcases eq_or_ne other txnId with rfl | different
    · exact ⟨txn.recordRead key, by simp [found], by rw [MvccTransaction.writeSet_recordRead]; simp, id⟩
    · exact ⟨txn, by simp [different, found], by simp, id⟩
  intro k other held
  rw [rest] at held
  exact (keeps other).backed (sound.slots_backed k other held)

theorem Sound.gc : AllBacked s.gc.1 := by
  have owners : ∀ key, holder s.gc.1 key = holder s key := by
    intro key
    have after : chainsOf s.gc.1 =
        collect (chainsOf s) s.mvcc.minActiveTs (dirtyKeys s.memtable) :=
      chains_gc s.memtable s.mvcc.minActiveTs
    rw [holder, after, owner_collect]
    rfl
  exact fun key txnId held => sound.slots_backed key txnId (owners key ▸ held)

theorem Sound.step (op : Op) (guarded : LeavesNoOrphan s op) : Sound (step crc s op) := by
  refine ⟨?_, issued_step crc sound.ids_issued op⟩
  cases op with
  | beginWithMode | beginReadOnlyFast => exact sound.begin rfl (fun _ => rfl) (s.mvcc.active_beginWithMode _ _)
  | abortReadOnlyFast txnId => exact sound.fastAbort guarded
  | read txnId key => exact sound.read txnId key
  | writeRefs txnId now key | delete txnId now key => exact sound.writeKey crc txnId now key _ _ guarded
  | writeBatchRefs txnId writes =>
    refine sound.batch crc txnId writes ?_
    cases writes with
    | nil => exact .inr fun _ none => by cases none
    | cons w writes => exact guarded.imp_right fun refused _ first => by cases first; exact refused
  | commit txnId shouldSync now => exact sound.commit crc txnId shouldSync now guarded
  | abort txnId now => exact sound.abort crc txnId now
  | gc => exact sound.gc

end Steps

section Orphans
variable {s : DurableStorage H}

theorem orphan_of_writeKey {txnId : Nat} (inactive : active s txnId = none) {key : Bytes}
    (free : ¬ Refused s txnId key) (now : UInt64) (logged : Bytes) (value : Option Bytes) :
    ¬ SlotOwnersActive (s.writeKey crc txnId now key logged value).1 := by
  intro owners
  have alive := owners key txnId (by rw [holder_writeKey, if_pos ⟨rfl, free⟩])
  rw [active_writeKey, if_pos rfl, inactive] at alive
  cases alive

theorem orphan_of_batch {txnId : Nat} (inactive : active s txnId = none)
    {w : UInt64 × Bytes × Bytes} (free : ¬ Refused s txnId w.2.1)
    (writes : List (UInt64 × Bytes × Bytes)) :
    ¬ SlotOwnersActive (s.writeBatchRefs crc txnId (w :: writes)).1 := by
  intro owners
  have taken : (put (chainsOf s) w.2.1 (some w.2.2) txnId).2 = true := by
    rw [put_taken]
    simpa [Refused, holder] using free
  have first : (Function.update (chainsOf s) w.2.1
      ((chainsOf s w.2.1).addUncommitted (some w.2.2) txnId) w.2.1).owner = some txnId := by
    rw [Function.update_self, VersionChain.owner_addUncommitted]
  have held : holder (s.writeBatchRefs crc txnId (w :: writes)).1 w.2.1 = some txnId := by
    rw [holder, (chains_batch crc s txnId (w :: writes)).1, rows, List.map_cons,
      putAll_cons_taken taken]
    exact owner_putAll_kept _ txnId _ w.2.1 first
  have alive := owners w.2.1 txnId held
  rw [active_batch, if_pos rfl, inactive] at alive
  cases alive

theorem orphan_of_end {s' : DurableStorage H} {txnId : Nat} (sameChains : chainsOf s' = chainsOf s)
    (ended : active s' txnId = none) (holds : ¬ HoldsNothing s txnId) : ¬ SlotOwnersActive s' := by
  intro owners
  simp only [HoldsNothing, not_forall, not_not] at holds
  obtain ⟨key, held⟩ := holds
  have alive := owners key txnId (by rw [holder, sameChains]; exact held)
  rw [ended] at alive
  cases alive

theorem guard_needed (op : Op) (owners : SlotOwnersActive (step crc s op)) : LeavesNoOrphan s op := by
  by_contra broken
  cases op with
  | beginWithMode | beginReadOnlyFast | read | abort | gc => exact broken trivial
  | abortReadOnlyFast txnId =>
    have sameChains : chainsOf (s.abortReadOnlyFast txnId) = chainsOf s := rfl
    have ended : active (s.abortReadOnlyFast txnId) txnId = none := by
      have gone := s.mvcc.active_abort txnId txnId
      rwa [if_pos rfl] at gone
    exact orphan_of_end sameChains ended broken owners
  | writeRefs txnId now key | delete txnId now key =>
    obtain ⟨inactive, free⟩ := not_or.mp broken
    exact orphan_of_writeKey crc (by simpa using inactive) free now _ _ owners
  | writeBatchRefs txnId writes =>
    cases writes with
    | nil => exact broken trivial
    | cons w writes =>
      obtain ⟨inactive, free⟩ := not_or.mp broken
      exact orphan_of_batch crc (by simpa using inactive) free writes owners
  | commit txnId shouldSync now =>
    obtain ⟨fails, holds⟩ := not_or.mp broken
    refine orphan_of_end (chains_commit_failed crc s (by simpa using fails) shouldSync now) ?_ holds owners
    rw [active_commit, if_pos rfl]

end Orphans

theorem Sound.writable (sound : Sound s)
    (idle : ∀ txnId txn, active s txnId = some txn → key ∉ txn.writeSet) (txnId : Nat) (now : UInt64)
    (value : Bytes) : (s.writeRefs crc txnId now key value).2 = .ok () := by
  have written := (chains_writeKey crc s txnId now key value (some value)).2
  have taken : (put (chainsOf s) key (some value) txnId).2 = true := by
    rw [put_taken]
    intro other held
    obtain ⟨txn, found, member, _⟩ := sound.slots_backed key other held
    exact absurd member (idle other txn found)
  rw [taken] at written
  exact written

/-- Every slot belongs to an active transaction in all states of a run exactly if each of
    its steps meets the guard, and then a key is free once its writers are done. -/
theorem slots_held_by_active_iff (ourPid : UInt32) (file : Bytes) (kind : MemTableType)
    (enableOrderedIndex recovers : Bool) (ops : List Op) :
    let start : DurableStorage H := started crc ourPid file kind enableOrderedIndex recovers
    (Guarded (step crc) LeavesNoOrphan start ops ↔
        ∀ before, before <+: ops → SlotOwnersActive (run (step crc) start before)) ∧
      (Guarded (step crc) LeavesNoOrphan start ops → ∀ key,
        (∀ txnId txn, active (run (step crc) start ops) txnId = some txn → key ∉ txn.writeSet) →
        ∀ txnId now value, ((run (step crc) start ops).writeRefs crc txnId now key value).2 = .ok ()) := by
  intro start
  have initial : Sound start := started_sound crc ourPid file kind enableOrderedIndex recovers
  have preserved : ∀ (s : DurableStorage H) op, Sound s → LeavesNoOrphan s op → Sound (step crc s op) :=
    fun s op sound guarded => sound.step crc op guarded
  constructor
  · exact guarded_iff_always Sound SlotOwnersActive (fun s op sound _ guarded => preserved s op sound guarded)
      (fun s sound => sound.owners_active) (fun s op _ _ owners => guard_needed crc op owners)
      initial (Guarded.of_all (fun _ _ => trivial) start ops)
  · intro guarded key idle txnId now value
    exact (guarded.preserves preserved initial).writable crc idle txnId now value

end

theorem committed_key_writable_again :
    let ops : List Op := [.beginWithMode .readWrite 0, .writeRefs 1 0 [120] [1], .commit 1 true 0]
    let final : DurableStorage lengthHashes :=
      run (step ieee) (started ieee 0 [] .standard true false) ops
    (final.writeRefs ieee 2 0 [120] [2]).2 = .ok () := by
  intro ops final
  have guarded : Guarded (step ieee) LeavesNoOrphan
      (started ieee 0 [] .standard true false : DurableStorage lengthHashes) ops :=
    ⟨trivial, .inl (by decide +kernel), .inl (by decide +kernel), trivial⟩
  have idle : (pairs final.mvcc.activeTxns).length = 0 := by decide +kernel
  refine (slots_held_by_active_iff ieee 0 [] .standard true false ops).2 guarded [120] ?_ 2 0 [2]
  intro txnId txn found
  have entry : (txnId, txn) ∈ pairs final.mvcc.activeTxns := mem_pairs.mpr found
  rw [List.length_eq_zero_iff.mp idle] at entry
  cases entry

def failedCommit : List Op :=
  [.beginWithMode .readWrite 0, .beginWithMode .readWrite 0,
    .read 1 [120], .read 1 [122], .writeRefs 1 0 [121] [1],
    .read 2 [121], .read 2 [119], .writeRefs 2 0 [120] [2],
    .commit 1 true 0, .commit 2 true 0, .abort 2 0, .beginWithMode .readWrite 0]

/-- After the failed commit and the abort that follows it, the slot of the key still
    belongs to the dead transaction, and a new one cannot write the key. -/
theorem failed_commit_leaves_key_locked :
    let final : DurableStorage lengthHashes :=
      run (step ieee) (started ieee 0 [] .standard true false) failedCommit
    holder final [120] = some 2 ∧ (active final 2).isNone = true ∧ (active final 3).isSome = true ∧
      (final.writeRefs ieee 3 0 [120] [3]).2 = .error writeConflict := by
  decide +kernel

end SlotOwners
