import SochDB.EngineSteps

/-!
Opening a store and recovering it. The recovery transaction is alone in the memtable,
so it is never refused, and it leaves one committed version of each replayed key.
-/
namespace Recovery
open KeyedMaps WalRecords WriteAheadLog TxnManager BloomFilter VersionChains MemTables ChainView
open StorageEngine EngineSteps

section
variable {H : KeyHashes} (crc : Crc32fast)

/-- A store as its clients get it: opened on the bytes of a log, and recovered or not. -/
def started (ourPid : UInt32) (file : Bytes) (kind : MemTableType)
    (enableOrderedIndex recovers : Bool) : DurableStorage H :=
  let opened := DurableStorage.openWith crc ourPid file kind enableOrderedIndex
  if recovers then (opened.recover crc).1 else opened

def replayed (writes : List Write) : List (Bytes × Option Bytes) :=
  writes.map fun w => (w.1, some w.2)

@[simp] theorem replayed_cons (key value : Bytes) (writes : List Write) :
    replayed ((key, value) :: writes) = (key, some value) :: replayed writes := rfl

variable {table : MemTableKind} {keys : List Bytes} (ourPid : UInt32) (file : Bytes)

theorem applyWrites_taken {txnId : Nat} {writes : List Write}
    (taken : (putAll (chains table) txnId (replayed writes)).2 = true) (writeSet : List Bytes) :
    (DurableStorage.applyWrites table txnId writeSet writes).2 =
        ((writes.map Prod.fst).foldl (fun set key => set.insert key) writeSet, .ok ()) ∧
      chains (DurableStorage.applyWrites table txnId writeSet writes).1 =
        (putAll (chains table) txnId (replayed writes)).1 := by
  induction writes generalizing table writeSet with
  | nil => exact ⟨rfl, rfl⟩
  | cons w writes ih =>
    obtain ⟨key, value⟩ := w
    have written := chains_write table key (some value) txnId
    cases first : (put (chains table) key (some value) txnId).2 with
    | false =>
      rw [replayed_cons, putAll_refused first] at taken
      cases taken
    | true =>
      rw [replayed_cons, putAll_cons_taken first] at taken ⊢
      rw [put_some first] at written
      rcases outcome : table.write key (some value) txnId with ⟨table', reply'⟩
      rw [outcome] at written
      obtain ⟨after, rfl⟩ := written
      simp only at after
      rw [← after] at taken ⊢
      have rest := ih taken (writeSet.insert key)
      simp only [DurableStorage.applyWrites, outcome]
      exact rest

theorem mem_foldl_insert {set : List Bytes} {k : Bytes} :
    k ∈ keys.foldl (fun set key => set.insert key) set ↔ k ∈ keys ∨ k ∈ set := by
  induction keys generalizing set with
  | nil => simp
  | cons key keys ih =>
    rw [List.foldl_cons, ih, List.mem_insert_iff, List.mem_cons]
    tauto

theorem publish_replayed (txnId commitTs : Nat) (writes : List Write) (keys : List Bytes)
    (covered : ∀ k ∈ writes.map Prod.fst, k ∈ keys) (k : Bytes) :
    (publish (putAll (fun _ => VersionChain.new) txnId (replayed writes)).1 txnId commitTs keys k).slot =
        none ∧
      (publish (putAll (fun _ => VersionChain.new) txnId (replayed writes)).1 txnId commitTs keys
          k).committed =
        ((lastValue writes k).map fun value => (⟨some value, txnId, commitTs⟩ : Version)).toList := by
  let fresh : Chains := fun _ => VersionChain.new
  have taken : (putAll fresh txnId (replayed writes)).2 = true := putAll_alone (by simp [fresh]) _
  have slot := slot_putAll taken k
  have committed := committed_putAll fresh txnId (replayed writes) k
  rw [replayed, lastValue_map] at slot
  cases last : lastValue writes k with
  | none =>
    have unowned : ((putAll fresh txnId (replayed writes)).1 k).own txnId = none := by
      rw [VersionChain.own, replayed, slot, last]
      rfl
    rw [publish_other (Or.inr unowned), committed]
    refine ⟨?_, rfl⟩
    rw [replayed, slot, last]
    rfl
  | some value =>
    have member : k ∈ keys := covered k ((lastValue_isSome k).mp (by rw [last]; rfl))
    have mine : ((putAll fresh txnId (replayed writes)).1 k).own txnId = some (some value) := by
      rw [VersionChain.own_some, replayed, slot, last]
      rfl
    have published := publish_own member mine commitTs
    exact ⟨published.2, by rw [published.1, committed]; rfl⟩

theorem recover_applied {s : DurableStorage H} (unrecovered : s.needsRecovery = true)
    (applied : DurableStorage.applyWrites s.memtable s.wal.nextTxnId []
      (replayForRecovery crc s.wal.written).1 = (table, keys, .ok ())) :
    s.recover crc =
      ({ s with
         wal := s.wal.allocTxnId.2
         mvcc := s.mvcc.allocCommitTs.2
         memtable := table.commit s.wal.nextTxnId s.mvcc.tsCounter keys
         needsRecovery := false },
        .ok ⟨(replayForRecovery crc s.wal.written).2, (replayForRecovery crc s.wal.written).1.length,
          s.mvcc.tsCounter⟩) := by
  unfold DurableStorage.recover
  rw [if_neg (by simp [unrecovered])]
  simp only [TxnWal.allocTxnId, applied]
  rfl

theorem recover_opened (kind : MemTableType) (enableOrderedIndex : Bool) :
    ∃ table, (DurableStorage.openWith crc ourPid file kind enableOrderedIndex :
          DurableStorage H).recover crc =
        ({ wal := (TxnWal.new crc ourPid file file.length (Nat.le_refl _)).allocTxnId.2
           mvcc := { MvccManager.new with tsCounter := 2 }
           memtable := table
           txnWriteBuffers := ∅
           needsRecovery := false },
          .ok ⟨(replayForRecovery crc file).2, (replayForRecovery crc file).1.length, 1⟩) ∧
      ∀ k, (chains table k).slot = none ∧ (chains table k).committed =
        ((lastValue (replayForRecovery crc file).1 k).map fun value =>
          (⟨some value, (TxnWal.new crc ourPid file file.length (Nat.le_refl _)).nextTxnId, 1⟩ :
            Version)).toList := by
  let wal := TxnWal.new crc ourPid file file.length (Nat.le_refl _)
  let writes := (replayForRecovery crc file).1
  let table := MemTableKind.new kind enableOrderedIndex
  have empty : chains table = fun _ => VersionChain.new := chains_new kind enableOrderedIndex
  have taken : (putAll (chains table) wal.nextTxnId (replayed writes)).2 = true :=
    putAll_alone (by simp [empty]) _
  obtain ⟨reply, installed⟩ := applyWrites_taken taken []
  rcases applied : DurableStorage.applyWrites table wal.nextTxnId [] writes with ⟨table', keys, outcome⟩
  rw [applied] at reply installed
  obtain ⟨rfl, rfl⟩ := Prod.mk.inj reply
  refine ⟨table'.commit wal.nextTxnId 1
    ((writes.map Prod.fst).foldl (fun set key => set.insert key) []), ?_, fun k => ?_⟩
  · exact recover_applied crc rfl applied
  · rw [chains_commit, installed, empty]
    refine publish_replayed wal.nextTxnId 1 writes _ (fun k member => ?_) k
    exact mem_foldl_insert.mpr (Or.inl member)

structure Fresh (s : DurableStorage H) : Prop where
  slots_free : ∀ key, (chainsOf s key).slot = none
  stamps_past : ∀ key, ∀ v ∈ (chainsOf s key).committed, v.commitTs < s.mvcc.tsCounter
  none_active : ∀ txnId, active s txnId = none
  none_buffered : ∀ txnId, pendingBuffer s txnId = none
  none_recent : s.mvcc.recentCommits = ∅
  watermark_unset : s.mvcc.minActiveTs = 0

theorem started_fresh (kind : MemTableType) (enableOrderedIndex recovers : Bool) :
    Fresh (started crc ourPid file kind enableOrderedIndex recovers : DurableStorage H) := by
  cases recovers with
  | false =>
    have empty : chainsOf (started crc ourPid file kind enableOrderedIndex false : DurableStorage H) =
        fun _ => VersionChain.new := chains_new kind enableOrderedIndex
    refine ⟨fun key => by rw [empty]; rfl, fun key v member => ?_, MvccManager.active_new,
      fun txnId => get_empty txnId, rfl, rfl⟩
    rw [empty] at member
    cases member
  | true =>
    obtain ⟨table, recovered, parts⟩ := recover_opened (H := H) crc ourPid file kind enableOrderedIndex
    have state : (started crc ourPid file kind enableOrderedIndex true : DurableStorage H) = _ :=
      congrArg Prod.fst recovered
    rw [state]
    refine ⟨fun key => (parts key).1, fun key v member => ?_, fun txnId => get_empty txnId,
      fun txnId => get_empty txnId, rfl, rfl⟩
    have only : v ∈ (chains table key).committed := member
    rw [(parts key).2, Option.mem_toList, Option.map_eq_some_iff] at only
    obtain ⟨value, _, rfl⟩ := only
    exact Nat.lt_succ_self 1

end
end Recovery
