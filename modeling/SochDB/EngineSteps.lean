import SochDB.ChainView
import SochDB.StorageEngine

/-!
What each operation of the engine does to its parts: the active transactions, the
chains, the write buffers and the log. Later proofs use these equations and never
unfold an operation.
-/
namespace EngineSteps
open KeyedMaps WalRecords WriteAheadLog TxnManager BloomFilter VersionChains MemTables ChainView Option
open StorageEngine

section
variable {H : KeyHashes} (crc : Crc32fast) (s : DurableStorage H)

def active (txnId : Nat) : Option (MvccTransaction H) := s.mvcc.active txnId

def chainsOf : Chains := chains s.memtable

def committedValues (key : Bytes) : Option Bytes := (chainsOf s key).latest

def pendingBuffer (txnId : Nat) : Option TxnWalBuffer := get s.txnWriteBuffers txnId

def holder (key : Bytes) : Option Nat := (chainsOf s key).owner

def Refused (txnId : Nat) (key : Bytes) : Prop :=
  ∃ other ∈ holder s key, other ≠ txnId

instance (txnId : Nat) (key : Bytes) : Decidable (Refused s txnId key) :=
  inferInstanceAs (Decidable (∃ other ∈ holder s key, other ≠ txnId))

variable {txn : MvccTransaction H} {op : Op} (txnId : Nat)

variable (now : UInt64)

theorem chains_writeKey (key logged : Bytes) (value : Option Bytes) :
    chainsOf (s.writeKey crc txnId now key logged value).1 =
        (put (chainsOf s) key value txnId).1 ∧
      (s.writeKey crc txnId now key logged value).2 = reply (put (chainsOf s) key value txnId).2 :=
  chains_write s.memtable key value txnId

theorem holder_writeKey (key logged : Bytes) (value : Option Bytes) (k : Bytes) :
    holder (s.writeKey crc txnId now key logged value).1 k =
      if k = key ∧ ¬ Refused s txnId key then some txnId else holder s k := by
  have taken : (put (chainsOf s) key value txnId).2 = true ↔ ¬ Refused s txnId key := by
    rw [put_taken]
    simp [Refused, holder]
  rw [holder, (chains_writeKey crc s txnId now key logged value).1, owner_put, holder]
  simp only [taken]

theorem active_writeKey (key logged : Bytes) (value : Option Bytes) (other : Nat) :
    active (s.writeKey crc txnId now key logged value).1 other =
      if other = txnId then (active s txnId).map (·.recordWrite key) else active s other :=
  s.mvcc.active_recordWrite txnId key other

theorem pendingBuffer_writeKey (key logged : Bytes) (value : Option Bytes) (other : Nat) :
    pendingBuffer (s.writeKey crc txnId now key logged value).1 other =
      if other = txnId then
        some (((pendingBuffer s txnId).getD (TxnWalBuffer.new (UInt64.ofNat txnId))).append crc now key logged)
      else pendingBuffer s other :=
  get_upsert s.txnWriteBuffers txnId other _ _

def logAll (txnId : Nat) (writes : List (UInt64 × Bytes × Bytes)) : DurableStorage H :=
  writes.foldl (fun s w => s.logWrite crc txnId w.1 w.2.1 w.2.2) s

def rows (writes : List (UInt64 × Bytes × Bytes)) : List (Bytes × Option Bytes) :=
  writes.map fun w => (w.2.1, some w.2.2)

def recordWrites (txn : MvccTransaction H) (keys : List Bytes) : MvccTransaction H :=
  keys.foldl (fun txn key => txn.recordWrite key) txn

theorem mem_recordWrites {keys : List Bytes} {k : Bytes} :
    k ∈ (recordWrites txn keys).writeSet ↔ k ∈ keys ∨ k ∈ txn.writeSet := by
  induction keys generalizing txn with
  | nil => simp [recordWrites]
  | cons key keys ih =>
    refine (@ih (txn.recordWrite key)).trans ?_
    rw [MvccTransaction.mem_recordWrite, List.mem_cons]
    tauto

theorem recordWrites_kept (txn : MvccTransaction H) (keys : List Bytes) :
    (recordWrites txn keys).snapshotTs = txn.snapshotTs ∧ (recordWrites txn keys).mode = txn.mode := by
  induction keys generalizing txn with
  | nil => exact ⟨rfl, rfl⟩
  | cons key keys ih => exact ih (txn.recordWrite key)

section
variable (writes : List (UInt64 × Bytes × Bytes))

theorem logAll_rest :
    (logAll crc s txnId writes).memtable = s.memtable ∧
      (logAll crc s txnId writes).wal = s.wal ∧
      (logAll crc s txnId writes).needsRecovery = s.needsRecovery ∧
      (logAll crc s txnId writes).mvcc.tsCounter = s.mvcc.tsCounter ∧
      (logAll crc s txnId writes).mvcc.minActiveTs = s.mvcc.minActiveTs ∧
      (logAll crc s txnId writes).mvcc.recentCommits = s.mvcc.recentCommits := by
  induction writes generalizing s with
  | nil => exact ⟨rfl, rfl, rfl, rfl, rfl, rfl⟩
  | cons w writes ih => exact ih (s.logWrite crc txnId w.1 w.2.1 w.2.2)

theorem active_logAll (other : Nat) :
    active (logAll crc s txnId writes) other =
      if other = txnId then (active s txnId).map (recordWrites · ((rows writes).map Prod.fst))
      else active s other := by
  induction writes generalizing s with
  | nil =>
    rcases eq_or_ne other txnId with rfl | different
    · simp [logAll, rows, recordWrites]
    · simp [logAll, different]
  | cons w writes ih =>
    have first : active (s.logWrite crc txnId w.1 w.2.1 w.2.2) = fun other =>
        if other = txnId then (active s txnId).map (·.recordWrite w.2.1) else active s other :=
      funext fun other => s.mvcc.active_recordWrite txnId w.2.1 other
    refine (ih (s.logWrite crc txnId w.1 w.2.1 w.2.2)).trans ?_
    rcases eq_or_ne other txnId with rfl | different
    · simp [first, rows, recordWrites, Function.comp_def]
    · simp [first, different]

theorem chains_batch :
    chainsOf (s.writeBatchRefs crc txnId writes).1 = (putAll (chainsOf s) txnId (rows writes)).1 ∧
      (s.writeBatchRefs crc txnId writes).2 = reply (putAll (chainsOf s) txnId (rows writes)).2 := by
  cases writes with
  | nil => exact ⟨rfl, rfl⟩
  | cons w writes =>
    have same : (logAll crc s txnId (w :: writes)).memtable = s.memtable :=
      (logAll_rest crc s txnId (w :: writes)).1
    have written := chains_writeBatch (logAll crc s txnId (w :: writes)).memtable
      (rows (w :: writes)) txnId
    rw [same] at written
    have run : s.writeBatchRefs crc txnId (w :: writes) =
        ({ logAll crc s txnId (w :: writes) with
           memtable := ((logAll crc s txnId (w :: writes)).memtable.writeBatch
             (rows (w :: writes)) txnId).1 },
          ((logAll crc s txnId (w :: writes)).memtable.writeBatch (rows (w :: writes)) txnId).2) := rfl
    rw [run, same]
    exact written

theorem batch_rest : (s.writeBatchRefs crc txnId writes).1 =
    { logAll crc s txnId writes with memtable := (s.writeBatchRefs crc txnId writes).1.memtable } := by
  cases writes <;> rfl

theorem active_batch (other : Nat) :
    active (s.writeBatchRefs crc txnId writes).1 other =
      if other = txnId then (active s txnId).map (recordWrites · ((rows writes).map Prod.fst))
      else active s other := by
  rw [active, batch_rest]
  exact active_logAll crc s txnId writes other

theorem wal_batch : (s.writeBatchRefs crc txnId writes).1.wal = s.wal := by
  rw [batch_rest]
  exact (logAll_rest crc s txnId writes).2.1

end

def appendAll (buffer : TxnWalBuffer) (writes : List (UInt64 × Bytes × Bytes)) : TxnWalBuffer :=
  writes.foldl (fun buffer w => buffer.append crc w.1 w.2.1 w.2.2) buffer

variable (writes : List (UInt64 × Bytes × Bytes))

theorem pendingBuffer_logAll (other : Nat) :
    pendingBuffer (logAll crc s txnId writes) other =
      if other = txnId ∧ writes ≠ [] then
        some (appendAll crc
          ((pendingBuffer s txnId).getD (TxnWalBuffer.new (UInt64.ofNat txnId))) writes)
      else pendingBuffer s other := by
  induction writes generalizing s with
  | nil => simp [logAll]
  | cons w writes ih =>
    have first : pendingBuffer (s.logWrite crc txnId w.1 w.2.1 w.2.2) = fun other =>
        if other = txnId then some (((pendingBuffer s txnId).getD
          (TxnWalBuffer.new (UInt64.ofNat txnId))).append crc w.1 w.2.1 w.2.2)
        else pendingBuffer s other :=
      funext fun other => get_upsert s.txnWriteBuffers txnId other _ _
    refine (ih (s.logWrite crc txnId w.1 w.2.1 w.2.2)).trans ?_
    rcases eq_or_ne other txnId with rfl | different
    · cases writes with
      | nil | cons => simp [first, appendAll]
    · simp [first, different]

theorem pendingBuffer_batch (other : Nat) :
    pendingBuffer (s.writeBatchRefs crc txnId writes).1 other =
      if other = txnId ∧ writes ≠ [] then
        some (appendAll crc
          ((pendingBuffer s txnId).getD (TxnWalBuffer.new (UInt64.ofNat txnId))) writes)
      else pendingBuffer s other := by
  rw [pendingBuffer, batch_rest]
  exact pendingBuffer_logAll crc s txnId writes other

variable (key : Bytes)

theorem read_rest :
    (s.read txnId key).1 = { s with
      mvcc := { s.mvcc with activeTxns := (s.read txnId key).1.mvcc.activeTxns } } := by
  unfold DurableStorage.read
  split <;> rfl

theorem chains_read : chainsOf (s.read txnId key).1 = chainsOf s := by
  rw [chainsOf, read_rest]
  rfl

theorem active_read (other : Nat) :
    active (s.read txnId key).1 other =
      if other = txnId then (active s txnId).map (·.recordRead key) else active s other := by
  unfold DurableStorage.read MvccManager.getSnapshotTs
  cases found : active s txnId with
  | none =>
    have unknown : get s.mvcc.activeTxns txnId = none := found
    simp only [unknown, map_none]
    split
    · rename_i same
      rw [same, found]
    · rfl
  | some txn =>
    have known : get s.mvcc.activeTxns txnId = some txn := found
    have manager : s.mvcc.active txnId = some txn := found
    have recorded := s.mvcc.active_recordRead txnId key other
    rw [manager] at recorded
    simp only [known, map_some]
    exact recorded

theorem read_reply {s : DurableStorage H} {txnId : Nat} (found : active s txnId = some txn) (key : Bytes) :
    (s.read txnId key).2 =
      .ok (((chainsOf s key).own txnId).getD ((chainsOf s key).snapshotValue txn.snapshotTs)) := by
  have known : get s.mvcc.activeTxns txnId = some txn := found
  simp only [DurableStorage.read, MvccManager.getSnapshotTs, known, map_some]
  rw [read_eq, readVersion, VersionChain.readAt_value]
  rfl

def commits (txnId : Nat) : Bool :=
  match active s txnId with
  | some txn => !s.mvcc.refuses txn
  | none => false

theorem commits_iff {s : DurableStorage H} {txnId : Nat} : commits s txnId = true ↔
    ∃ txn, active s txnId = some txn ∧ s.mvcc.refuses txn = false := by
  unfold commits
  cases active s txnId with
  | none => simp
  | some txn => simp

theorem commit_failed {txnId : Nat} (fails : commits s txnId = false) (shouldSync : Bool)
    (now : UInt64) :
    s.commit crc txnId shouldSync now =
      ({ s.flushPending txnId with mvcc := (s.mvcc.commit txnId).1 }, .error validationFailed) := by
  have verdict : (s.mvcc.commit txnId).2 = none := by
    unfold commits at fails
    cases found : active s txnId with
    | none => rw [MvccManager.commit_unknown found]
    | some txn =>
      simp only [found, Bool.not_eq_false'] at fails
      rw [MvccManager.commit_refused found fails]
  have outcome : (s.flushPending txnId).mvcc.commit txnId = ((s.mvcc.commit txnId).1, none) :=
    Prod.ext rfl verdict
  simp only [DurableStorage.commit, outcome]

theorem commit_succeeded {txnId : Nat} (found : active s txnId = some txn)
    (accepted : s.mvcc.refuses txn = false) (shouldSync : Bool) (now : UInt64) :
    s.commit crc txnId shouldSync now =
      (let wal := (s.flushPending txnId).wal.append crc
        (TxnWalEntry.txnCommit (UInt64.ofNat txnId) now)
      { s.flushPending txnId with
        wal := if shouldSync then wal.sync else wal
        mvcc := (s.mvcc.commit txnId).1
        memtable := s.memtable.commit txnId s.mvcc.tsCounter txn.writeSet }, .ok s.mvcc.tsCounter) := by
  have outcome : (s.flushPending txnId).mvcc.commit txnId =
      ((s.mvcc.commit txnId).1, some (s.mvcc.tsCounter, txn.writeSet)) :=
    Prod.ext rfl (MvccManager.commit_accepted found accepted).1
  simp only [DurableStorage.commit, outcome]
  rfl

variable (shouldSync : Bool)

theorem commit_mvcc (now : UInt64) :
    (s.commit crc txnId shouldSync now).1.mvcc = (s.mvcc.commit txnId).1 := by
  have outcome : (s.flushPending txnId).mvcc.commit txnId = s.mvcc.commit txnId := rfl
  simp only [DurableStorage.commit, outcome]
  rcases s.mvcc.commit txnId with ⟨mvcc, _ | ⟨commitTs, writeSet⟩⟩ <;> rfl

theorem commit_buffers (now : UInt64) :
    (s.commit crc txnId shouldSync now).1.txnWriteBuffers = s.txnWriteBuffers.erase txnId := by
  simp only [DurableStorage.commit]
  rcases (s.flushPending txnId).mvcc.commit txnId with ⟨mvcc, _ | ⟨commitTs, writeSet⟩⟩ <;> rfl

theorem chains_commit_failed {txnId : Nat} (fails : commits s txnId = false) (shouldSync : Bool)
    (now : UInt64) : chainsOf (s.commit crc txnId shouldSync now).1 = chainsOf s := by
  rw [commit_failed crc s fails]
  rfl

theorem chains_commit_succeeded {txnId : Nat} (found : active s txnId = some txn)
    (accepted : s.mvcc.refuses txn = false) (shouldSync : Bool) (now : UInt64) :
    chainsOf (s.commit crc txnId shouldSync now).1 =
      publish (chainsOf s) txnId s.mvcc.tsCounter txn.writeSet := by
  rw [commit_succeeded crc s found accepted]
  exact chains_commit s.memtable txnId s.mvcc.tsCounter txn.writeSet

theorem active_commit (now : UInt64) (other : Nat) :
    active (s.commit crc txnId shouldSync now).1 other =
      if other = txnId then none else active s other := by
  rw [active, commit_mvcc]
  exact MvccManager.active_commit s.mvcc txnId other

theorem pendingBuffer_commit (now : UInt64) (other : Nat) :
    pendingBuffer (s.commit crc txnId shouldSync now).1 other =
      if other = txnId then none else pendingBuffer s other := by
  rw [pendingBuffer, commit_buffers]
  exact get_erase s.txnWriteBuffers txnId other

theorem chains_abort :
    chainsOf (s.abort crc txnId now) =
      if (pendingBuffer s txnId).isSome then rollback (chainsOf s) txnId else chainsOf s := by
  unfold DurableStorage.abort pendingBuffer
  cases get s.txnWriteBuffers txnId with
  | none => rfl
  | some buffer => exact ChainView.chains_abort s.memtable txnId

theorem abort_mvcc : (s.abort crc txnId now).mvcc = s.mvcc.abort txnId := by
  unfold DurableStorage.abort
  cases get s.txnWriteBuffers txnId <;> rfl

theorem active_abort (other : Nat) :
    active (s.abort crc txnId now) other = if other = txnId then none else active s other := by
  rw [active, abort_mvcc]
  exact s.mvcc.active_abort txnId other

theorem pendingBuffer_abort (other : Nat) :
    pendingBuffer (s.abort crc txnId now) other =
      if other = txnId then none else pendingBuffer s other := by
  have removed := get_erase s.txnWriteBuffers txnId other
  unfold DurableStorage.abort
  cases get s.txnWriteBuffers txnId <;> exact removed

theorem nextTxnId_abort :
    (s.abort crc txnId now).wal.nextTxnId = s.wal.nextTxnId := by
  unfold DurableStorage.abort
  cases get s.txnWriteBuffers txnId <;> rfl

theorem nextTxnId_flushPending :
    (s.flushPending txnId).wal.nextTxnId = s.wal.nextTxnId := by
  unfold DurableStorage.flushPending
  cases get s.txnWriteBuffers txnId with
  | none => rfl
  | some buffer =>
    simp only [TxnWal.flushBuffer]
    split <;> rfl

theorem nextTxnId_commit (now : UInt64) :
    (s.commit crc txnId shouldSync now).1.wal.nextTxnId = s.wal.nextTxnId := by
  rw [← nextTxnId_flushPending s txnId]
  simp only [DurableStorage.commit]
  rcases (s.flushPending txnId).mvcc.commit txnId with ⟨mvcc, _ | ⟨commitTs, writeSet⟩⟩
  · rfl
  · cases shouldSync <;> rfl

def bufferBytes (txnId : Nat) : Bytes := ((pendingBuffer s txnId).map TxnWalBuffer.buffer).getD []

theorem written_flushPending :
    (s.flushPending txnId).wal.written = s.wal.written ++ bufferBytes s txnId := by
  unfold DurableStorage.flushPending bufferBytes pendingBuffer
  cases get s.txnWriteBuffers txnId with
  | none => simp
  | some buffer =>
    simp only [map_some, getD_some]
    split
    · rename_i empty
      rw [List.isEmpty_iff.mp empty, List.append_nil]
    · exact TxnWal.flushBuffer_written s.wal buffer

theorem written_commit (now : UInt64) :
    (s.commit crc txnId shouldSync now).1.wal.written =
      s.wal.written ++ bufferBytes s txnId ++ (if commits s txnId then
        (TxnWalEntry.txnCommit (UInt64.ofNat txnId) now).toBytes crc else []) := by
  rw [← written_flushPending]
  cases verdict : commits s txnId with
  | false =>
    rw [commit_failed crc s verdict]
    simp
  | true =>
    obtain ⟨txn, found, accepted⟩ := commits_iff.mp verdict
    rw [commit_succeeded crc s found accepted]
    cases shouldSync <;> rfl

theorem written_abort :
    (s.abort crc txnId now).wal.written = s.wal.written ++
      (if (pendingBuffer s txnId).isSome then
        (TxnWalEntry.txnAbort (UInt64.ofNat txnId) now).toBytes crc else []) := by
  unfold DurableStorage.abort pendingBuffer
  cases get s.txnWriteBuffers txnId with
  | none => simp
  | some buffer => rfl

theorem tsCounter_commit (now : UInt64) :
    (s.commit crc txnId shouldSync now).1.mvcc.tsCounter =
      if commits s txnId then s.mvcc.tsCounter + 1 else s.mvcc.tsCounter := by
  rw [commit_mvcc]
  unfold commits
  cases found : active s txnId with
  | none =>
    rw [MvccManager.commit_unknown found]
    rfl
  | some txn =>
    cases verdict : s.mvcc.refuses txn with
    | true =>
      simp only [verdict, Bool.not_true, Bool.false_eq_true, if_false]
      rw [MvccManager.commit_refused found verdict]
      rfl
    | false =>
      simp only [verdict, Bool.not_false, if_true]
      exact (MvccManager.commit_accepted found verdict).2.1

theorem tsCounter_abort :
    (s.abort crc txnId now).mvcc.tsCounter = s.mvcc.tsCounter := by
  rw [abort_mvcc]
  rfl

theorem tsCounter_batch :
    (s.writeBatchRefs crc txnId writes).1.mvcc.tsCounter = s.mvcc.tsCounter := by
  rw [batch_rest]
  exact (logAll_rest crc s txnId writes).2.2.2.1

theorem tsCounter_read :
    (s.read txnId key).1.mvcc.tsCounter = s.mvcc.tsCounter := by
  rw [read_rest]

theorem committed_writeKey (k logged : Bytes) (value : Option Bytes) (key : Bytes) :
    (chainsOf (s.writeKey crc txnId now k logged value).1 key).committed =
      (chainsOf s key).committed := by
  have one := committed_putAll (chainsOf s) txnId [(k, value)] key
  rw [(chains_writeKey crc s txnId now k logged value).1, ← one, putAll]
  rcases put (chainsOf s) k value txnId with ⟨c, _ | _⟩ <;> rfl

theorem committed_step (quiet : ∀ txnId shouldSync now, op ≠ .commit txnId shouldSync now)
    (keeping : op ≠ .gc) (key : Bytes) :
    (chainsOf (step crc s op) key).committed = (chainsOf s key).committed := by
  cases op with
  | commit txnId shouldSync now => exact absurd rfl (quiet txnId shouldSync now)
  | gc => exact absurd rfl keeping
  | abort txnId now =>
    have after := congrFun (chains_abort crc s txnId now) key
    refine (congrArg VersionChain.committed after).trans ?_
    split
    · exact VersionChain.committed_abort _ _
    · rfl
  | writeRefs txnId now k | delete txnId now k => exact committed_writeKey crc s txnId now k _ _ key
  | writeBatchRefs txnId writes =>
    have after := congrFun (chains_batch crc s txnId writes).1 key
    exact (congrArg VersionChain.committed after).trans (committed_putAll _ _ _ _)
  | read txnId k =>
    show (chainsOf (s.read txnId k).1 key).committed = _
    rw [chains_read]
  | beginWithMode | beginReadOnlyFast | abortReadOnlyFast => rfl

theorem chains_gcStep : chainsOf s.gc.1 =
    collect (chainsOf s) s.mvcc.minActiveTs (dirtyKeys s.memtable) :=
  chains_gc s.memtable s.mvcc.minActiveTs

theorem committed_gcStep :
    (chainsOf s.gc.1 key).committed.Sublist (chainsOf s key).committed ∧
      (chainsOf s.gc.1 key).committed.head? = (chainsOf s key).committed.head? := by
  rw [chains_gcStep, collect]
  split
  · refine ⟨Timeline.prune_sublist _ _, ?_⟩
    rw [VersionChain.committed_gc, Timeline.prune_eq_take]
    cases (chainsOf s key).committed <;> rfl
  · exact ⟨.refl _, rfl⟩

theorem committed_quiet (quiet : ∀ txnId shouldSync now, op ≠ .commit txnId shouldSync now) (key : Bytes) :
    (chainsOf (step crc s op) key).committed.Sublist (chainsOf s key).committed ∧
      (chainsOf (step crc s op) key).committed.head? = (chainsOf s key).committed.head? := by
  by_cases collecting : op = .gc
  · subst collecting
    exact committed_gcStep s key
  · rw [committed_step crc s quiet collecting key]
    exact ⟨.refl _, rfl⟩

def published (txnId : Nat) (txn : MvccTransaction H) : List Bytes :=
  txn.writeSet.filter fun key => ((chainsOf s key).own txnId).isSome

theorem committed_commit {txnId : Nat} (found : active s txnId = some txn)
    (accepted : s.mvcc.refuses txn = false) (shouldSync : Bool) (now : UInt64) (key : Bytes) :
    (key ∈ published s txnId txn ∧ ∃ value, (chainsOf s key).own txnId = some value ∧
      (chainsOf (s.commit crc txnId shouldSync now).1 key).committed =
        Timeline.place Version.commitTs ⟨value, txnId, s.mvcc.tsCounter⟩ (chainsOf s key).committed) ∨
    (key ∉ published s txnId txn ∧
      (chainsOf (s.commit crc txnId shouldSync now).1 key).committed = (chainsOf s key).committed) := by
  rw [chains_commit_succeeded crc s found accepted]
  by_cases member : key ∈ published s txnId txn
  · obtain ⟨tracked, owned⟩ := List.mem_filter.mp member
    obtain ⟨value, mine⟩ := isSome_iff_exists.mp owned
    exact .inl ⟨member, value, mine, (publish_own tracked mine s.mvcc.tsCounter).1⟩
  · refine .inr ⟨member, ?_⟩
    rw [publish_other]
    by_contra both
    rw [not_or, not_not, ← ne_eq, ne_none_iff_isSome] at both
    exact member (List.mem_filter.mpr both)

theorem mem_committed_commit {txnId : Nat} {shouldSync : Bool} {now : UInt64} {key : Bytes} {v : Version}
    (member : v ∈ (chainsOf (s.commit crc txnId shouldSync now).1 key).committed) :
    v ∈ (chainsOf s key).committed ∨ ∃ txn, active s txnId = some txn ∧ s.mvcc.refuses txn = false ∧
      v.commitTs = s.mvcc.tsCounter ∧ key ∈ published s txnId txn := by
  cases verdict : commits s txnId with
  | false =>
    rw [chains_commit_failed crc s verdict] at member
    exact .inl member
  | true =>
    obtain ⟨txn, found, accepted⟩ := commits_iff.mp verdict
    rcases committed_commit crc s found accepted shouldSync now key with
      ⟨inside, value, _, placed⟩ | ⟨_, same⟩
    · rw [placed] at member
      rcases Timeline.mem_place.mp member with rfl | old
      · exact .inr ⟨txn, found, accepted, rfl, inside⟩
      · exact .inl old
    · rw [same] at member
      exact .inl member

theorem tsCounter_quiet (quiet : ∀ txnId shouldSync now, op ≠ .commit txnId shouldSync now) :
    (step crc s op).mvcc.tsCounter = s.mvcc.tsCounter := by
  cases op with
  | commit txnId shouldSync now => exact absurd rfl (quiet txnId shouldSync now)
  | abort txnId now => exact tsCounter_abort crc s txnId now
  | read txnId key => exact tsCounter_read s txnId key
  | writeBatchRefs txnId writes => exact tsCounter_batch crc s txnId writes
  | beginWithMode | beginReadOnlyFast | abortReadOnlyFast | writeRefs | delete | gc => rfl

theorem recentCommits_quiet (quiet : ∀ txnId shouldSync now, op ≠ .commit txnId shouldSync now) :
    (step crc s op).mvcc.recentCommits = s.mvcc.recentCommits := by
  cases op with
  | commit txnId shouldSync now => exact absurd rfl (quiet txnId shouldSync now)
  | abort txnId now =>
    show (s.abort crc txnId now).mvcc.recentCommits = _
    rw [abort_mvcc]
    rfl
  | read txnId key => exact congrArg (·.mvcc.recentCommits) (read_rest s txnId key)
  | writeBatchRefs txnId writes =>
    show (s.writeBatchRefs crc txnId writes).1.mvcc.recentCommits = _
    rw [batch_rest]
    exact (logAll_rest crc s txnId writes).2.2.2.2.2
  | beginWithMode | beginReadOnlyFast | abortReadOnlyFast | writeRefs | delete | gc => rfl

def begins : Op → Bool
  | .beginWithMode _ _ | .beginReadOnlyFast => true
  | _ => false

def isAccess : Op → Bool
  | .read _ _ | .writeRefs _ _ _ _ | .delete _ _ _ | .writeBatchRefs _ _ => true
  | _ => false

theorem minActiveTs_access (access : isAccess op = true) :
    (step crc s op).mvcc.minActiveTs = s.mvcc.minActiveTs := by
  cases op with
  | read reader key => exact congrArg (·.mvcc.minActiveTs) (read_rest s reader key)
  | writeBatchRefs writer writes =>
    show (s.writeBatchRefs crc writer writes).1.mvcc.minActiveTs = _
    rw [batch_rest]
    exact (logAll_rest crc s writer writes).2.2.2.2.1
  | writeRefs | delete => rfl
  | beginWithMode | beginReadOnlyFast | abortReadOnlyFast | commit | abort | gc => cases access

theorem nextTxnId_step (op : Op) :
    (step crc s op).wal.nextTxnId = if begins op then s.wal.nextTxnId + 1 else s.wal.nextTxnId := by
  cases op with
  | read txnId key => exact congrArg (·.wal.nextTxnId) (read_rest s txnId key)
  | writeBatchRefs txnId writes => exact congrArg TxnWal.nextTxnId (wal_batch crc s txnId writes)
  | commit txnId shouldSync now => exact nextTxnId_commit crc s txnId shouldSync now
  | abort txnId now => exact nextTxnId_abort crc s txnId now
  | beginWithMode | beginReadOnlyFast | abortReadOnlyFast | writeRefs | delete | gc => rfl

def writesOf : Op → Nat → List Bytes
  | .writeRefs writer _ key _, txnId | .delete writer _ key, txnId =>
    if writer = txnId then [key] else []
  | .writeBatchRefs writer writes, txnId => if writer = txnId then writes.map (·.2.1) else []
  | _, _ => []

structure WriteCall where
  txnId : Nat
  logged : List (UInt64 × Bytes × Bytes)
  puts : List (Bytes × Option Bytes)

def writeCall : Op → Option WriteCall
  | .writeRefs txnId now key value => some ⟨txnId, [(now, key, value)], [(key, some value)]⟩
  | .delete txnId now key => some ⟨txnId, [(now, key, [])], [(key, none)]⟩
  | .writeBatchRefs txnId writes => some ⟨txnId, writes, rows writes⟩
  | _ => none

structure Continues (op : Op) (txnId : Nat) (before after : MvccTransaction H) : Prop where
  snapshotTs : after.snapshotTs = before.snapshotTs
  mode : after.mode = before.mode
  writeSet : ∀ key, key ∈ after.writeSet ↔ key ∈ before.writeSet ∨ key ∈ writesOf op txnId

theorem Continues.refl {txnId : Nat} (none : writesOf op txnId = []) (txn : MvccTransaction H) :
    Continues op txnId txn txn :=
  ⟨rfl, rfl, by simp [none]⟩

theorem active_of_step {txnId : Nat} (running : active (step crc s op) txnId = some txn) :
    (∃ before, active s txnId = some before ∧ Continues op txnId before txn) ∨
      begins op = true ∧ txnId = s.wal.nextTxnId ∧ txn.snapshotTs = s.mvcc.tsCounter ∧
        txn.writeSet = [] := by
  have adjusted : ∀ {other : Nat} {f : MvccTransaction H → MvccTransaction H}
      {found : Option (MvccTransaction H)}
      (_ : found = if txnId = other then (active s other).map f else active s txnId)
      (_ : ∀ t, txnId = other → Continues op txnId t (f t))
      (_ : txnId ≠ other → writesOf op txnId = []) (_ : found = some txn),
      ∃ before, active s txnId = some before ∧ Continues op txnId before txn := by
    intro other f found is keeps others known
    rw [is] at known
    split at known
    · rename_i same
      obtain ⟨before, old, rfl⟩ := map_eq_some_iff.mp known
      exact ⟨before, same ▸ old, keeps before same⟩
    · rename_i different
      exact ⟨txn, known, Continues.refl (others different) txn⟩
  have removed : ∀ {other : Nat} {found : Option (MvccTransaction H)}
      (_ : found = if txnId = other then none else active s txnId)
      (_ : writesOf op txnId = []) (_ : found = some txn),
      ∃ before, active s txnId = some before ∧ Continues op txnId before txn := by
    intro other found is silent known
    rw [is] at known
    split at known
    · cases known
    · exact ⟨txn, known, Continues.refl silent txn⟩
  have entered : ∀ {mode : TransactionMode}, writesOf op txnId = [] →
      (s.mvcc.beginWithMode s.wal.nextTxnId mode).active txnId = some txn →
      (∃ before, active s txnId = some before ∧ Continues op txnId before txn) ∨
        txnId = s.wal.nextTxnId ∧ txn.snapshotTs = s.mvcc.tsCounter ∧ txn.writeSet = [] := by
    intro mode silent known
    rw [MvccManager.active_beginWithMode] at known
    split at known
    · rename_i same
      cases known
      exact .inr ⟨same, rfl, rfl⟩
    · exact .inl ⟨txn, known, Continues.refl silent txn⟩
  cases op with
  | beginWithMode | beginReadOnlyFast => exact (entered rfl running).imp_right fun new => ⟨rfl, new⟩
  | abortReadOnlyFast other => exact .inl (removed (s.mvcc.active_abort other txnId) rfl running)
  | read other key =>
    refine .inl (adjusted (active_read s other key txnId) (fun t _ => ?_) (fun _ => rfl) running)
    obtain ⟨sameSnapshot, sameMode⟩ := t.recordRead_kept key
    exact ⟨sameSnapshot, sameMode, by simp [t.writeSet_recordRead, writesOf]⟩
  | writeRefs other now key | delete other now key =>
    refine .inl (adjusted (active_writeKey crc s other now key _ _ txnId)
      (fun t same => ⟨rfl, rfl, fun k => ?_⟩) (fun different => ?_) running)
    · simp [MvccTransaction.mem_recordWrite, writesOf, same, or_comm]
    · simp [writesOf, Ne.symm different]
  | writeBatchRefs other writes =>
    refine .inl (adjusted (active_batch crc s other writes txnId) (fun t same => ?_)
      (fun different => ?_) running)
    · obtain ⟨sameSnapshot, sameMode⟩ := recordWrites_kept t ((rows writes).map Prod.fst)
      refine ⟨sameSnapshot, sameMode, fun k => ?_⟩
      rw [mem_recordWrites, or_comm]
      simp [writesOf, rows, same]
    · simp [writesOf, Ne.symm different]
  | commit other shouldSync now =>
    exact .inl (removed (active_commit crc s other shouldSync now txnId) rfl running)
  | abort other now => exact .inl (removed (active_abort crc s other now txnId) rfl running)
  | gc => exact .inl ⟨txn, running, Continues.refl rfl txn⟩

theorem issued_step {s : DurableStorage H} (issued : ∀ txnId, (active s txnId).isSome → txnId < s.wal.nextTxnId)
    (op : Op) (txnId : Nat) (alive : (active (step crc s op) txnId).isSome) :
    txnId < (step crc s op).wal.nextTxnId := by
  obtain ⟨txn, running⟩ := isSome_iff_exists.mp alive
  rw [nextTxnId_step]
  rcases active_of_step crc s running with ⟨before, known, _⟩ | ⟨beginning, rfl, _⟩
  · have := issued txnId (by rw [known]; rfl)
    split <;> omega
  · rw [if_pos beginning]
    exact Nat.lt_succ_self _

def Watermarked : Prop := ∀ txnId txn, active s txnId = some txn → s.mvcc.minActiveTs ≤ txn.snapshotTs

theorem Watermarked.step {s : DurableStorage H} (watermarked : Watermarked s) (op : Op) :
    Watermarked (step crc s op) := by
  intro txnId txn running
  -- an operation that begins nothing and leaves the watermark leaves the snapshots too
  have unmoved : begins op = false → (StorageEngine.step crc s op).mvcc.minActiveTs = s.mvcc.minActiveTs →
      (StorageEngine.step crc s op).mvcc.minActiveTs ≤ txn.snapshotTs := by
    intro quiet same
    rcases active_of_step crc s running with ⟨before, found, goesOn⟩ | ⟨beginning, _⟩
    · rw [same, goesOn.snapshotTs]
      exact watermarked txnId before found
    · rw [quiet] at beginning
      cases beginning
  cases op with
  | beginWithMode | beginReadOnlyFast | abortReadOnlyFast => exact MvccManager.watermark_le _ running
  | abort ended now =>
    change (s.abort crc ended now).mvcc.active txnId = some txn at running
    change (s.abort crc ended now).mvcc.minActiveTs ≤ _
    rw [abort_mvcc] at running ⊢
    exact MvccManager.watermark_le _ running
  | commit ended shouldSync now =>
    change (s.commit crc ended shouldSync now).1.mvcc.active txnId = some txn at running
    change (s.commit crc ended shouldSync now).1.mvcc.minActiveTs ≤ _
    rw [commit_mvcc] at running ⊢
    exact MvccManager.watermark_commit _ ended (watermarked txnId) running
  | read | writeRefs | delete | writeBatchRefs => exact unmoved rfl (minActiveTs_access crc s rfl)
  | gc => exact unmoved rfl rfl

theorem holder_of_step {txnId : Nat} {key : Bytes} (held : holder (step crc s op) key = some txnId) :
    holder s key = some txnId ∨ key ∈ writesOf op txnId ∧ ¬ Refused s txnId key := by
  have written : ∀ {writer now k logged value},
      holder (s.writeKey crc writer now k logged value).1 key = some txnId →
      holder s key = some txnId ∨ (writer = txnId ∧ key = k) ∧ ¬ Refused s txnId key := by
    intro writer now k logged value found
    rw [holder_writeKey] at found
    split at found
    · rename_i taken
      obtain ⟨rfl, free⟩ := taken
      obtain rfl := some.inj found
      exact .inr ⟨⟨rfl, rfl⟩, free⟩
    · exact .inl found
  cases op with
  | writeRefs | delete =>
    refine (written held).imp_right fun ⟨⟨mine, same⟩, free⟩ => ⟨?_, free⟩
    simp [writesOf, mine, same]
  | writeBatchRefs writer writes =>
    have after : ((putAll (chainsOf s) writer (rows writes)).1 key).owner = some txnId := by
      rw [← (chains_batch crc s writer writes).1]
      exact held
    rcases owner_putAll (chainsOf s) writer (rows writes) key txnId after with before | ⟨rfl, inside⟩
    · exact .inl before
    · refine .inr ⟨by simpa [writesOf, rows] using inside, ?_⟩
      rintro ⟨other, holding, different⟩
      have kept := owner_putAll_kept (chainsOf s) txnId (rows writes) key holding
      exact different (some.inj (kept.symm.trans after))
  | commit ended shouldSync now =>
    refine .inl ?_
    change holder (s.commit crc ended shouldSync now).1 key = some txnId at held
    cases verdict : commits s ended with
    | false =>
      rw [holder, chains_commit_failed crc s verdict] at held
      exact held
    | true =>
      obtain ⟨txn, found, accepted⟩ := commits_iff.mp verdict
      rw [holder, chains_commit_succeeded crc s found accepted, owner_publish] at held
      split at held
      · cases held
      · exact held
  | abort ended now =>
    refine .inl ?_
    change holder (s.abort crc ended now) key = some txnId at held
    rw [holder, chains_abort] at held
    split at held
    · rw [owner_rollback] at held
      split at held
      · cases held
      · exact held
    · exact held
  | gc =>
    refine .inl ?_
    change holder s.gc.1 key = some txnId at held
    rwa [holder, chains_gcStep, owner_collect] at held
  | read reader k =>
    change holder (s.read reader k).1 key = some txnId at held
    rw [holder, chains_read] at held
    exact .inl held
  | beginWithMode | beginReadOnlyFast | abortReadOnlyFast => exact .inl held

end
end EngineSteps
