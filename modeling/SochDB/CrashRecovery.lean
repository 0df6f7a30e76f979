import SochDB.Library.Runs
import SochDB.WalReplay
import SochDB.Recovery

/-!
Two accounts of one history: the version chains of the live store, and the log that a
restart replays. They agree on every key as long as each commit that is accepted logs,
for every key it wrote, the value that it publishes.
-/
namespace CrashRecovery
open Runs Framing KeyedMaps WalRecords WalFraming WriteAheadLog WalReplay List Option
open TxnManager BloomFilter VersionChains MemTables ChainView StorageEngine EngineSteps Recovery

section
variable {H : KeyHashes} (crc : Crc32fast)

def bufferedWrites (s : DurableStorage H) (txnId : Nat) : List Write :=
  (readable crc (bufferBytes s txnId)).map fun e => (e.key, e.value)

def freshRead (s : DurableStorage H) (now : UInt64) (key : Bytes) : Except SochDBError (Option Bytes) :=
  let (s, txnId) := s.beginTransaction crc now
  (s.read txnId key).2

/-- A restart on the whole log recovers, and every key reads as it does in this store. -/
def RestartAgrees (s : DurableStorage H) : Prop :=
  ∀ ourPid kind enableOrderedIndex,
    let restarted : DurableStorage H × Except SochDBError RecoveryStats :=
      (DurableStorage.openWith crc ourPid s.wal.written kind enableOrderedIndex).recover crc
    (∃ stats, restarted.2 = .ok stats) ∧
      ∀ key now later, freshRead crc restarted.1 later key = freshRead crc s now key

/-- Writes come from running transactions, their records fit a frame of the log, and ids
    fit the 64 bits that a record has for them. -/
def Loggable (s : DurableStorage H) : Op → Prop
  | .beginWithMode _ _ | .beginReadOnlyFast => s.wal.nextTxnId < 2 ^ 64
  | .writeRefs txnId now key value =>
    (active s txnId).isSome ∧ (TxnWalEntry.data (UInt64.ofNat txnId) now key value).FitsFrame
  | .delete txnId now key =>
    (active s txnId).isSome ∧ (TxnWalEntry.data (UInt64.ofNat txnId) now key []).FitsFrame
  | .writeBatchRefs txnId writes =>
    (active s txnId).isSome ∧
      ∀ w ∈ writes, (TxnWalEntry.data (UInt64.ofNat txnId) w.1 w.2.1 w.2.2).FitsFrame
  | _ => True

instance (s : DurableStorage H) : (op : Op) → Decidable (Loggable s op)
  | .beginWithMode _ _ | .beginReadOnlyFast => inferInstanceAs (Decidable (_ < _))
  | .writeRefs _ _ _ _ | .delete _ _ _ | .writeBatchRefs _ _ => inferInstanceAs (Decidable (_ ∧ _))
  | .abortReadOnlyFast _ | .read _ _ | .commit _ _ _ | .abort _ _ | .gc =>
    inferInstanceAs (Decidable True)

/-- If the commit is accepted, then for every key of the write set the last buffered
    record carries the value that will be the newest one of the key. -/
def LogsWhatItPublishes (s : DurableStorage H) : Op → Prop
  | .commit txnId _ _ => ∀ txn ∈ active s txnId, s.mvcc.refuses txn = false → ∀ key ∈ txn.writeSet,
      ((chainsOf s key).own txnId).getD (chainsOf s key).latest =
        lastValue (bufferedWrites crc s txnId) key
  | _ => True

instance (s : DurableStorage H) : (op : Op) → Decidable (LogsWhatItPublishes crc s op)
  | .commit txnId _ _ =>
    inferInstanceAs (Decidable (∀ txn ∈ active s txnId, _))
  | .beginWithMode _ _ | .beginReadOnlyFast | .abortReadOnlyFast _ | .read _ _ | .writeRefs _ _ _ _
  | .delete _ _ _ | .writeBatchRefs _ _ | .abort _ _ | .gc => inferInstanceAs (Decidable True)

def dataRecords (txnId : Nat) (writes : List (UInt64 × Bytes × Bytes)) : List TxnWalEntry :=
  writes.map fun w => TxnWalEntry.data (UInt64.ofNat txnId) w.1 w.2.1 w.2.2

def Filled (txnId : Nat) (buffer : TxnWalBuffer) : Prop :=
  ∃ writes, buffer = bufferOf crc (UInt64.ofNat txnId) writes ∧
    ∀ e ∈ dataRecords txnId writes, e.FitsFrame

variable (txnId : Nat) (ourPid : UInt32)

theorem bufferOf_bytes (writes : List (UInt64 × Bytes × Bytes)) :
    (bufferOf crc (UInt64.ofNat txnId) writes).buffer =
      (walCodec crc).encodeAll (dataRecords txnId writes) := by
  rw [bufferOf, buffer_appends]
  rfl

theorem readable_bufferOf {txnId : Nat} {writes : List (UInt64 × Bytes × Bytes)}
    (fits : ∀ e ∈ dataRecords txnId writes, e.FitsFrame) :
    readable crc (bufferOf crc (UInt64.ofNat txnId) writes).buffer = dataRecords txnId writes := by
  rw [bufferOf_bytes, readable_encodeAll crc fits]

theorem pairs_dataRecords (writes : List (UInt64 × Bytes × Bytes)) :
    ((dataRecords txnId writes).map fun e => (e.key, e.value)) = writes.map Prod.snd := by
  simp [dataRecords, TxnWalEntry.data]

theorem Filled.appendAll {txnId : Nat} {buffer : TxnWalBuffer} (filled : Filled crc txnId buffer)
    {rows : List (UInt64 × Bytes × Bytes)} (fits : ∀ e ∈ dataRecords txnId rows, e.FitsFrame) :
    Filled crc txnId (appendAll crc buffer rows) ∧
      ((readable crc (appendAll crc buffer rows).buffer).map fun e => (e.key, e.value)) =
        ((readable crc buffer.buffer).map fun e => (e.key, e.value)) ++ rows.map Prod.snd := by
  obtain ⟨writes, rfl, before⟩ := filled
  have all : ∀ e ∈ dataRecords txnId (writes ++ rows), e.FitsFrame := by
    rw [dataRecords, map_append]
    exact forall_mem_append.mpr ⟨before, fits⟩
  have longer : EngineSteps.appendAll crc (bufferOf crc (UInt64.ofNat txnId) writes) rows =
      bufferOf crc (UInt64.ofNat txnId) (writes ++ rows) := by
    rw [bufferOf, bufferOf, foldl_append]
    rfl
  rw [longer]
  refine ⟨⟨writes ++ rows, rfl, all⟩, ?_⟩
  rw [readable_bufferOf crc all, readable_bufferOf crc before, pairs_dataRecords, pairs_dataRecords,
    map_append]

theorem filled_new : Filled crc txnId (TxnWalBuffer.new (UInt64.ofNat txnId)) :=
  ⟨[], rfl, by simp [dataRecords]⟩

structure Tidy (s : DurableStorage H) : Prop where
  ids_fit : s.wal.nextTxnId ≤ 2 ^ 64
  actives_issued : ∀ txnId, (active s txnId).isSome → txnId < s.wal.nextTxnId
  holders_issued : ∀ key txnId, holder s key = some txnId → txnId < s.wal.nextTxnId
  buffers_filled : ∀ txnId buffer, pendingBuffer s txnId = some buffer →
    txnId < s.wal.nextTxnId ∧ Filled crc txnId buffer
  writes_buffered : ∀ txnId txn, active s txnId = some txn → ∀ key,
    key ∈ txn.writeSet ↔ key ∈ (bufferedWrites crc s txnId).map Prod.fst
  stamps_past : ∀ key, ∀ v ∈ (chainsOf s key).committed, v.commitTs < s.mvcc.tsCounter

section Steps
variable {s : DurableStorage H}
variable {s' : DurableStorage H}

variable {txnId : Nat}

theorem bufferedWrites_of_buffer (same : pendingBuffer s' txnId = pendingBuffer s txnId) :
    bufferedWrites crc s' txnId = bufferedWrites crc s txnId := by
  rw [bufferedWrites, bufferedWrites, bufferBytes, bufferBytes, same]

theorem Tidy.filled (tidy : Tidy crc s) (txnId : Nat) :
    Filled crc txnId ((pendingBuffer s txnId).getD (TxnWalBuffer.new (UInt64.ofNat txnId))) := by
  cases found : pendingBuffer s txnId with
  | none => exact filled_new crc txnId
  | some buffer => exact (tidy.buffers_filled txnId buffer found).2

theorem bufferedWrites_getD (txnId : Nat) : bufferedWrites crc s txnId =
    (readable crc ((pendingBuffer s txnId).getD (TxnWalBuffer.new (UInt64.ofNat txnId))).buffer).map
      fun e => (e.key, e.value) := by
  rw [bufferedWrites, bufferBytes]
  cases pendingBuffer s txnId <;> rfl

variable (tidy : Tidy crc s)
include tidy

variable {writes : List (UInt64 × Bytes × Bytes)}

theorem Tidy.logs (running : (active s txnId).isSome)
    (fits : ∀ e ∈ dataRecords txnId writes, e.FitsFrame) (sameNext : s'.wal.nextTxnId = s.wal.nextTxnId)
    (sameCounter : s'.mvcc.tsCounter = s.mvcc.tsCounter)
    (actives : ∀ other, active s' other = if other = txnId then
      (active s txnId).map (recordWrites · ((rows writes).map Prod.fst)) else active s other)
    (buffers : ∀ other, pendingBuffer s' other = if other = txnId ∧ writes ≠ [] then
      some (appendAll crc ((pendingBuffer s txnId).getD (TxnWalBuffer.new (UInt64.ofNat txnId)))
        writes) else pendingBuffer s other)
    (committed : ∀ key, (chainsOf s' key).committed = (chainsOf s key).committed)
    (holders : ∀ key other, holder s' key = some other → holder s key = some other ∨ other = txnId) :
    Tidy crc s' := by
  have mine := tidy.actives_issued txnId running
  obtain ⟨filled, logged⟩ := (tidy.filled crc txnId).appendAll crc fits
  refine ⟨?_, ?_, ?_, ?_, ?_, ?_⟩
  · rw [sameNext]
    exact tidy.ids_fit
  · intro other found
    rw [sameNext]
    rw [actives] at found
    split at found
    · rename_i same
      exact same ▸ mine
    · exact tidy.actives_issued other found
  · intro key other held
    rw [sameNext]
    rcases holders key other held with before | rfl
    · exact tidy.holders_issued key other before
    · exact mine
  · intro other buffer found
    rw [sameNext]
    rw [buffers] at found
    split at found
    · rename_i same
      obtain ⟨rfl, _⟩ := same
      cases found
      exact ⟨mine, filled⟩
    · exact tidy.buffers_filled other buffer found
  · intro other txn found key
    rw [actives] at found
    split at found
    · rename_i same
      subst same
      obtain ⟨before, known, rfl⟩ := map_eq_some_iff.mp found
      have grown : bufferedWrites crc s' other = bufferedWrites crc s other ++ writes.map Prod.snd := by
        rw [bufferedWrites_getD, bufferedWrites_getD, ← logged, buffers]
        cases writes with
        | nil => simp [EngineSteps.appendAll]
        | cons w writes => simp
      rw [grown, map_append, mem_append, mem_recordWrites,
        tidy.writes_buffered other before known key]
      simp [rows, or_comm]
    · rename_i different
      rw [bufferedWrites_of_buffer crc (s := s) (by rw [buffers, if_neg fun h => different h.1])]
      exact tidy.writes_buffered other txn found key
  · intro key v member
    rw [committed] at member
    rw [sameCounter]
    exact tidy.stamps_past key v member

theorem Tidy.shrinks (sameNext : s'.wal.nextTxnId = s.wal.nextTxnId)
    (actives : ∀ other txn', active s' other = some txn' → ∃ txn, active s other = some txn ∧
      txn'.writeSet = txn.writeSet ∧ pendingBuffer s' other = pendingBuffer s other)
    (buffers : ∀ other buffer, pendingBuffer s' other = some buffer →
      pendingBuffer s other = some buffer)
    (holders : ∀ key other, holder s' key = some other → holder s key = some other)
    (stamps : ∀ key, ∀ v ∈ (chainsOf s' key).committed, v.commitTs < s'.mvcc.tsCounter) :
    Tidy crc s' := by
  refine ⟨?_, ?_, ?_, ?_, ?_, stamps⟩
  · rw [sameNext]
    exact tidy.ids_fit
  · intro other found
    rw [sameNext]
    obtain ⟨txn', known⟩ := isSome_iff_exists.mp found
    obtain ⟨txn, before, _, _⟩ := actives other txn' known
    exact tidy.actives_issued other (by rw [before]; rfl)
  · intro key other held
    rw [sameNext]
    exact tidy.holders_issued key other (holders key other held)
  · intro other buffer found
    rw [sameNext]
    exact tidy.buffers_filled other buffer (buffers other buffer found)
  · intro other txn' found key
    obtain ⟨txn, before, sameWrites, sameBuffer⟩ := actives other txn' found
    rw [sameWrites, bufferedWrites_of_buffer crc sameBuffer]
    exact tidy.writes_buffered other txn before key

theorem Tidy.begin {mode : TransactionMode} (room : s.wal.nextTxnId < 2 ^ 64)
    (sameChains : chainsOf s' = chainsOf s)
    (sameBuffers : ∀ other, pendingBuffer s' other = pendingBuffer s other)
    (next : s'.wal.nextTxnId = s.wal.nextTxnId + 1) (sameCounter : s'.mvcc.tsCounter = s.mvcc.tsCounter)
    (entered : ∀ other, active s' other = if other = s.wal.nextTxnId then
      some (.withMode s.wal.nextTxnId s.mvcc.tsCounter mode) else active s other) :
    Tidy crc s' := by
  refine ⟨?_, ?_, ?_, ?_, ?_, ?_⟩
  · omega
  · intro other found
    rw [next]
    rw [entered] at found
    split at found
    · omega
    · have := tidy.actives_issued other found
      omega
  · intro key other held
    rw [holder, sameChains] at held
    have := tidy.holders_issued key other held
    omega
  · intro other buffer found
    rw [sameBuffers] at found
    obtain ⟨issued, filled⟩ := tidy.buffers_filled other buffer found
    exact ⟨by omega, filled⟩
  · intro other txn found key
    rw [entered] at found
    rw [bufferedWrites_of_buffer crc (sameBuffers other)]
    split at found
    · -- an id that was never issued has no buffer yet
      rename_i fresh
      cases found
      have unused : pendingBuffer s other = none := by
        cases held : pendingBuffer s other with
        | none => rfl
        | some buffer =>
          have := (tidy.buffers_filled other buffer held).1
          omega
      simp [bufferedWrites, bufferBytes, unused, readable, scan, readAll, fromReader, readLe,
        readExact, bind, Except.bind, MvccTransaction.withMode, MvccTransaction.writeSet, Footprint.new]
    · exact tidy.writes_buffered other txn found key
  · intro key v member
    rw [sameChains] at member
    rw [sameCounter]
    exact tidy.stamps_past key v member

theorem Tidy.ended (sameNext : s'.wal.nextTxnId = s.wal.nextTxnId)
    (actives : ∀ other, active s' other = if other = txnId then none else active s other)
    (buffers : ∀ other, pendingBuffer s' other = if other = txnId then none else pendingBuffer s other)
    (holders : ∀ key other, holder s' key = some other → holder s key = some other)
    (stamps : ∀ key, ∀ v ∈ (chainsOf s' key).committed, v.commitTs < s'.mvcc.tsCounter) :
    Tidy crc s' := by
  refine tidy.shrinks crc sameNext ?_ ?_ holders stamps
  · intro other txn found
    rw [actives] at found
    split at found
    · cases found
    · rename_i different
      exact ⟨txn, found, rfl, by rw [buffers, if_neg different]⟩
  · intro other buffer found
    rw [buffers] at found
    split at found
    · cases found
    · exact found

theorem Tidy.commit (txnId : Nat) (shouldSync : Bool) (now : UInt64) :
    Tidy crc (s.commit crc txnId shouldSync now).1 := by
  refine tidy.ended crc (nextTxnId_commit crc s txnId shouldSync now)
    (active_commit crc s txnId shouldSync now) (pendingBuffer_commit crc s txnId shouldSync now) ?_ ?_
  · intro key other held
    change holder (step crc s (.commit txnId shouldSync now)) key = some other at held
    exact (holder_of_step crc s held).resolve_right fun written => not_mem_nil written.1
  · intro key v member
    rw [tsCounter_commit]
    rcases mem_committed_commit crc s member with old | ⟨txn, found, accepted, stamp, _⟩
    · have := tidy.stamps_past key v old
      split <;> omega
    · rw [if_pos (commits_iff.mpr ⟨txn, found, accepted⟩), stamp]
      exact Nat.lt_succ_self _

theorem Tidy.abort (txnId : Nat) (now : UInt64) :
    Tidy crc (s.abort crc txnId now) := by
  refine tidy.ended crc (nextTxnId_abort crc s txnId now) (active_abort crc s txnId now)
    (pendingBuffer_abort crc s txnId now) ?_ ?_
  · intro key other held
    change holder (step crc s (.abort txnId now)) key = some other at held
    exact (holder_of_step crc s held).resolve_right fun written => not_mem_nil written.1
  · intro key v member
    rw [tsCounter_abort]
    rw [EngineSteps.chains_abort] at member
    refine tidy.stamps_past key v ?_
    split at member
    · rwa [rollback, VersionChain.committed_abort] at member
    · exact member

theorem Tidy.fastAbort (txnId : Nat) : Tidy crc (s.abortReadOnlyFast txnId) := by
  refine tidy.shrinks crc rfl ?_ (fun _ _ found => found) (fun _ _ held => held) tidy.stamps_past
  intro other txn found
  have gone := s.mvcc.active_abort txnId other
  rw [active, DurableStorage.abortReadOnlyFast, gone] at found
  split at found
  · cases found
  · exact ⟨txn, found, rfl, rfl⟩

theorem Tidy.read (txnId : Nat) (key : Bytes) : Tidy crc (s.read txnId key).1 := by
  have rest := read_rest s txnId key
  have counter := tsCounter_read s txnId key
  have sameBuffers : ∀ other, pendingBuffer (s.read txnId key).1 other = pendingBuffer s other := by
    intro other
    rw [rest]
    rfl
  have sameChains : chainsOf (s.read txnId key).1 = chainsOf s := by
    rw [rest]
    rfl
  refine tidy.shrinks crc (by rw [rest]) ?_ (fun other _ found => sameBuffers other ▸ found) ?_ ?_
  · intro other txn found
    rw [active_read] at found
    split at found
    · rename_i same
      subst same
      obtain ⟨before, known, rfl⟩ := map_eq_some_iff.mp found
      exact ⟨before, known, before.writeSet_recordRead key, sameBuffers other⟩
    · exact ⟨txn, found, rfl, sameBuffers other⟩
  · intro k other held
    rwa [holder, sameChains] at held
  · intro k v member
    rw [sameChains] at member
    rw [counter]
    exact tidy.stamps_past k v member

theorem Tidy.gc : Tidy crc s.gc.1 := by
  refine tidy.shrinks crc rfl (fun _ txn found => ⟨txn, found, rfl, rfl⟩) (fun _ _ found => found) ?_ ?_
  · intro key other held
    rwa [holder, chains_gcStep, owner_collect] at held
  · intro key v member
    exact tidy.stamps_past key v ((committed_gcStep s key).1.subset member)

theorem Tidy.writeKey (running : (active s txnId).isSome) {now : UInt64}
    {key logged : Bytes} (fits : (TxnWalEntry.data (UInt64.ofNat txnId) now key logged).FitsFrame)
    (value : Option Bytes) :
    Tidy crc (s.writeKey crc txnId now key logged value).1 := by
  have oneFits : ∀ e ∈ dataRecords txnId [(now, key, logged)], e.FitsFrame := by
    intro e member
    rw [mem_singleton.mp member]
    exact fits
  refine tidy.logs crc running oneFits rfl rfl (active_writeKey crc s txnId now key logged value) ?_
    (committed_writeKey crc s txnId now key logged value) ?_
  · intro other
    simpa [EngineSteps.appendAll] using pendingBuffer_writeKey crc s txnId now key logged value other
  · intro k other held
    rw [holder, (chains_writeKey crc s txnId now key logged value).1, owner_put] at held
    split at held
    · exact .inr (some.inj held).symm
    · exact .inl held

theorem Tidy.batch (running : (active s txnId).isSome)
    (fits : ∀ e ∈ dataRecords txnId writes, e.FitsFrame) :
    Tidy crc (s.writeBatchRefs crc txnId writes).1 := by
  refine tidy.logs crc running fits (by rw [wal_batch]) (tsCounter_batch crc s txnId writes)
    (active_batch crc s txnId writes) (pendingBuffer_batch crc s txnId writes) ?_ ?_
  · intro key
    rw [(chains_batch crc s txnId writes).1, committed_putAll]
  · intro key other held
    rw [holder, (chains_batch crc s txnId writes).1] at held
    exact (owner_putAll (chainsOf s) txnId (rows writes) key other held).imp_right And.left

theorem Tidy.step (op : Op) (loggable : Loggable s op) : Tidy crc (step crc s op) := by
  cases op with
  | beginWithMode | beginReadOnlyFast =>
    exact tidy.begin crc loggable rfl (fun _ => rfl) rfl rfl (s.mvcc.active_beginWithMode _ _)
  | abortReadOnlyFast txnId => exact tidy.fastAbort crc txnId
  | read txnId key => exact tidy.read crc txnId key
  | writeRefs | delete => exact tidy.writeKey crc loggable.1 loggable.2 _
  | writeBatchRefs txnId writes =>
    exact tidy.batch crc loggable.1 (forall_mem_map.mpr loggable.2)
  | commit txnId shouldSync now => exact tidy.commit crc txnId shouldSync now
  | abort txnId now => exact tidy.abort crc txnId now
  | gc => exact tidy.gc crc

end Steps

def appended (s : DurableStorage H) : Op → List TxnWalEntry
  | .beginWithMode _ now => [TxnWalEntry.txnBegin (UInt64.ofNat s.wal.nextTxnId) now]
  | .commit txnId _ now => readable crc (bufferBytes s txnId) ++
      if commits s txnId then [TxnWalEntry.txnCommit (UInt64.ofNat txnId) now] else []
  | .abort txnId now =>
    if (pendingBuffer s txnId).isSome then [TxnWalEntry.txnAbort (UInt64.ofNat txnId) now] else []
  | _ => []

section Journals
variable {s : DurableStorage H} {log : List TxnWalEntry}

theorem Tidy.buffer_records (tidy : Tidy crc s) (txnId : Nat) :
    ∃ writes, bufferBytes s txnId = (walCodec crc).encodeAll (dataRecords txnId writes) ∧
      (∀ e ∈ dataRecords txnId writes, e.FitsFrame) ∧
      (writes ≠ [] → txnId < s.wal.nextTxnId) := by
  unfold bufferBytes
  cases found : pendingBuffer s txnId with
  | none => exact ⟨[], rfl, by simp [dataRecords], by simp⟩
  | some buffer =>
    obtain ⟨issued, writes, rfl, fits⟩ := tidy.buffers_filled txnId buffer found
    exact ⟨writes, bufferOf_bytes crc txnId writes, fits, fun _ => issued⟩

theorem written_step (tidy : Tidy crc s) (op : Op) :
    (step crc s op).wal.written = s.wal.written ++ (walCodec crc).encodeAll (appended crc s op) ∧
      ∀ e ∈ appended crc s op, e.FitsFrame := by
  have small : ∀ t id now, (⟨t, id, now, [], []⟩ : TxnWalEntry).FitsFrame := by
    intro t id now
    show TxnWalEntry.bodyLen _ ≤ maxWalFrameLen
    simp [TxnWalEntry.bodyLen, recordHeaderSize, checksumSize, maxWalFrameLen]
  cases op with
  | beginWithMode mode now =>
    refine ⟨by rw [appended, one_frame]; rfl, ?_⟩
    simp only [appended, mem_singleton, forall_eq]
    exact small _ _ _
  | commit txnId shouldSync now =>
    obtain ⟨writes, bytes, fits, _⟩ := tidy.buffer_records crc txnId
    have records : readable crc (bufferBytes s txnId) = dataRecords txnId writes := by
      rw [bytes, readable_encodeAll crc fits]
    have after := written_commit crc s txnId shouldSync now
    rw [appended, records, Codec.encodeAll_append, ← bytes, ← append_assoc]
    cases verdict : commits s txnId with
    | false =>
      rw [verdict] at after
      exact ⟨by simpa [step, exec] using after, by simpa using fits⟩
    | true =>
      rw [verdict] at after
      exact ⟨by rw [if_pos rfl, one_frame]; exact after,
        forall_mem_append.mpr ⟨fits, forall_mem_singleton.mpr (small _ _ _)⟩⟩
  | abort txnId now =>
    have after := written_abort crc s txnId now
    simp only [appended]
    split
    · rename_i buffered
      rw [if_pos buffered] at after
      refine ⟨by rw [one_frame]; exact after, ?_⟩
      simp only [mem_singleton, forall_eq]
      exact small _ _ _
    · rename_i unbuffered
      rw [if_neg unbuffered] at after
      exact ⟨by simpa [step, exec] using after, by simp⟩
  | read txnId key =>
    have rest := congrArg (fun s => s.wal.written) (read_rest s txnId key)
    exact ⟨by simpa [appended, step, exec] using rest, by simp [appended]⟩
  | writeBatchRefs txnId writes =>
    have same := congrArg TxnWal.written (wal_batch crc s txnId writes)
    exact ⟨by simpa [appended, step, exec] using same, by simp [appended]⟩
  | beginReadOnlyFast | abortReadOnlyFast | writeRefs | delete | gc =>
    exact ⟨(append_nil _).symm, by simp [appended]⟩

structure Journal (s : DurableStorage H) (log : List TxnWalEntry) : Prop where
  written : s.wal.written = (walCodec crc).encodeAll log
  fits : ∀ e ∈ log, e.FitsFrame
  ids_issued : ∀ e ∈ log, ∃ txnId < s.wal.nextTxnId, e.txnId = UInt64.ofNat txnId
  nothing_pending : ∀ txnId, (active s txnId).isSome →
    (get (Replay.ofRecords log).pendingWrites (UInt64.ofNat txnId)).getD [] = []

theorem ofNat_ne {a b : Nat} (aFits : a < 2 ^ 64) (bFits : b < 2 ^ 64) (different : a ≠ b) :
    UInt64.ofNat a ≠ UInt64.ofNat b := by
  intro same
  have nats := congrArg UInt64.toNat same
  rw [UInt64.toNat_ofNat_of_lt' aFits, UInt64.toNat_ofNat_of_lt' bFits] at nats
  exact different nats

theorem ofRecords_append (before after : List TxnWalEntry) :
    Replay.ofRecords (before ++ after) = after.foldl Replay.step (Replay.ofRecords before) :=
  foldl_append

theorem appended_ids (tidy : Tidy crc s) (op : Op) {e : TxnWalEntry} (member : e ∈ appended crc s op) :
    ∃ txnId < (step crc s op).wal.nextTxnId, e.txnId = UInt64.ofNat txnId ∧
      (active s txnId = none ∨ active (step crc s op) txnId = none) := by
  rw [nextTxnId_step]
  cases op with
  | beginWithMode mode now =>
    rw [appended] at member
    rw [mem_singleton.mp member]
    refine ⟨s.wal.nextTxnId, Nat.lt_succ_self _, rfl, .inl ?_⟩
    cases found : active s s.wal.nextTxnId with
    | none => rfl
    | some txn =>
      have := tidy.actives_issued s.wal.nextTxnId (by rw [found]; rfl)
      omega
  | commit txnId shouldSync now =>
    have ended : active (s.commit crc txnId shouldSync now).1 txnId = none := by
      rw [active_commit, if_pos rfl]
    obtain ⟨writes, bytes, fits, issued⟩ := tidy.buffer_records crc txnId
    rw [appended, bytes, readable_encodeAll crc fits, mem_append] at member
    rcases member with flushed | ending
    · obtain ⟨w, inside, rfl⟩ := mem_map.mp flushed
      exact ⟨txnId, issued (ne_nil_of_mem inside), rfl, .inr ended⟩
    · split at ending
      · rename_i accepted
        obtain ⟨txn, found, _⟩ := commits_iff.mp accepted
        rw [mem_singleton.mp ending]
        exact ⟨txnId, tidy.actives_issued txnId (by rw [found]; rfl), rfl, .inr ended⟩
      · cases ending
  | abort txnId now =>
    have ended : active (s.abort crc txnId now) txnId = none := by
      rw [active_abort, if_pos rfl]
    rw [appended] at member
    split at member
    · rename_i buffered
      obtain ⟨buffer, found⟩ := isSome_iff_exists.mp buffered
      rw [mem_singleton.mp member]
      exact ⟨txnId, (tidy.buffers_filled txnId buffer found).1, rfl, .inr ended⟩
    · cases member
  | beginReadOnlyFast | abortReadOnlyFast | read | writeRefs | delete | writeBatchRefs | gc =>
    cases member

theorem Journal.nothing_of_next (journal : Journal crc s log) (room : s.wal.nextTxnId < 2 ^ 64) :
    get (Replay.ofRecords log).pendingWrites (UInt64.ofNat s.wal.nextTxnId) = none := by
  rw [Replay.ofRecords, replay_others]
  · rfl
  · intro e member
    obtain ⟨txnId, issued, id⟩ := journal.ids_issued e member
    rw [id]
    exact ofNat_ne (by omega) room (by omega)

theorem Journal.step (tidy : Tidy crc s) (journal : Journal crc s log) (op : Op)
    (loggable : Loggable s op) : Journal crc (step crc s op) (log ++ appended crc s op) := by
  obtain ⟨bytes, small⟩ := written_step crc tidy op
  have after : Tidy crc (StorageEngine.step crc s op) := tidy.step crc op loggable
  have longer : s.wal.nextTxnId ≤ (StorageEngine.step crc s op).wal.nextTxnId := by
    rw [nextTxnId_step]
    split <;> omega
  have bound := after.ids_fit
  refine ⟨?_, ?_, ?_, ?_⟩
  · rw [bytes, journal.written, Codec.encodeAll_append]
  · exact forall_mem_append.mpr ⟨journal.fits, small⟩
  · refine forall_mem_append.mpr ⟨fun e old => ?_, fun e new => ?_⟩
    · obtain ⟨txnId, issued, id⟩ := journal.ids_issued e old
      exact ⟨txnId, Nat.lt_of_lt_of_le issued longer, id⟩
    · obtain ⟨txnId, issued, id, _⟩ := appended_ids crc tidy op new
      exact ⟨txnId, issued, id⟩
  · intro txnId running
    have issued := after.actives_issued txnId running
    rw [ofRecords_append]
    obtain ⟨txn, known⟩ := isSome_iff_exists.mp running
    rcases active_of_step crc s known with ⟨txn', found, _⟩ | ⟨beginning, rfl, _⟩
    · have before : (active s txnId).isSome := by rw [found]; rfl
      rw [replay_others, journal.nothing_pending txnId before]
      intro e member
      obtain ⟨other, otherIssued, id, ended⟩ := appended_ids crc tidy op member
      rw [id]
      refine ofNat_ne (by omega) (by omega) ?_
      rintro rfl
      rcases ended with gone | gone
      · simp [gone] at before
      · simp [gone] at running
    · have unused := journal.nothing_of_next crc (by omega)
      cases op with
      | beginWithMode mode now => simp [appended, Replay.step, TxnWalEntry.txnBegin, get_insert]
      | beginReadOnlyFast => simp [appended, unused]
      | abortReadOnlyFast | read | writeRefs | delete | writeBatchRefs | commit | abort | gc =>
        cases beginning

def newlyDurable (s : DurableStorage H) : Op → List Write
  | .commit txnId _ _ => if commits s txnId then bufferedWrites crc s txnId else []
  | _ => []

theorem replay_appended (tidy : Tidy crc s) (journal : Journal crc s log) (op : Op) :
    (Replay.ofRecords (log ++ appended crc s op)).result =
      (Replay.ofRecords log).result ++ newlyDurable crc s op := by
  rw [ofRecords_append]
  cases op with
  | commit txnId shouldSync now =>
    obtain ⟨writes, bytes, fits, _⟩ := tidy.buffer_records crc txnId
    have records : readable crc (bufferBytes s txnId) = dataRecords txnId writes := by
      rw [bytes, readable_encodeAll crc fits]
    have logged : bufferedWrites crc s txnId = writes.map Prod.snd := by
      rw [bufferedWrites, records, pairs_dataRecords]
    obtain ⟨result, _, pending⟩ :=
      replay_data (UInt64.ofNat txnId) writes (Replay.ofRecords log) (UInt64.ofNat txnId)
    rw [appended, records, foldl_append, newlyDurable, logged]
    cases verdict : commits s txnId with
    | false =>
      simp only [Bool.false_eq_true, if_false, foldl_nil, append_nil]
      exact result
    | true =>
      obtain ⟨txn, found, _⟩ := commits_iff.mp verdict
      have before := journal.nothing_pending txnId (by rw [found]; rfl)
      have flushed : (get ((dataRecords txnId writes).foldl Replay.step
          (Replay.ofRecords log)).pendingWrites (UInt64.ofNat txnId)).getD [] = writes.map Prod.snd := by
        refine (congrArg (Option.getD · []) pending).trans ?_
        by_cases empty : writes = []
        · rw [if_neg fun h => h.2 empty, before, empty]
          rfl
        · rw [if_pos ⟨rfl, empty⟩, getD_some, before, nil_append]
      rw [if_pos rfl, if_pos rfl, foldl_cons, foldl_nil, result_commit, flushed]
      exact congrArg (· ++ _) result
  | abort txnId now =>
    simp only [appended, newlyDurable, append_nil]
    split <;> rfl
  | beginWithMode | beginReadOnlyFast | abortReadOnlyFast | read | writeRefs | delete
  | writeBatchRefs | gc => exact (append_nil _).symm

def Agreement (s : DurableStorage H) (log : List TxnWalEntry) : Prop :=
  ∀ key, (chainsOf s key).latest = lastValue (Replay.ofRecords log).result key

theorem latest_commit (tidy : Tidy crc s) (txnId : Nat) (shouldSync : Bool) (now : UInt64)
    (key : Bytes) :
    (chainsOf (s.commit crc txnId shouldSync now).1 key).latest =
      if ∃ txn ∈ active s txnId, s.mvcc.refuses txn = false ∧ key ∈ txn.writeSet then
        ((chainsOf s key).own txnId).getD (chainsOf s key).latest
      else (chainsOf s key).latest := by
  split
  · rename_i publishing
    obtain ⟨txn, found, accepted, member⟩ := publishing
    rw [chains_commit_succeeded crc s found accepted]
    cases mine : (chainsOf s key).own txnId with
    | none => rw [publish_other (.inr mine), getD_none]
    | some value =>
      have newest : ∀ v ∈ (chainsOf s key).committed, v.commitTs ≤ s.mvcc.tsCounter :=
        fun v old => Nat.le_of_lt (tidy.stamps_past key v old)
      rw [VersionChain.latest, (publish_own member mine s.mvcc.tsCounter).1, Timeline.place_newest newest]
      rfl
  · rename_i keeping
    cases verdict : commits s txnId with
    | false => rw [chains_commit_failed crc s verdict]
    | true =>
      obtain ⟨txn, found, accepted⟩ := commits_iff.mp verdict
      have outside : key ∉ txn.writeSet := fun member => keeping ⟨txn, found, accepted, member⟩
      rw [chains_commit_succeeded crc s found accepted, publish_other (.inl outside)]

theorem latest_other {op : Op} (quiet : ∀ txnId shouldSync now, op ≠ .commit txnId shouldSync now)
    (key : Bytes) : (chainsOf (step crc s op) key).latest = (chainsOf s key).latest := by
  rw [VersionChain.latest, (committed_quiet crc s quiet key).2]
  rfl

theorem agreement_commit (tidy : Tidy crc s) (journal : Journal crc s log) (agreement : Agreement s log)
    (txnId : Nat) (shouldSync : Bool) (now : UInt64) :
    Agreement (step crc s (.commit txnId shouldSync now))
        (log ++ appended crc s (.commit txnId shouldSync now)) ↔
      LogsWhatItPublishes crc s (.commit txnId shouldSync now) := by
  have result := replay_appended crc tidy journal (.commit txnId shouldSync now)
  have newest := latest_commit crc tidy txnId shouldSync now
  unfold Agreement
  rw [result, newlyDurable]
  cases verdict : commits s txnId with
  | false =>
    have refused : ∀ txn ∈ active s txnId, s.mvcc.refuses txn ≠ false := by
      intro txn found accepted
      rw [commits_iff.mpr ⟨txn, found, accepted⟩] at verdict
      cases verdict
    refine ⟨fun _ txn found accepted => absurd accepted (refused txn found), fun _ key => ?_⟩
    refine (newest key).trans ?_
    rw [if_neg fun ⟨txn, found, accepted, _⟩ => refused txn found accepted]
    simpa using agreement key
  | true =>
    obtain ⟨txn, found, accepted⟩ := commits_iff.mp verdict
    have writers : ∀ key, (∃ txn ∈ active s txnId, s.mvcc.refuses txn = false ∧ key ∈ txn.writeSet) ↔
        key ∈ txn.writeSet := by
      intro key
      constructor
      · rintro ⟨other, known, _, member⟩
        obtain rfl : txn = other := some.inj (found.symm.trans known)
        exact member
      · exact fun member => ⟨txn, found, accepted, member⟩
    have logged : ∀ key, (lastValue (bufferedWrites crc s txnId) key).isSome = true ↔
        key ∈ txn.writeSet := fun key => by
      rw [lastValue_isSome, tidy.writes_buffered txnId txn found key]
    have pointwise : ∀ key, ((chainsOf (s.commit crc txnId shouldSync now).1 key).latest =
          lastValue ((Replay.ofRecords log).result ++ bufferedWrites crc s txnId) key ↔
        (key ∈ txn.writeSet → ((chainsOf s key).own txnId).getD (chainsOf s key).latest =
          lastValue (bufferedWrites crc s txnId) key)) := by
      intro key
      rw [newest key, lastValue_append]
      by_cases member : key ∈ txn.writeSet
      · obtain ⟨value, last⟩ := isSome_iff_exists.mp ((logged key).mpr member)
        rw [if_pos ((writers key).mpr member), last]
        simp [member]
      · have none : lastValue (bufferedWrites crc s txnId) key = none := by
          rw [← not_isSome_iff_eq_none, logged key]
          exact member
        rw [if_neg fun h => member ((writers key).mp h), none]
        simpa [member] using agreement key
    refine (forall_congr' pointwise).trans ⟨fun all other known _ => ?_, fun all => all txn found accepted⟩
    obtain rfl : txn = other := some.inj (found.symm.trans known)
    exact all

theorem agreement_step (tidy : Tidy crc s) (journal : Journal crc s log) (agreement : Agreement s log)
    (op : Op) : Agreement (step crc s op) (log ++ appended crc s op) ↔ LogsWhatItPublishes crc s op := by
  cases op with
  | commit txnId shouldSync now => exact agreement_commit crc tidy journal agreement txnId shouldSync now
  | beginWithMode | beginReadOnlyFast | abortReadOnlyFast | read | writeRefs | delete
  | writeBatchRefs | abort | gc =>
    refine ⟨fun _ => trivial, fun _ key => ?_⟩
    rw [replay_appended crc tidy journal, latest_other crc (by simp) key, newlyDurable]
    · simpa using agreement key
    · simp

end Journals

theorem freshRead_eq {s : DurableStorage H} {key : Bytes}
    (free : holder s key ≠ some s.wal.nextTxnId)
    (past : ∀ v ∈ (chainsOf s key).committed, v.commitTs < s.mvcc.tsCounter) (now : UInt64) :
    freshRead crc s now key = .ok (chainsOf s key).latest := by
  have began : active (s.beginTransaction crc now).1 s.wal.nextTxnId =
      some (.withMode s.wal.nextTxnId s.mvcc.tsCounter .readWrite) := by
    have entered := s.mvcc.active_beginWithMode s.wal.nextTxnId .readWrite s.wal.nextTxnId
    rwa [if_pos rfl] at entered
  have unowned : (chainsOf s key).own s.wal.nextTxnId = none := by
    rw [← not_isSome_iff_eq_none, VersionChain.own_isSome]
    exact free
  have reply : freshRead crc s now key = _ := read_reply began key
  have sameChains : chainsOf (s.beginTransaction crc now).1 = chainsOf s := rfl
  rw [reply, sameChains, unowned, getD_none, VersionChain.snapshotValue]
  simp only [MvccTransaction.withMode]
  rw [Timeline.newestBefore_all past]
  rfl

section Restart
variable {s : DurableStorage H} {log : List TxnWalEntry}

theorem restarted_read (ourPid : UInt32) (file : Bytes) (kind : MemTableType)
    (enableOrderedIndex : Bool) (now : UInt64) (key : Bytes) :
    let restarted : DurableStorage H × Except SochDBError RecoveryStats :=
      (DurableStorage.openWith crc ourPid file kind enableOrderedIndex).recover crc
    (∃ stats, restarted.2 = .ok stats) ∧
      freshRead crc restarted.1 now key = .ok (lastValue (replayForRecovery crc file).1 key) := by
  obtain ⟨table, recovered, parts⟩ := recover_opened (H := H) crc ourPid file kind enableOrderedIndex
  obtain ⟨slot, committed⟩ := parts key
  intro restarted
  have after : restarted = _ := recovered
  rw [after]
  refine ⟨⟨_, rfl⟩, ?_⟩
  rw [freshRead_eq]
  · congr 1
    show (chains table key).latest = _
    rw [VersionChain.latest, committed]
    cases lastValue (replayForRecovery crc file).1 key <;> rfl
  · show (chains table key).owner ≠ _
    rw [VersionChain.owner, slot]
    simp
  · intro v member
    change v ∈ (chains table key).committed at member
    rw [committed] at member
    cases last : lastValue (replayForRecovery crc file).1 key with
    | none => simp [last] at member
    | some value =>
      simp only [last, map_some, toList_some, mem_singleton] at member
      rw [member]
      exact Nat.lt_succ_self 1

theorem restart_agrees_iff (tidy : Tidy crc s) (journal : Journal crc s log) :
    RestartAgrees crc s ↔ Agreement s log := by
  have live : ∀ key now, freshRead crc s now key = .ok (chainsOf s key).latest := by
    intro key now
    refine freshRead_eq crc (fun held => ?_) (tidy.stamps_past key) now
    have := tidy.holders_issued key _ held
    omega
  have replayed : (replayForRecovery crc s.wal.written).1 = (Replay.ofRecords log).result := by
    rw [journal.written, replayForRecovery_encodeAll crc journal.fits]
  constructor
  · intro agrees key
    have same := (agrees 0 .standard true).2 key 0 0
    rw [(restarted_read crc 0 s.wal.written .standard true 0 key).2, live, replayed] at same
    exact (Except.ok.inj same).symm
  · intro agreement ourPid kind enableOrderedIndex
    refine ⟨(restarted_read crc ourPid s.wal.written kind enableOrderedIndex 0 []).1, fun key now later => ?_⟩
    rw [(restarted_read crc ourPid s.wal.written kind enableOrderedIndex later key).2, live, replayed,
      agreement key]

end Restart

theorem new_next (fits : 0 ≤ ([] : Bytes).length) :
    (TxnWal.new crc ourPid [] 0 fits).nextTxnId = ourPid.toNat * 2 ^ 32 + 1 := by
  have unused : maxOurCounter ourPid (scan (fromReader crc) []).1 = 0 := rfl
  simp only [TxnWal.new, unused, Nat.shiftLeft_eq, Nat.add_zero]

theorem started_consistent (kind : MemTableType) (enableOrderedIndex recovers : Bool) :
    let start : DurableStorage H := started crc ourPid [] kind enableOrderedIndex recovers
    Tidy crc start ∧ Journal crc start [] ∧ Agreement start [] := by
  intro start
  have pid := ourPid.toNat_lt
  have next := new_next crc ourPid (Nat.zero_le _)
  have facts : start.wal.written = [] ∧ start.wal.nextTxnId ≤ 2 ^ 64 ∧
      (∀ key, (chainsOf start key).slot = none ∧ (chainsOf start key).committed = []) ∧
      (∀ txnId, active start txnId = none) ∧ ∀ txnId, pendingBuffer start txnId = none := by
    cases recovers with
    | false =>
      refine ⟨rfl, ?_, fun key => ?_, fun txnId => ?_, fun txnId => get_empty txnId⟩
      · show (TxnWal.new crc ourPid [] 0 (Nat.zero_le _)).nextTxnId ≤ 2 ^ 64
        omega
      · have empty : chainsOf start = fun _ => VersionChain.new := chains_new kind enableOrderedIndex
        rw [empty]
        exact ⟨rfl, rfl⟩
      · exact MvccManager.active_new txnId
    | true =>
      obtain ⟨table, recovered, parts⟩ := recover_opened (H := H) crc ourPid [] kind enableOrderedIndex
      have state : start = _ := congrArg Prod.fst recovered
      rw [state]
      refine ⟨rfl, ?_, fun key => ?_, fun txnId => ?_, fun txnId => get_empty txnId⟩
      · show (TxnWal.new crc ourPid [] 0 (Nat.zero_le _)).nextTxnId + 1 ≤ 2 ^ 64
        omega
      · obtain ⟨slot, committed⟩ := parts key
        exact ⟨slot, committed⟩
      · exact get_empty txnId
  obtain ⟨written, bound, chains, actives, buffers⟩ := facts
  refine ⟨⟨bound, ?_, ?_, ?_, ?_, ?_⟩, ⟨written, by simp, by simp, ?_⟩, ?_⟩
  · intro txnId running
    rw [actives] at running
    cases running
  · intro key txnId held
    rw [holder, VersionChain.owner, (chains key).1] at held
    cases held
  · intro txnId buffer found
    rw [buffers] at found
    cases found
  · intro txnId txn found
    rw [actives] at found
    cases found
  · intro key v member
    rw [(chains key).2] at member
    cases member
  · intro txnId running
    rw [actives] at running
    cases running
  · intro key
    rw [VersionChain.latest, (chains key).2]
    rfl

def Consistent (s : DurableStorage H) : Prop :=
  Tidy crc s ∧ ∃ log, Journal crc s log ∧ Agreement s log

theorem restart_agrees_iff_commits_log_what_they_publish (ourPid : UInt32) (kind : MemTableType)
    (enableOrderedIndex recovers : Bool) (ops : List Op)
    (loggable : Guarded (step crc) Loggable
      (started crc ourPid [] kind enableOrderedIndex recovers : DurableStorage H) ops) :
    let start : DurableStorage H := started crc ourPid [] kind enableOrderedIndex recovers
    Guarded (step crc) (LogsWhatItPublishes crc) start ops ↔
      ∀ before, before <+: ops → RestartAgrees crc (run (step crc) start before) := by
  intro start
  obtain ⟨tidy, journal, agreement⟩ := started_consistent (H := H) crc ourPid kind enableOrderedIndex recovers
  have initial : Consistent crc start := ⟨tidy, [], journal, agreement⟩
  refine guarded_iff_always (Consistent crc) (RestartAgrees crc) ?_ ?_ ?_ initial loggable
  · rintro s op ⟨tidy, log, journal, agreement⟩ allowed logs
    exact ⟨tidy.step crc op allowed, _, journal.step crc tidy op allowed,
      (agreement_step crc tidy journal agreement op).mpr logs⟩
  · rintro s ⟨tidy, log, journal, agreement⟩
    exact (restart_agrees_iff crc tidy journal).mpr agreement
  · rintro s op ⟨tidy, log, journal, agreement⟩ allowed agrees
    rw [restart_agrees_iff crc (tidy.step crc op allowed) (journal.step crc tidy op allowed)] at agrees
    exact (agreement_step crc tidy journal agreement op).mp agrees

end

theorem committed_puts_survive_restart :
    let ops : List Op := [.beginWithMode .readWrite 0, .beginWithMode .readWrite 0,
      .writeRefs 1 0 [107] [1], .writeBatchRefs 2 [(0, [108], []), (0, [109], [2])],
      .writeRefs 1 0 [107] [3], .commit 1 true 0, .commit 2 false 0, .beginWithMode .readWrite 0,
      .delete 3 0 [107], .abort 3 0]
    let final : DurableStorage lengthHashes :=
      run (step ieee) (started ieee 0 [] .arena true false) ops
    RestartAgrees ieee final ∧ freshRead ieee final 0 [107] = .ok (some [3]) := by
  intro ops final
  have law := restart_agrees_iff_commits_log_what_they_publish (H := lengthHashes) ieee 0 .arena
    true false ops (by decide +kernel)
  exact ⟨law.mp (by decide +kernel) ops (prefix_rfl), by decide +kernel⟩

def committedDelete : List Op :=
  [.beginWithMode .readWrite 0, .writeRefs 1 0 [107] [1], .commit 1 true 0,
    .beginWithMode .readWrite 0, .delete 2 0 [107], .commit 2 true 0]

/-- The deleted key reads as absent in the live store and as an empty value after the
    restart. -/
theorem deleted_key_comes_back_empty :
    let start : DurableStorage lengthHashes := started ieee 0 [] .standard true false
    let final := run (step ieee) start committedDelete
    let restarted : DurableStorage lengthHashes × Except SochDBError RecoveryStats :=
      (DurableStorage.openWith ieee 0 final.wal.written .standard true).recover ieee
    Guarded (step ieee) Loggable start committedDelete ∧
      freshRead ieee final 0 [107] = .ok none ∧
      freshRead ieee restarted.1 0 [107] = .ok (some []) := by
  decide +kernel

end CrashRecovery
