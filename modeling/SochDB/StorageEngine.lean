import SochDB.MemTables
import SochDB.TxnManager
import SochDB.WriteAheadLog

/-!
The storage engine: every public operation of a transaction as one function from the
engine's state to its next state and the reply. Clock readings and the decision of the
adaptive sync are arguments; commits take the direct path, without group commit.
-/
namespace StorageEngine
open KeyedMaps WalRecords WriteAheadLog TxnManager BloomFilter MemTables

structure DurableStorage (H : KeyHashes) where
  wal : TxnWal
  mvcc : MvccManager H
  memtable : MemTableKind
  txnWriteBuffers : Map Nat TxnWalBuffer
  needsRecovery : Bool

structure RecoveryStats where
  transactionsRecovered : Nat
  writesRecovered : Nat
  commitTs : Nat
  deriving DecidableEq, Repr

def transactionNotFound : SochDBError := .internal "Transaction not found"

def validationFailed : SochDBError :=
  .validation ("transaction aborted: SSI validation failed (serialization conflict) " ++
    "or transaction not found")

namespace DurableStorage
variable {H : KeyHashes} (crc : Crc32fast) (s : DurableStorage H)

/-- Opening always asks for recovery, because the memtable is only in memory. -/
def openWith (ourPid : UInt32) (file : Bytes) (kind : MemTableType) (enableOrderedIndex : Bool) :
    DurableStorage H where
  wal := TxnWal.new crc ourPid file file.length (Nat.le_refl _)
  mvcc := .new
  memtable := .new kind enableOrderedIndex
  txnWriteBuffers := ∅
  needsRecovery := true

def applyWrites (table : MemTableKind) (txnId : Nat) (writeSet : List Bytes) :
    List Write → MemTableKind × List Bytes × Except SochDBError Unit
  | [] => (table, writeSet, .ok ())
  | (key, value) :: writes =>
    match table.write key (some value) txnId with
    | (table, .ok ()) => applyWrites table txnId (writeSet.insert key) writes
    | (table, .error e) => (table, writeSet.insert key, .error e)

def recover : DurableStorage H × Except SochDBError RecoveryStats :=
  if !s.needsRecovery then (s, .ok ⟨0, 0, 0⟩)
  else
    let (writes, txnCount) := replayForRecovery crc s.wal.written
    let (recoveryTxnId, wal) := s.wal.allocTxnId
    let (commitTs, mvcc) := s.mvcc.allocCommitTs
    let s := { s with wal := wal, mvcc := mvcc }
    match applyWrites s.memtable recoveryTxnId [] writes with
    | (memtable, _, .error e) => ({ s with memtable := memtable }, .error e)
    | (memtable, writeSet, .ok ()) =>
      ({ s with
         memtable := memtable.commit recoveryTxnId commitTs writeSet
         needsRecovery := false }, .ok ⟨txnCount, writes.length, commitTs⟩)

def beginWithMode (mode : TransactionMode) (now : UInt64) : DurableStorage H × Nat :=
  let (txnId, wal) := s.wal.beginTransaction crc now
  ({ s with wal := wal, mvcc := s.mvcc.beginWithMode txnId mode }, txnId)

def beginTransaction (now : UInt64) : DurableStorage H × Nat := s.beginWithMode crc .readWrite now

def beginReadOnlyFast : DurableStorage H × Nat :=
  let (txnId, wal) := s.wal.allocTxnId
  ({ s with wal := wal, mvcc := s.mvcc.beginWithMode txnId .readOnly }, txnId)

def abortReadOnlyFast (txnId : Nat) : DurableStorage H := { s with mvcc := s.mvcc.abort txnId }

def read (txnId : Nat) (key : Bytes) : DurableStorage H × Except SochDBError (Option Bytes) :=
  match s.mvcc.getSnapshotTs txnId with
  | none => (s, .error transactionNotFound)
  | some snapshotTs =>
    ({ s with mvcc := s.mvcc.recordRead txnId key }, .ok (s.memtable.read key snapshotTs (some txnId)))

/-- A scan is not tracked for validation. It may compact the index. -/
def scan (txnId : Nat) (pre : Bytes) : DurableStorage H × Except SochDBError (List Pair) :=
  match s.mvcc.getSnapshotTs txnId with
  | none => (s, .error transactionNotFound)
  | some snapshotTs =>
    ({ s with memtable := (s.memtable.scanPrefix pre snapshotTs (some txnId)).1 },
      .ok (s.memtable.scanPrefix pre snapshotTs (some txnId)).2)

/-- Put the key into the write set and the record into the transaction's buffer, which
    is made on its first write. -/
def logWrite (txnId : Nat) (now : UInt64) (key value : Bytes) : DurableStorage H :=
  { s with
    mvcc := s.mvcc.recordWrite txnId key
    txnWriteBuffers := upsert s.txnWriteBuffers txnId (TxnWalBuffer.new (UInt64.ofNat txnId))
      (·.append crc now key value) }

/-- `write_refs` and `delete` log the write and only then try the memtable, so a refused
    write has already left its mark. -/
def writeKey (txnId : Nat) (now : UInt64) (key logged : Bytes) (value : Option Bytes) :
    DurableStorage H × Except SochDBError Unit :=
  let s := s.logWrite crc txnId now key logged
  let (memtable, reply) := s.memtable.write key value txnId
  ({ s with memtable := memtable }, reply)

def writeRefs (txnId : Nat) (now : UInt64) (key value : Bytes) :
    DurableStorage H × Except SochDBError Unit :=
  s.writeKey crc txnId now key value (some value)

/-- A tombstone goes into the log as an empty value. -/
def delete (txnId : Nat) (now : UInt64) (key : Bytes) : DurableStorage H × Except SochDBError Unit :=
  s.writeKey crc txnId now key [] none

/-- Each row comes with the clock reading taken when it is buffered. -/
def writeBatchRefs (txnId : Nat) (writes : List (UInt64 × Bytes × Bytes)) :
    DurableStorage H × Except SochDBError Unit :=
  if writes.isEmpty then (s, .ok ())
  else
    let s := writes.foldl (fun s w => s.logWrite crc txnId w.1 w.2.1 w.2.2) s
    let ownedWrites := writes.map fun w => (w.2.1, some w.2.2)
    let (memtable, reply) := s.memtable.writeBatch ownedWrites txnId
    ({ s with memtable := memtable }, reply)

/-- The first step of a commit: the buffer leaves its map and goes to the log. -/
def flushPending (txnId : Nat) : DurableStorage H :=
  { s with
    wal := match get s.txnWriteBuffers txnId with
      | some buffer => if buffer.isEmpty then s.wal else s.wal.flushBuffer buffer
      | none => s.wal
    txnWriteBuffers := s.txnWriteBuffers.erase txnId }

/-- Data records are flushed before validation; the commit record, and the sync if one
    is due, come after it; the memtable is published last. -/
def commit (txnId : Nat) (shouldSync : Bool) (now : UInt64) :
    DurableStorage H × Except SochDBError Nat :=
  let s := s.flushPending txnId
  match s.mvcc.commit txnId with
  | (mvcc, none) => ({ s with mvcc := mvcc }, .error validationFailed)
  | (mvcc, some (commitTs, writeSet)) =>
    let wal := s.wal.append crc (TxnWalEntry.txnCommit (UInt64.ofNat txnId) now)
    let wal := if shouldSync then wal.sync else wal
    ({ s with
       wal := wal
       mvcc := mvcc
       memtable := s.memtable.commit txnId commitTs writeSet }, .ok commitTs)

/-- Without a write buffer there is nothing to undo but the manager's entry. -/
def abort (txnId : Nat) (now : UInt64) : DurableStorage H :=
  let hadWrites := (get s.txnWriteBuffers txnId).isSome
  let s := { s with txnWriteBuffers := s.txnWriteBuffers.erase txnId }
  let s := if hadWrites then
      { s with
        wal := s.wal.abortTransaction crc txnId now
        memtable := s.memtable.abort txnId }
    else s
  { s with mvcc := s.mvcc.abort txnId }

def gc : DurableStorage H × Nat :=
  let minTs := s.mvcc.minActiveSnapshot
  let (memtable, gcCount) := s.memtable.gc minTs
  ({ s with memtable := memtable }, gcCount)

end DurableStorage

/-- One call of a client, with the clock readings that it takes. -/
inductive Op where
  | beginWithMode (mode : TransactionMode) (now : UInt64)
  | beginReadOnlyFast
  | abortReadOnlyFast (txnId : Nat)
  | read (txnId : Nat) (key : Bytes)
  | writeRefs (txnId : Nat) (now : UInt64) (key value : Bytes)
  | delete (txnId : Nat) (now : UInt64) (key : Bytes)
  | writeBatchRefs (txnId : Nat) (writes : List (UInt64 × Bytes × Bytes))
  | commit (txnId : Nat) (shouldSync : Bool) (now : UInt64)
  | abort (txnId : Nat) (now : UInt64)
  | gc
  deriving DecidableEq, Repr

inductive Reply where
  | began (txnId : Nat)
  | done
  | value (reply : Except SochDBError (Option Bytes))
  | written (reply : Except SochDBError Unit)
  | committed (reply : Except SochDBError Nat)
  | collected (versions : Nat)

section
variable {H : KeyHashes} (crc : Crc32fast) (s : DurableStorage H)

def exec : Op → DurableStorage H × Reply
  | .beginWithMode mode now => ((s.beginWithMode crc mode now).1, .began (s.beginWithMode crc mode now).2)
  | .beginReadOnlyFast => (s.beginReadOnlyFast.1, .began s.beginReadOnlyFast.2)
  | .abortReadOnlyFast txnId => (s.abortReadOnlyFast txnId, .done)
  | .read txnId key => ((s.read txnId key).1, .value (s.read txnId key).2)
  | .writeRefs txnId now key value =>
    ((s.writeRefs crc txnId now key value).1, .written (s.writeRefs crc txnId now key value).2)
  | .delete txnId now key => ((s.delete crc txnId now key).1, .written (s.delete crc txnId now key).2)
  | .writeBatchRefs txnId writes =>
    ((s.writeBatchRefs crc txnId writes).1, .written (s.writeBatchRefs crc txnId writes).2)
  | .commit txnId shouldSync now =>
    ((s.commit crc txnId shouldSync now).1, .committed (s.commit crc txnId shouldSync now).2)
  | .abort txnId now => (s.abort crc txnId now, .done)
  | .gc => (s.gc.1, .collected s.gc.2)

def step (op : Op) : DurableStorage H := (exec crc s op).1

end
end StorageEngine
