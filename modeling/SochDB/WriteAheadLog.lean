import SochDB.Library.KeyedMaps
import SochDB.WalRecords

/-!
The plaintext write-ahead log of one process: appending, syncing, reopening and the
single-pass replay. `written` is everything handed to the `BufWriter` so far, whether
or not it has left the process; a crash leaves some cut of it, and only the first
`synced` bytes are sure to be on disk. The clock readings are arguments.
-/
namespace WriteAheadLog
open Framing KeyedMaps WalRecords

abbrev Write := Bytes × Bytes

/-- Transaction ids are an unbounded counter here; a record holds the low 64 bits. -/
structure TxnWal where
  written : Bytes
  synced : Nat
  nextTxnId : Nat
  sequence : Nat
  synced_le : synced ≤ written.length

/-- The state of one replay pass over the records of the log. -/
structure Replay where
  pendingWrites : Map UInt64 (List Write)
  result : List Write
  txnCount : Nat

namespace Replay

def new : Replay := ⟨∅, [], 0⟩

def step (r : Replay) (entry : TxnWalEntry) : Replay :=
  match entry.recordType with
  | .txnBegin => { r with pendingWrites := r.pendingWrites.insert entry.txnId [] }
  | .data =>
    { r with
      pendingWrites := upsert r.pendingWrites entry.txnId [] (· ++ [(entry.key, entry.value)]) }
  | .txnCommit =>
    match get r.pendingWrites entry.txnId with
    | some writes =>
      { pendingWrites := r.pendingWrites.erase entry.txnId
        result := r.result ++ writes
        txnCount := r.txnCount + 1 }
    | none => r
  | .txnAbort => { r with pendingWrites := r.pendingWrites.erase entry.txnId }
  | _ => r

def ofRecords (records : List TxnWalEntry) : Replay := records.foldl step new

end Replay

section
variable (crc : Crc32fast)

/-- The read loop of `replay_for_recovery`. In a plaintext log every read error ends
    the loop, so the call itself cannot fail. -/
def replayForRecovery (file : Bytes) : List Write × Nat :=
  let replay := Replay.ofRecords (scan (fromReader crc) file).1
  (replay.result, replay.txnCount)

/-- The largest counter that a process of the same id has already used in this log. -/
def maxOurCounter (ourPid : UInt32) (records : List TxnWalEntry) : Nat :=
  records.foldl (fun maxOurCounter entry =>
    if entry.txnId.toNat >>> 32 = ourPid.toNat then
      max maxOurCounter (entry.txnId.toNat &&& 0xFFFFFFFF)
    else maxOurCounter) 0

namespace TxnWal

/-- `new` on a file with these contents: the file is opened in append mode, so what
    `recover_state` cannot read stays where it is. -/
def new (ourPid : UInt32) (file : Bytes) (synced : Nat) (synced_le : synced ≤ file.length) :
    TxnWal where
  written := file
  synced := synced
  nextTxnId := (ourPid.toNat <<< 32) + maxOurCounter ourPid (scan (fromReader crc) file).1 + 1
  sequence := (scan (fromReader crc) file).1.length
  synced_le := synced_le

def append (wal : TxnWal) (entry : TxnWalEntry) : TxnWal where
  written := wal.written ++ entry.toBytes crc
  synced := wal.synced
  nextTxnId := wal.nextTxnId
  sequence := wal.sequence + 1
  synced_le := by
    have := wal.synced_le
    rw [List.length_append]
    omega

/-- An empty buffer takes no lock and writes nothing. -/
def flushBuffer (wal : TxnWal) (buffer : TxnWalBuffer) : TxnWal :=
  if buffer.isEmpty then wal
  else
    { written := wal.written ++ buffer.buffer
      synced := wal.synced
      nextTxnId := wal.nextTxnId
      sequence := wal.sequence + buffer.entryCount
      synced_le := by
        have := wal.synced_le
        rw [List.length_append]
        omega }

theorem flushBuffer_written (wal : TxnWal) (buffer : TxnWalBuffer) :
    (wal.flushBuffer buffer).written = wal.written ++ buffer.buffer := by
  unfold flushBuffer
  split
  · rename_i empty
    rw [List.isEmpty_iff.mp empty, List.append_nil]
  · rfl

theorem flushBuffer_synced (wal : TxnWal) (buffer : TxnWalBuffer) :
    (wal.flushBuffer buffer).synced = wal.synced := by
  unfold flushBuffer
  split <;> rfl

def sync (wal : TxnWal) : TxnWal :=
  { wal with synced := wal.written.length, synced_le := Nat.le_refl _ }

def allocTxnId (wal : TxnWal) : Nat × TxnWal :=
  (wal.nextTxnId, { wal with nextTxnId := wal.nextTxnId + 1 })

def beginTransaction (wal : TxnWal) (now : UInt64) : Nat × TxnWal :=
  let (txnId, wal) := wal.allocTxnId
  (txnId, wal.append crc (TxnWalEntry.txnBegin (UInt64.ofNat txnId) now))

def abortTransaction (wal : TxnWal) (txnId : Nat) (now : UInt64) : TxnWal :=
  wal.append crc (TxnWalEntry.txnAbort (UInt64.ofNat txnId) now)

end TxnWal

def bufferOf (txnId : UInt64) (writes : List (UInt64 × Bytes × Bytes)) : TxnWalBuffer :=
  writes.foldl (fun buffer w => buffer.append crc w.1 w.2.1 w.2.2) (TxnWalBuffer.new txnId)

end
end WriteAheadLog
