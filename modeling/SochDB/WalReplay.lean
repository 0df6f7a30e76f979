import SochDB.WalFraming
import SochDB.WriteAheadLog

/-!
What the log does with the records of a transaction: how a flushed buffer reads back,
and what each kind of record does to a replay.
-/
namespace WalReplay
open Framing KeyedMaps WalRecords WalFraming WriteAheadLog List

section
variable (crc : Crc32fast)

def readable (file : Bytes) : List TxnWalEntry := (scan (fromReader crc) file).1

theorem buffer_appends (writes : List (UInt64 × Bytes × Bytes)) (b : TxnWalBuffer) :
    (writes.foldl (fun b w => b.append crc w.1 w.2.1 w.2.2) b).buffer = b.buffer ++
      (walCodec crc).encodeAll (writes.map fun w => TxnWalEntry.data b.txnId w.1 w.2.1 w.2.2) := by
  induction writes generalizing b with
  | nil => simp
  | cons w writes ih =>
    rw [foldl_cons, ih, bufferAppend_eq, append_assoc]
    rfl

theorem flushed_buffer (wal : TxnWal) (txnId : UInt64) (writes : List (UInt64 × Bytes × Bytes)) :
    (wal.flushBuffer (bufferOf crc txnId writes)).written = wal.written ++
      (walCodec crc).encodeAll (writes.map fun w => TxnWalEntry.data txnId w.1 w.2.1 w.2.2) := by
  rw [TxnWal.flushBuffer_written, bufferOf, buffer_appends]
  rfl

theorem one_frame (e : TxnWalEntry) : (walCodec crc).encodeAll [e] = e.toBytes crc :=
  append_nil _

theorem encodeAll_length_le (log : List TxnWalEntry) :
    log.length ≤ ((walCodec crc).encodeAll log).length := by
  induction log with
  | nil => exact Nat.le_refl _
  | cons e log ih =>
    have frame : 0 < ((walCodec crc).encode e).length := by
      have size : ((walCodec crc).encode e).length = 4 + e.bodyLen := toBytes_length crc e
      omega
    rw [Codec.encodeAll_cons, length_append, length_cons]
    omega

theorem replay_data (txnId : UInt64) (writes : List (UInt64 × Bytes × Bytes)) (r : Replay)
    (other : UInt64) :
    let r' := (writes.map fun w => TxnWalEntry.data txnId w.1 w.2.1 w.2.2).foldl Replay.step r
    r'.result = r.result ∧ r'.txnCount = r.txnCount ∧
      get r'.pendingWrites other =
        if other = txnId ∧ writes ≠ [] then
          some ((get r.pendingWrites txnId).getD [] ++ writes.map Prod.snd)
        else get r.pendingWrites other := by
  induction writes generalizing r with
  | nil => simp
  | cons w writes ih =>
    obtain ⟨result, count, pending⟩ := ih (r.step (TxnWalEntry.data txnId w.1 w.2.1 w.2.2))
    refine ⟨result, count, ?_⟩
    simp only [map_cons, foldl_cons]
    rw [pending]
    simp only [Replay.step, TxnWalEntry.data, get_upsert]
    by_cases same : other = txnId <;> by_cases empty : writes = [] <;> simp [same, empty]

theorem replay_step_other (r : Replay) {e : TxnWalEntry} {txnId : UInt64} (other : e.txnId ≠ txnId) :
    get (r.step e).pendingWrites txnId = get r.pendingWrites txnId := by
  have different : txnId ≠ e.txnId := Ne.symm other
  unfold Replay.step
  split
  · rw [get_insert, if_neg different]
  · rw [get_upsert, if_neg different]
  · split
    · rw [get_erase, if_neg different]
    · rfl
  · rw [get_erase, if_neg different]
  · rfl

theorem replay_others (r : Replay) {records : List TxnWalEntry} {txnId : UInt64}
    (others : ∀ e ∈ records, e.txnId ≠ txnId) :
    get (records.foldl Replay.step r).pendingWrites txnId = get r.pendingWrites txnId := by
  induction records generalizing r with
  | nil => rfl
  | cons e records ih =>
    rw [foldl_cons, ih (r.step e) fun x member => others x (by simp [member]),
      replay_step_other r (others e (by simp))]

theorem result_commit (r : Replay) (txnId now : UInt64) :
    (r.step (TxnWalEntry.txnCommit txnId now)).result =
      r.result ++ (get r.pendingWrites txnId).getD [] := by
  simp only [Replay.step, TxnWalEntry.txnCommit]
  cases get r.pendingWrites txnId <;> simp

theorem readable_encodeAll {log : List TxnWalEntry} (fits : ∀ e ∈ log, e.FitsFrame) :
    readable crc ((walCodec crc).encodeAll log) = log :=
  congrArg Prod.fst ((walCodec crc).scan_encodeAll fits)

theorem replayForRecovery_encodeAll {log : List TxnWalEntry} (fits : ∀ e ∈ log, e.FitsFrame) :
    replayForRecovery crc ((walCodec crc).encodeAll log) =
      ((Replay.ofRecords log).result, (Replay.ofRecords log).txnCount) := by
  have read : (scan (fromReader crc) ((walCodec crc).encodeAll log)).1 = log :=
    readable_encodeAll crc fits
  simp only [replayForRecovery, read]

end
end WalReplay
