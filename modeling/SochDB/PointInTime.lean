import SochDB.Library.Runs
import SochDB.WalReplay

/-!
Point-in-time recovery: rolling the log forward to a record number or to a commit time.
The writer counts records as it appends them and recounts them when it opens the file;
the reader counts again while it replays.
-/
namespace PointInTime
open Framing Runs KeyedMaps WalRecords WalFraming WriteAheadLog WalReplay List

/-- Log sequence numbers count records and are unbounded here. -/
inductive RecoveryTarget where
  | lsn (l : Nat)
  | timestamp (t : UInt64)
  deriving DecidableEq, Repr

/-- Where the loop of `replay_to_target` breaks: `ordinal` is the 1-based number of the
    record just read. -/
def RecoveryTarget.stops (target : RecoveryTarget) (ordinal : Nat) (entry : TxnWalEntry) : Bool :=
  match target with
  | .lsn l => ordinal > l
  | .timestamp t => entry.recordType = .txnCommit && entry.timestampUs > t

def rollForward (target : RecoveryTarget) : Nat → Replay → List TxnWalEntry → Replay
  | _, r, [] => r
  | ordinal, r, entry :: later =>
    if target.stops (ordinal + 1) entry then r
    else rollForward target (ordinal + 1) (r.step entry) later

section
variable (crc : Crc32fast)

def replayToTarget (file : Bytes) (target : RecoveryTarget) : List Write × Nat :=
  let replay := rollForward target 0 Replay.new (scan (fromReader crc) file).1
  (replay.result, replay.txnCount)

end

theorem rollForward_lsn (l ordinal : Nat) (r : Replay) (records : List TxnWalEntry) :
    rollForward (.lsn l) ordinal r records = (records.take (l - ordinal)).foldl Replay.step r := by
  induction records generalizing ordinal r with
  | nil => simp [rollForward]
  | cons e records ih =>
    rw [rollForward]
    by_cases past : l < ordinal + 1
    · have none_left : l - ordinal = 0 := by omega
      simp [RecoveryTarget.stops, past, none_left]
    · have more : l - ordinal = l - (ordinal + 1) + 1 := by omega
      rw [ih, more, take_succ_cons, foldl_cons]
      simp [RecoveryTarget.stops, past]

theorem rollForward_timestamp (t : UInt64) (ordinal : Nat) (r : Replay)
    (records : List TxnWalEntry) :
    ∃ front later, records = front ++ later ∧
      rollForward (.timestamp t) ordinal r records = front.foldl Replay.step r ∧
      (∀ e ∈ front, e.recordType = .txnCommit → e.timestampUs ≤ t) ∧
      ∀ e ∈ later.head?, e.recordType = .txnCommit ∧ t < e.timestampUs := by
  induction records generalizing ordinal r with
  | nil => exact ⟨[], [], rfl, rfl, by simp, by simp⟩
  | cons e records ih =>
    rw [rollForward]
    by_cases late : e.recordType = .txnCommit ∧ t < e.timestampUs
    · refine ⟨[], e :: records, rfl, ?_, by simp, by simp [late]⟩
      simp [RecoveryTarget.stops, late.1, late.2]
    · obtain ⟨front, later, rfl, rolled, early, next⟩ := ih (ordinal + 1) (r.step e)
      refine ⟨e :: front, later, rfl, ?_, ?_, next⟩
      · have goesOn : RecoveryTarget.stops (.timestamp t) (ordinal + 1) e = false := by
          simpa [RecoveryTarget.stops] using late
        rw [goesOn, foldl_cons, ← rolled]
        rfl
      · intro x member commit
        rcases mem_cons.mp member with rfl | behind
        · exact UInt64.not_lt.mp fun after => late ⟨commit, after⟩
        · exact early x behind commit

/-- A log with the transactions that wrote it: `flushed` bytes have left the buffer of the
    writer and are in the file, `running` holds the writes of the open transactions of this
    session, `committed` those of the transactions whose commit record was appended, in that
    order. -/
structure Session where
  wal : TxnWal
  flushed : Nat
  running : Map UInt64 (List Write)
  committed : List (List Write)

/-- What `replay_to_target` finds: it opens the file and flushes nothing. -/
def Session.file (s : Session) : Bytes := s.wal.written.take s.flushed

def Session.Flushed (s : Session) : Prop := s.flushed = s.wal.written.length

instance (s : Session) : Decidable s.Flushed := inferInstanceAs (Decidable (s.flushed = _))

/-- The critical sections of the log, of any number of transactions in any order.
    `write` is one data record put into the log directly, `marker` any record that replay
    skips, `spill` the buffer of the writer passing bytes on when it is full, `flush` what
    `flush`, `sync` and the first step of `recover_to` do, `reopen` a clean close, which
    flushes, and the next opening. -/
inductive Call where
  | beginTransaction (now : UInt64)
  | write (txnId now : UInt64) (key value : Bytes)
  | flushBuffer (txnId : UInt64) (writes : List (UInt64 × Bytes × Bytes))
  | commitRecord (txnId now : UInt64)
  | abortTransaction (txnId now : UInt64)
  | marker (entry : TxnWalEntry)
  | allocTxnId
  | spill (bytes : Nat)
  | flush
  | reopen (ourPid : UInt32)

def isMarker (entry : TxnWalEntry) : Bool :=
  match entry.recordType with
  | .txnBegin | .data | .txnCommit | .txnAbort => false
  | _ => true

/-- The records that a call appends. Only a transaction that is still running passes
    validation and gets a commit record. -/
def appended (s : Session) : Call → List TxnWalEntry
  | .beginTransaction now => [.txnBegin (UInt64.ofNat s.wal.nextTxnId) now]
  | .write txnId now key value => [.data txnId now key value]
  | .flushBuffer txnId writes => writes.map fun w => .data txnId w.1 w.2.1 w.2.2
  | .commitRecord txnId now => if (get s.running txnId).isSome then [.txnCommit txnId now] else []
  | .abortTransaction txnId now => [.txnAbort txnId now]
  | .marker entry => if isMarker entry then [entry] else []
  | .allocTxnId | .spill _ | .flush | .reopen _ => []

section Sessions
variable (crc : Crc32fast)

theorem nothing_written : 0 ≤ ([] : Bytes).length := Nat.zero_le _

def created (ourPid : UInt32) : Session := ⟨TxnWal.new crc ourPid [] 0 nothing_written, 0, ∅, []⟩

def step (s : Session) : Call → Session
  | .beginTransaction now =>
    { s with
      wal := (s.wal.beginTransaction crc now).2
      running := s.running.insert (UInt64.ofNat s.wal.nextTxnId) [] }
  | .write txnId now key value =>
    { s with
      wal := s.wal.append crc (.data txnId now key value)
      running := adjust s.running txnId (· ++ [(key, value)]) }
  | .flushBuffer txnId writes =>
    { s with
      wal := s.wal.flushBuffer (bufferOf crc txnId writes)
      running := adjust s.running txnId (· ++ writes.map Prod.snd) }
  | .commitRecord txnId now =>
    match get s.running txnId with
    | some writes =>
      { s with
        wal := s.wal.append crc (.txnCommit txnId now)
        running := s.running.erase txnId
        committed := s.committed ++ [writes] }
    | none => s
  | .abortTransaction txnId now =>
    { s with
      wal := s.wal.append crc (.txnAbort txnId now)
      running := s.running.erase txnId }
  | .marker entry => if isMarker entry then { s with wal := s.wal.append crc entry } else s
  | .allocTxnId => { s with wal := s.wal.allocTxnId.2 }
  | .spill bytes => { s with flushed := min (s.flushed + bytes) s.wal.written.length }
  | .flush => { s with flushed := s.wal.written.length }
  | .reopen ourPid =>
    { s with
      wal := TxnWal.new crc ourPid s.wal.written s.wal.synced s.wal.synced_le
      flushed := s.wal.written.length
      running := ∅ }

def currentLsn (s : Session) : Nat := s.wal.sequence

def FramesFit (s : Session) (call : Call) : Prop := ∀ e ∈ appended s call, e.FitsFrame

instance (s : Session) (call : Call) : Decidable (FramesFit s call) :=
  inferInstanceAs (Decidable (∀ e ∈ appended s call, e.FitsFrame))

theorem bufferOf_count (txnId : UInt64) (writes : List (UInt64 × Bytes × Bytes)) :
    (bufferOf crc txnId writes).entryCount = writes.length := by
  unfold bufferOf
  induction writes using List.reverseRecOn with
  | nil => rfl
  | append_singleton writes w ih =>
    rw [foldl_append, length_append, ← ih]
    rfl

theorem sequence_flushBuffer (wal : TxnWal) (txnId : UInt64)
    (writes : List (UInt64 × Bytes × Bytes)) :
    (wal.flushBuffer (bufferOf crc txnId writes)).sequence = wal.sequence + writes.length := by
  unfold TxnWal.flushBuffer
  split
  · rename_i empty
    cases writes with
    | nil => rfl
    | cons w writes =>
      -- the buffer of a write is never empty
      have size := congrArg List.length (flushed_buffer crc wal txnId (w :: writes))
      rw [TxnWal.flushBuffer_written, isEmpty_iff.mp empty] at size
      simp only [append_nil, length_append, map_cons, Codec.encodeAll_cons] at size
      have frame := toBytes_length crc (.data txnId w.1 w.2.1 w.2.2)
      have same : (walCodec crc).encode (.data txnId w.1 w.2.1 w.2.2) =
        TxnWalEntry.toBytes crc (.data txnId w.1 w.2.1 w.2.2) := rfl
      rw [same, frame] at size
      omega
  · rw [← bufferOf_count crc txnId writes]

theorem written_step (s : Session) (call : Call) :
    (step crc s call).wal.written = s.wal.written ++ (walCodec crc).encodeAll (appended s call) := by
  cases call with
  | beginTransaction | write | abortTransaction => rw [appended, one_frame]; rfl
  | flushBuffer txnId writes => exact flushed_buffer crc s.wal txnId writes
  | commitRecord txnId now =>
    simp only [appended, step]
    cases get s.running txnId with
    | none => simp
    | some writes => rw [Option.isSome_some, if_pos rfl, one_frame]; rfl
  | marker entry =>
    simp only [appended, step]
    split
    · rw [one_frame]; rfl
    · simp
  | allocTxnId => simp [step, appended, TxnWal.allocTxnId]
  | spill | flush => simp [step, appended]
  | reopen ourPid => simp [step, appended, TxnWal.new]

theorem sequence_step (s : Session) (call : Call)
    (counted : s.wal.sequence = (readable crc s.wal.written).length) :
    (step crc s call).wal.sequence = s.wal.sequence + (appended s call).length := by
  cases call with
  | beginTransaction | write | abortTransaction | allocTxnId | spill | flush => rfl
  | flushBuffer txnId writes =>
    rw [appended, length_map]
    exact sequence_flushBuffer crc s.wal txnId writes
  | commitRecord txnId now =>
    simp only [appended, step]
    cases get s.running txnId <;> rfl
  | marker entry =>
    simp only [appended, step]
    split <;> rfl
  | reopen ourPid => exact counted.symm

structure Replays (r : Replay) (s : Session) : Prop where
  result : r.result = s.committed.flatten
  count : r.txnCount = s.committed.length
  pending : ∀ txnId writes, get s.running txnId = some writes →
    get r.pendingWrites txnId = some writes

variable {r : Replay} {s : Session} {log : List TxnWalEntry}

theorem Replays.dataRecords (replays : Replays r s) (wal : TxnWal) (txnId : UInt64)
    (writes : List (UInt64 × Bytes × Bytes)) :
    Replays ((writes.map fun w => TxnWalEntry.data txnId w.1 w.2.1 w.2.2).foldl Replay.step r)
      { s with wal := wal, running := adjust s.running txnId (· ++ writes.map Prod.snd) } := by
  constructor
  · exact (replay_data txnId writes r txnId).1.trans replays.result
  · exact (replay_data txnId writes r txnId).2.1.trans replays.count
  · intro other mine found
    rw [(replay_data txnId writes r other).2.2]
    rw [get_adjust] at found
    by_cases same : other = txnId
    · subst same
      rw [if_pos rfl, Option.map_eq_some_iff] at found
      obtain ⟨before, running, rfl⟩ := found
      rw [replays.pending other before running]
      by_cases empty : writes = [] <;> simp [empty]
    · rw [if_neg same] at found
      rw [if_neg fun both => same both.1]
      exact replays.pending other mine found

theorem step_marker {entry : TxnWalEntry} (skipped : isMarker entry) (r : Replay) :
    r.step entry = r := by
  unfold isMarker at skipped
  unfold Replay.step
  cases kind : entry.recordType <;> simp [kind] at skipped ⊢

theorem Replays.commit (replays : Replays r s) {txnId : UInt64} {writes : List Write}
    (running : get s.running txnId = some writes) (now : UInt64) :
    Replays (r.step (.txnCommit txnId now)) (step crc s (.commitRecord txnId now)) := by
  have pending := replays.pending txnId writes running
  simp only [step, running, Replay.step, TxnWalEntry.txnCommit, pending]
  constructor
  · simp [replays.result]
  · simp [replays.count]
  · intro other mine found
    simp only [get_erase] at found ⊢
    by_cases same : other = txnId
    · rw [if_pos same] at found
      cases found
    · rw [if_neg same] at found ⊢
      exact replays.pending other mine found

theorem Replays.step (replays : Replays r s) (call : Call) :
    Replays ((appended s call).foldl Replay.step r) (step crc s call) := by
  cases call with
  | beginTransaction now =>
    refine ⟨replays.result, replays.count, ?_⟩
    intro txnId writes found
    simp only [PointInTime.step, get_insert] at found
    simp only [appended, foldl_cons, foldl_nil, Replay.step, TxnWalEntry.txnBegin, get_insert]
    by_cases same : txnId = UInt64.ofNat s.wal.nextTxnId
    · rwa [if_pos same] at found ⊢
    · rw [if_neg same] at found ⊢
      exact replays.pending txnId writes found
  | write txnId now key value => exact replays.dataRecords _ txnId [(now, key, value)]
  | flushBuffer txnId writes => exact replays.dataRecords _ txnId writes
  | commitRecord txnId now =>
    cases running : get s.running txnId with
    | none => simpa [appended, PointInTime.step, running] using replays
    | some writes => simpa [appended, running] using replays.commit crc running now
  | abortTransaction txnId now =>
    refine ⟨replays.result, replays.count, ?_⟩
    intro other writes found
    simp only [PointInTime.step, get_erase] at found
    simp only [appended, foldl_cons, foldl_nil, Replay.step, TxnWalEntry.txnAbort, get_erase]
    by_cases same : other = txnId
    · rw [if_pos same] at found
      cases found
    · rw [if_neg same] at found ⊢
      exact replays.pending other writes found
  | marker entry =>
    simp only [appended, PointInTime.step]
    split
    · rename_i skipped
      rw [foldl_cons, foldl_nil, step_marker skipped]
      exact ⟨replays.result, replays.count, replays.pending⟩
    · exact replays
  | allocTxnId | spill | flush => exact ⟨replays.result, replays.count, replays.pending⟩
  | reopen ourPid =>
    refine ⟨replays.result, replays.count, ?_⟩
    intro txnId writes found
    simp [PointInTime.step] at found

structure Recorded (log : List TxnWalEntry) (s : Session) : Prop where
  fits : ∀ e ∈ log, e.FitsFrame
  bytes : s.wal.written = (walCodec crc).encodeAll log
  counted : s.wal.sequence = log.length
  replays : Replays (Replay.ofRecords log) s

theorem Recorded.readable (recorded : Recorded crc log s) :
    readable crc s.wal.written = log := by
  rw [recorded.bytes]
  exact readable_encodeAll crc recorded.fits

theorem Recorded.step (recorded : Recorded crc log s) {call : Call} (frames : FramesFit s call) :
    Recorded crc (log ++ appended s call) (step crc s call) := by
  have counted : s.wal.sequence = (WalReplay.readable crc s.wal.written).length := by
    rw [recorded.readable, recorded.counted]
  constructor
  · exact forall_mem_append.mpr ⟨recorded.fits, frames⟩
  · rw [written_step, recorded.bytes, Codec.encodeAll_append]
  · rw [sequence_step crc s call counted, recorded.counted, length_append]
  · rw [Replay.ofRecords, foldl_append]
    exact recorded.replays.step crc call

theorem Recorded.run {calls : List Call} (recorded : Recorded crc log s)
    (guarded : Guarded (PointInTime.step crc) FramesFit s calls) :
    ∃ later, Recorded crc (log ++ later) (run (PointInTime.step crc) s calls) := by
  induction calls generalizing log s with
  | nil => exact ⟨[], by simpa using recorded⟩
  | cons call calls ih =>
    obtain ⟨later, rest⟩ := ih (recorded.step crc guarded.1) guarded.2
    refine ⟨appended s call ++ later, ?_⟩
    rw [← append_assoc]
    exact rest

theorem created_recorded (ourPid : UInt32) : Recorded crc [] (created crc ourPid) := by
  refine ⟨by simp, rfl, rfl, rfl, rfl, ?_⟩
  intro txnId writes found
  simp [created] at found

/-- Once the log is flushed, rolling forward to a record number replays that many records, so the number captured at
    any moment brings back the transactions committed by then, each with all its writes;
    rolling forward to a time stops just before the first commit record after it. -/
theorem point_in_time_recovery_is_exact (ourPid : UInt32) (before after : List Call)
    (guarded : Guarded (PointInTime.step crc) FramesFit (created crc ourPid) (before ++ after))
    (flushed : (run (PointInTime.step crc) (created crc ourPid) (before ++ after)).Flushed) :
    let captured := run (PointInTime.step crc) (created crc ourPid) before
    let file := (run (PointInTime.step crc) (created crc ourPid) (before ++ after)).file
    let log := readable crc file
    (walCodec crc).encodeAll log = file ∧
    (∀ l, replayToTarget crc file (.lsn l) =
      replayForRecovery crc ((walCodec crc).encodeAll (log.take l))) ∧
    replayToTarget crc file (.lsn (currentLsn captured)) =
      (captured.committed.flatten, captured.committed.length) ∧
    ∀ t, ∃ front later, log = front ++ later ∧
      replayToTarget crc file (.timestamp t) =
        replayForRecovery crc ((walCodec crc).encodeAll front) ∧
      (∀ e ∈ front, e.recordType = .txnCommit → e.timestampUs ≤ t) ∧
      ∀ e ∈ later.head?, e.recordType = .txnCommit ∧ t < e.timestampUs := by
  intro captured file log
  obtain ⟨early, atCapture⟩ := (created_recorded crc ourPid).run crc guarded.left
  obtain ⟨late, atEnd⟩ := atCapture.run crc guarded.right
  rw [← run_append] at atEnd
  have written : file = (run (PointInTime.step crc) (created crc ourPid) (before ++ after)).wal.written :=
    take_of_length_le (Nat.le_of_eq flushed.symm)
  have whole : log = [] ++ early ++ late := (congrArg (readable crc) written).trans atEnd.readable
  have fits : ∀ e ∈ log, e.FitsFrame := by
    rw [whole]
    exact atEnd.fits
  have rolled : ∀ target, replayToTarget crc file target =
      ((rollForward target 0 Replay.new log).result, (rollForward target 0 Replay.new log).txnCount) :=
    fun _ => rfl
  have byNumber : ∀ l, replayToTarget crc file (.lsn l) =
      ((Replay.ofRecords (log.take l)).result, (Replay.ofRecords (log.take l)).txnCount) := by
    intro l
    rw [rolled, rollForward_lsn]
    rfl
  refine ⟨?_, ?_, ?_, ?_⟩
  · rw [whole, written]
    exact atEnd.bytes.symm
  · intro l
    rw [byNumber, replayForRecovery_encodeAll]
    intro e member
    exact fits e (mem_of_mem_take member)
  · have front : log.take (currentLsn captured) = [] ++ early := by
      rw [whole, currentLsn, atCapture.counted, take_left]
    rw [byNumber, front, atCapture.replays.result, atCapture.replays.count]
  · intro t
    obtain ⟨front, later, split, stopped, early, next⟩ :=
      rollForward_timestamp t 0 Replay.new log
    refine ⟨front, later, split, ?_, early, next⟩
    rw [rolled, stopped, replayForRecovery_encodeAll]
    · rfl
    · intro e member
      apply fits
      rw [split]
      exact mem_append_left later member

end Sessions
def firstCommit : List Call :=
  [.beginTransaction 1, .beginTransaction 2, .write 0x100000001 3 [97] [1],
    .flushBuffer 0x100000002 [(4, [97], [2]), (5, [98], [3])], .commitRecord 0x100000001 6]

def secondCommit : List Call := [.commitRecord 0x100000002 7, .reopen 2]

theorem cut_between_commits_keeps_the_first :
    currentLsn (run (step ieee) (created ieee 1) firstCommit) = 6 ∧
    replayToTarget ieee (run (step ieee) (created ieee 1) (firstCommit ++ secondCommit)).file
      (.lsn 6) = ([([97], [1])], 1) := by
  have captured : currentLsn (run (step ieee) (created ieee 1) firstCommit) = 6 := by decide +kernel
  have committed : (run (step ieee) (created ieee 1) firstCommit).committed = [[([97], [1])]] := by
    decide +kernel
  have law := (point_in_time_recovery_is_exact ieee 1 firstCommit secondCommit
    (by decide +kernel) (by decide +kernel)).2.2.1
  rw [captured, committed] at law
  exact ⟨captured, law⟩

def commitValue (value : Bytes) : List Call :=
  [.beginTransaction 1, .write 0x100000001 2 [97] value, .commitRecord 0x100000001 3]

theorem committed_value_unreadable (value : Bytes)
    (long : maxWalFrameLen < (TxnWalEntry.data 0x100000001 2 [97] value).bodyLen)
    (word : (TxnWalEntry.data 0x100000001 2 [97] value).bodyLen < 256 ^ 4) :
    let s := run (step ieee) (created ieee 1) (commitValue value ++ [.flush])
    s.committed = [[([97], value)]] ∧ replayToTarget ieee s.file (.lsn (currentLsn s)) = ([], 0) := by
  intro s
  have bytes : s.file = (walCodec ieee).encode (.txnBegin 0x100000001 1) ++
      (TxnWalEntry.toBytes ieee (.data 0x100000001 2 [97] value) ++
        TxnWalEntry.toBytes ieee (.txnCommit 0x100000001 3)) :=
    take_length.trans (append_assoc _ _ _)
  have begun : TxnWalEntry.FitsFrame (.txnBegin 0x100000001 1) := by decide
  have refused := scan_error (fromReader_oversized ieee (.data 0x100000001 2 [97] value)
    (TxnWalEntry.toBytes ieee (.txnCommit 0x100000001 3)) long word)
  have read : (scan (fromReader ieee) s.file).1 = [.txnBegin 0x100000001 1] := by
    rw [bytes]
    have first := (walCodec ieee).scan_encode_append begun
      (TxnWalEntry.toBytes ieee (.data 0x100000001 2 [97] value) ++
        TxnWalEntry.toBytes ieee (.txnCommit 0x100000001 3))
    have same : (walCodec ieee).read = fromReader ieee := rfl
    rw [same, refused] at first
    exact congrArg Prod.fst first
  refine ⟨rfl, ?_⟩
  unfold replayToTarget
  rw [read]
  rfl

/-- A value of 512 MiB: the log takes the record and counts it, the reader stops at it. And a
    value of one byte, as long as its commit is in the buffer of the writer. -/
theorem oversized_commit_is_not_recovered :
    let value : Bytes := List.replicate maxWalFrameLen 0
    let s := run (step ieee) (created ieee 1) (commitValue value ++ [.flush])
    let small := run (step ieee) (created ieee 1) (commitValue [1])
    (s.committed = [[([97], value)]] ∧ replayToTarget ieee s.file (.lsn (currentLsn s)) = ([], 0) ∧
      replayToTarget ieee s.file (.lsn (currentLsn s)) ≠
        (s.committed.flatten, s.committed.length)) ∧
    small.committed = [[([97], [1])]] ∧
    replayToTarget ieee small.file (.lsn (currentLsn small)) = ([], 0) := by
  intro value s small
  have size : (TxnWalEntry.data 0x100000001 2 [97] value).bodyLen = maxWalFrameLen + 30 := by
    simp only [TxnWalEntry.bodyLen, TxnWalEntry.data, value, length_replicate, length_cons,
      length_nil, recordHeaderSize, checksumSize]
    omega
  have limit : maxWalFrameLen + 30 < 256 ^ 4 := by decide
  obtain ⟨committed, replayed⟩ := committed_value_unreadable value (by omega) (by omega)
  refine ⟨⟨committed, replayed, ?_⟩, rfl, rfl⟩
  rw [replayed, committed]
  intro same
  cases congrArg Prod.snd same

end PointInTime
