import SochDB.Library.Runs
import SochDB.WalReplay

/-!
A write-ahead log across process lifetimes. Each session appends in full-sync mode,
then a crash cuts the file anywhere at or after the last synced byte and another
process opens it. The node carries, beside the log, what its clients were told.
-/
namespace CrashSessions
open Framing Runs KeyedMaps WalRecords WalFraming WriteAheadLog WalReplay List
open scoped List

/-- `running` holds the transactions begun in this session with the writes flushed
    for them. `unsynced` and `durable` are the writes of the transactions whose commit
    record was appended, in commit order, split at the last sync. -/
structure Node where
  wal : TxnWal
  running : Map UInt64 (List Write)
  unsynced : List (List Write)
  durable : List (List Write)

/-- One critical section of a begin, a commit or an abort, an id taken without a record
    (recovery and fast readers do so), or a crash and the next opening. -/
inductive Event where
  | beginTransaction (now : UInt64)
  | flushBuffer (txnId : UInt64) (writes : List (UInt64 × Bytes × Bytes))
  | commitRecord (txnId now : UInt64)
  | allocTxnId
  | sync
  | abort (txnId : UInt64) (hadWrites : Bool) (now : UInt64)
  | crash (cut : Nat) (ourPid : UInt32)

section Sessions
variable (crc : Crc32fast)

def created (ourPid : UInt32) : Node := ⟨TxnWal.new crc ourPid [] 0 (Nat.zero_le _), ∅, [], []⟩

/-- A crash keeps the first `max cut synced` bytes, so every cut at or after the last
    synced byte is covered. -/
def survive (wal : TxnWal) (cut : Nat) (ourPid : UInt32) : TxnWal :=
  TxnWal.new crc ourPid (wal.written.take (max cut wal.synced)) wal.synced (by
    have := wal.synced_le
    rw [List.length_take]
    omega)

/-- Only a transaction that is still running passes validation, so only such a
    transaction gets a commit record. -/
def step (node : Node) : Event → Node
  | .beginTransaction now =>
    { node with
      wal := (node.wal.beginTransaction crc now).2
      running := node.running.insert (UInt64.ofNat node.wal.nextTxnId) [] }
  | .flushBuffer txnId writes =>
    { node with
      wal := node.wal.flushBuffer (bufferOf crc txnId writes)
      running := adjust node.running txnId (· ++ writes.map Prod.snd) }
  | .commitRecord txnId now =>
    match get node.running txnId with
    | some writes =>
      { node with
        wal := node.wal.append crc (TxnWalEntry.txnCommit txnId now)
        running := node.running.erase txnId
        unsynced := node.unsynced ++ [writes] }
    | none => node
  | .allocTxnId => { node with wal := node.wal.allocTxnId.2 }
  | .sync =>
    { node with
      wal := node.wal.sync
      unsynced := []
      durable := node.durable ++ node.unsynced }
  | .abort txnId hadWrites now =>
    { node with
      wal := if hadWrites then node.wal.append crc (TxnWalEntry.txnAbort txnId now) else node.wal
      running := node.running.erase txnId }
  | .crash cut ourPid =>
    { node with wal := survive crc node.wal cut ourPid, running := ∅, unsynced := [] }

def appended (node : Node) : Event → List TxnWalEntry
  | .beginTransaction now => [TxnWalEntry.txnBegin (UInt64.ofNat node.wal.nextTxnId) now]
  | .flushBuffer txnId writes => writes.map fun w => TxnWalEntry.data txnId w.1 w.2.1 w.2.2
  | .commitRecord txnId now =>
    if (get node.running txnId).isSome then [TxnWalEntry.txnCommit txnId now] else []
  | .abort txnId hadWrites now => if hadWrites then [TxnWalEntry.txnAbort txnId now] else []
  | .allocTxnId | .sync | .crash _ _ => []

def WholeRecords (file : Bytes) : Prop := (walCodec crc).encodeAll (readable crc file) = file

instance (file : Bytes) : Decidable (WholeRecords crc file) :=
  inferInstanceAs (Decidable (_ = _))

/-- Nothing is appended behind a torn record, and every appended record fits a frame. -/
def AppendsToWholeRecords (node : Node) (event : Event) : Prop :=
  (appended node event = [] ∨ WholeRecords crc node.wal.written) ∧
    ∀ e ∈ appended node event, e.FitsFrame

instance (node : Node) (event : Event) : Decidable (AppendsToWholeRecords crc node event) :=
  inferInstanceAs (Decidable (_ ∧ _))

def Splits (r : Replay) (blocks : List (List Write)) : Prop :=
  r.result = blocks.flatten ∧ r.txnCount = blocks.length

variable {r : Replay} {blocks : List (List Write)} {node : Node} {file : Bytes}

theorem splits_step (splits : Splits r blocks) (e : TxnWalEntry) :
    ∃ more, Splits (r.step e) (blocks ++ more) := by
  obtain ⟨result, count⟩ := splits
  have unchanged : ∃ more, Splits r (blocks ++ more) := ⟨[], by simp [Splits, result, count]⟩
  unfold Replay.step
  split
  · exact unchanged
  · exact unchanged
  · split
    · rename_i writes _
      exact ⟨[writes], by simp [Splits, result, count]⟩
    · exact unchanged
  · exact unchanged
  · exact unchanged

theorem splits_foldl (splits : Splits r blocks) (records : List TxnWalEntry) :
    ∃ more, Splits (records.foldl Replay.step r) (blocks ++ more) := by
  induction records generalizing r blocks with
  | nil => exact ⟨[], by simpa using splits⟩
  | cons e records ih =>
    obtain ⟨first, splitFirst⟩ := splits_step splits e
    obtain ⟨later, splitLater⟩ := ih splitFirst
    exact ⟨first ++ later, by simpa using splitLater⟩

theorem splits_extends {before after : List TxnWalEntry} (extends_ : before <+: after)
    (splits : Splits (Replay.ofRecords before) blocks) :
    ∃ more, Splits (Replay.ofRecords after) (blocks ++ more) := by
  obtain ⟨rest, rfl⟩ := extends_
  rw [Replay.ofRecords, foldl_append]
  exact splits_foldl splits rest

structure Agrees (r : Replay) (node : Node) : Prop where
  kept : ∃ blocks, Splits r blocks ∧ node.durable ++ node.unsynced <+ blocks
  pending : ∀ txnId writes, get node.running txnId = some writes →
    get r.pendingWrites txnId = some writes

section
variable (agrees : Agrees r node)
include agrees

theorem agrees_begin (now : UInt64) :
    Agrees (r.step (TxnWalEntry.txnBegin (UInt64.ofNat node.wal.nextTxnId) now))
      (step crc node (.beginTransaction now)) := by
  refine ⟨agrees.kept, fun txnId writes found => ?_⟩
  simp only [step, get_insert] at found
  simp only [Replay.step, TxnWalEntry.txnBegin, get_insert]
  split
  · rename_i same
    rwa [if_pos same] at found
  · rename_i other
    rw [if_neg other] at found
    exact agrees.pending txnId writes found

theorem agrees_flush (txnId : UInt64) (writes : List (UInt64 × Bytes × Bytes)) :
    Agrees ((appended node (.flushBuffer txnId writes)).foldl Replay.step r)
      (step crc node (.flushBuffer txnId writes)) := by
  obtain ⟨blocks, ⟨result, count⟩, told⟩ := agrees.kept
  refine ⟨⟨blocks, ⟨?_, ?_⟩, told⟩, fun other mine found => ?_⟩
  · exact (replay_data txnId writes r txnId).1.trans result
  · exact (replay_data txnId writes r txnId).2.1.trans count
  · simp only [appended, (replay_data txnId writes r other).2.2]
    simp only [step, get_adjust] at found
    by_cases same : other = txnId
    · subst same
      rw [if_pos rfl, Option.map_eq_some_iff] at found
      obtain ⟨before, running, rfl⟩ := found
      rw [agrees.pending other before running]
      by_cases empty : writes = [] <;> simp [empty]
    · rw [if_neg same] at found
      rw [if_neg (fun h => same h.1)]
      exact agrees.pending other mine found

theorem agrees_commit (txnId now : UInt64) :
    Agrees ((appended node (.commitRecord txnId now)).foldl Replay.step r)
      (step crc node (.commitRecord txnId now)) := by
  simp only [appended, step]
  cases running : get node.running txnId with
  | none => simpa using agrees
  | some writes =>
    obtain ⟨blocks, ⟨result, count⟩, told⟩ := agrees.kept
    have pending := agrees.pending txnId writes running
    simp only [Option.isSome_some, if_true, foldl_cons, foldl_nil, Replay.step,
      TxnWalEntry.txnCommit, pending]
    refine ⟨⟨blocks ++ [writes], by simp [Splits, result, count], ?_⟩, fun other mine found => ?_⟩
    · rw [← append_assoc]
      exact told.append (.refl _)
    · simp only [get_erase] at found ⊢
      split
      · rename_i same
        rw [if_pos same] at found
        cases found
      · rename_i different
        rw [if_neg different] at found
        exact agrees.pending other mine found

theorem agrees_abort (txnId now : UInt64) (hadWrites : Bool) :
    Agrees ((appended node (.abort txnId hadWrites now)).foldl Replay.step r)
      (step crc node (.abort txnId hadWrites now)) := by
  have others : ∀ other mine, get (node.running.erase txnId) other = some mine →
      other ≠ txnId ∧ get r.pendingWrites other = some mine := by
    intro other mine found
    rw [get_erase] at found
    split at found
    · cases found
    · rename_i different
      exact ⟨different, agrees.pending other mine found⟩
  cases hadWrites with
  | false => exact ⟨agrees.kept, fun other mine found => (others other mine found).2⟩
  | true =>
    refine ⟨agrees.kept, fun other mine found => ?_⟩
    obtain ⟨different, pending⟩ := others other mine found
    simpa [appended, Replay.step, TxnWalEntry.txnAbort, get_erase, different] using pending

theorem agrees_step (event : Event) (live : ∀ cut ourPid, event ≠ .crash cut ourPid) :
    Agrees ((appended node event).foldl Replay.step r) (step crc node event) := by
  cases event with
  | beginTransaction now => exact agrees_begin crc agrees now
  | flushBuffer txnId writes => exact agrees_flush crc agrees txnId writes
  | commitRecord txnId now => exact agrees_commit crc agrees txnId now
  | allocTxnId => exact ⟨agrees.kept, agrees.pending⟩
  | sync =>
    refine ⟨?_, agrees.pending⟩
    simpa [step, appended] using agrees.kept
  | abort txnId hadWrites now => exact agrees_abort crc agrees txnId now hadWrites
  | crash cut ourPid => exact absurd rfl (live cut ourPid)

end

theorem written_step (node : Node) (event : Event)
    (live : ∀ cut ourPid, event ≠ .crash cut ourPid) :
    (step crc node event).wal.written =
      node.wal.written ++ (walCodec crc).encodeAll (appended node event) := by
  cases event with
  | beginTransaction now => rw [appended, one_frame]; rfl
  | flushBuffer txnId writes => exact flushed_buffer crc node.wal txnId writes
  | commitRecord txnId now =>
    simp only [appended, step]
    cases get node.running txnId with
    | none => simp
    | some writes => rw [Option.isSome_some, if_pos rfl, one_frame]; rfl
  | allocTxnId => simp [step, appended, TxnWal.allocTxnId]
  | sync => simp [step, appended, TxnWal.sync]
  | abort txnId hadWrites now =>
    cases hadWrites with
    | false => simp [step, appended]
    | true => simp only [appended, if_true, one_frame]; rfl
  | crash cut ourPid => exact absurd rfl (live cut ourPid)

def CutLog (file : Bytes) : Prop :=
  ∃ full n, (∀ e ∈ full, e.FitsFrame) ∧ file = ((walCodec crc).encodeAll full).take n

theorem readable_cut {full : List TxnWalEntry} (fits : ∀ e ∈ full, e.FitsFrame) (n : Nat) :
    readable crc (((walCodec crc).encodeAll full).take n) =
      (walCodec crc).recordsWithin n 0 full := by
  have cut := congrArg Prod.fst ((walCodec crc).scan_cut fits 0 n)
  rw [Nat.zero_add] at cut
  exact cut

section
variable (cutLog : CutLog crc file)
include cutLog

theorem cutLog_readable :
    ∀ e ∈ readable crc file, e.FitsFrame := by
  obtain ⟨full, n, fits, rfl⟩ := cutLog
  intro e member
  rw [readable_cut crc fits] at member
  exact fits e ((walCodec crc).mem_of_mem_recordsWithin member)

theorem cutLog_take (n : Nat) :
    CutLog crc (file.take n) := by
  obtain ⟨full, m, fits, rfl⟩ := cutLog
  exact ⟨full, min n m, fits, take_take⟩

theorem readable_take {n m : Nat} (earlier : n ≤ m) :
    readable crc (file.take n) <+: readable crc (file.take m) := by
  obtain ⟨full, k, fits, rfl⟩ := cutLog
  rw [take_take, take_take, readable_cut crc fits, readable_cut crc fits]
  exact (walCodec crc).recordsWithin_mono (by omega)

theorem readable_append {more : List TxnWalEntry} (whole : WholeRecords crc file)
    (fits : ∀ e ∈ more, e.FitsFrame) :
    readable crc (file ++ (walCodec crc).encodeAll more) = readable crc file ++ more ∧
      CutLog crc (file ++ (walCodec crc).encodeAll more) := by
  have all : ∀ e ∈ readable crc file ++ more, e.FitsFrame :=
    forall_mem_append.mpr ⟨cutLog_readable crc cutLog, fits⟩
  have bytes : (walCodec crc).encodeAll (readable crc file ++ more) =
      file ++ (walCodec crc).encodeAll more := by
    rw [Codec.encodeAll_append, whole]
  rw [← bytes]
  refine ⟨congrArg Prod.fst ((walCodec crc).scan_encodeAll all), ?_⟩
  exact ⟨_, _, all, (take_of_length_le (le_rfl)).symm⟩

end

structure Sound (node : Node) : Prop where
  cutLog : CutLog crc node.wal.written
  synced_kept : ∃ blocks, node.durable <+ blocks ∧
    Splits (Replay.ofRecords (readable crc (node.wal.written.take node.wal.synced))) blocks
  agrees : Agrees (Replay.ofRecords (readable crc node.wal.written)) node

theorem created_sound (ourPid : UInt32) : Sound crc (created crc ourPid) := by
  have empty : readable crc [] = [] := rfl
  refine ⟨⟨[], 0, by simp, rfl⟩, ⟨[], .refl _, ?_⟩, ⟨[], ?_, .refl _⟩, ?_⟩
  · exact ⟨rfl, rfl⟩
  · exact ⟨rfl, rfl⟩
  · intro txnId writes found
    simp [created] at found

theorem synced_part_step (node : Node) (event : Event) (notSync : event ≠ .sync)
    (live : ∀ cut ourPid, event ≠ .crash cut ourPid) :
    (step crc node event).durable = node.durable ∧
      (step crc node event).wal.synced = node.wal.synced := by
  cases event with
  | beginTransaction now => exact ⟨rfl, rfl⟩
  | flushBuffer txnId writes => exact ⟨rfl, node.wal.flushBuffer_synced _⟩
  | commitRecord txnId now =>
    simp only [step]
    split <;> exact ⟨rfl, rfl⟩
  | allocTxnId => exact ⟨rfl, rfl⟩
  | sync => exact absurd rfl notSync
  | abort txnId hadWrites now => cases hadWrites <;> exact ⟨rfl, rfl⟩
  | crash cut ourPid => exact absurd rfl (live cut ourPid)

theorem live_step_sound {event : Event} (sound : Sound crc node)
    (live : ∀ cut ourPid, event ≠ .crash cut ourPid) (guard : AppendsToWholeRecords crc node event) :
    Sound crc (step crc node event) := by
  have bytes := written_step crc node event live
  obtain ⟨grown, cutLog⟩ : readable crc (step crc node event).wal.written =
      readable crc node.wal.written ++ appended node event ∧
        CutLog crc (step crc node event).wal.written := by
    rw [bytes]
    rcases guard.1 with nothing | whole
    · simpa [nothing] using sound.cutLog
    · exact readable_append crc sound.cutLog whole guard.2
  have agrees : Agrees (Replay.ofRecords (readable crc (step crc node event).wal.written))
      (step crc node event) := by
    rw [grown, Replay.ofRecords, foldl_append]
    exact agrees_step crc sound.agrees event live
  refine ⟨cutLog, ?_, agrees⟩
  by_cases synced : event = .sync
  · -- a sync makes the whole file the synced part, so the session's commits become durable
    subst synced
    obtain ⟨blocks, splits, told⟩ := agrees.kept
    refine ⟨blocks, (sublist_append_left _ _).trans told, ?_⟩
    simpa [step, TxnWal.sync] using splits
  · obtain ⟨sameDurable, sameSynced⟩ := synced_part_step crc node event synced live
    rw [sameDurable, sameSynced, bytes, take_append_of_le_length node.wal.synced_le]
    exact sound.synced_kept

theorem crash_sound (sound : Sound crc node) (cut : Nat) (ourPid : UInt32) :
    Sound crc (step crc node (.crash cut ourPid)) := by
  obtain ⟨blocks, told, splits⟩ := sound.synced_kept
  have later : node.wal.synced ≤ max cut node.wal.synced := Nat.le_max_right _ _
  obtain ⟨more, longer⟩ := splits_extends (readable_take crc sound.cutLog later) splits
  refine ⟨cutLog_take crc sound.cutLog _, ⟨blocks, told, ?_⟩, ⟨blocks ++ more, longer, ?_⟩, ?_⟩
  · simpa [step, survive, TxnWal.new, take_take] using splits
  · simpa [step] using told.trans (sublist_append_left blocks more)
  · intro txnId writes found
    simp [step] at found

theorem step_sound (node : Node) (event : Event) (sound : Sound crc node)
    (guard : AppendsToWholeRecords crc node event) : Sound crc (step crc node event) := by
  cases event with
  | crash cut ourPid => exact crash_sound crc sound cut ourPid
  | beginTransaction | flushBuffer | commitRecord | allocTxnId | sync | abort =>
    exact live_step_sound crc sound (by simp) guard

/-- As long as no session appends behind a torn record, every later replay returns,
    in commit order, the writes of every transaction whose commit was synced. -/
theorem synced_commits_survive_crashes (ourPid : UInt32) (events : List Event)
    (guarded : Guarded (step crc) (AppendsToWholeRecords crc) (created crc ourPid) events) :
    let node := run (step crc) (created crc ourPid) events
    ∃ blocks, replayForRecovery crc node.wal.written = (blocks.flatten, blocks.length) ∧
      node.durable <+ blocks := by
  have sound := guarded.preserves (step_sound crc) (created_sound crc ourPid)
  obtain ⟨blocks, ⟨result, count⟩, told⟩ := sound.agrees.kept
  exact ⟨blocks, Prod.ext result count, (sublist_append_left _ _).trans told⟩

end Sessions

def commitOne (txnId now : UInt64) (key value : Bytes) : List Event :=
  [.beginTransaction now, .flushBuffer txnId [(now, key, value)], .commitRecord txnId now, .sync]

/-- Both sessions commit one key and lose a begin record at the crash. The first crash
    cuts at the record boundary; the second leaves three bytes of the begin record. -/
def cleanlyCut : List Event :=
  commitOne 0x100000001 1 [97] [1] ++ [.beginTransaction 2, .crash 0 2] ++
    commitOne 0x200000001 3 [98] [2] ++ [.beginTransaction 4, .crash 205 3]

theorem cleanly_cut_sessions_survive :
    let node := run (step ieee) (created ieee 1) cleanlyCut
    node.durable = [[([97], [1])], [([98], [2])]] ∧
    ∃ blocks, replayForRecovery ieee node.wal.written = (blocks.flatten, blocks.length) ∧
      node.durable <+ blocks :=
  ⟨by decide +kernel, synced_commits_survive_crashes ieee 1 cleanlyCut (by decide +kernel)⟩

/-- The first crash leaves one byte of the begin record, and the second session appends
    its commit behind it. -/
def tornCut : List Event :=
  commitOne 0x100000001 1 [97] [1] ++ [.beginTransaction 2, .crash 102 2] ++
    commitOne 0x200000001 3 [98] [2] ++ [.crash 0 3]

theorem commit_behind_torn_record_is_lost :
    let node := run (step ieee) (created ieee 1) tornCut
    node.durable = [[([97], [1])], [([98], [2])]] ∧
    replayForRecovery ieee node.wal.written = ([([97], [1])], 1) ∧
    ¬ ∃ blocks, replayForRecovery ieee node.wal.written = (blocks.flatten, blocks.length) ∧
      node.durable <+ blocks := by
  intro node
  have told : node.durable = [[([97], [1])], [([98], [2])]] := by decide +kernel
  have replayed : replayForRecovery ieee node.wal.written = ([([97], [1])], 1) := by decide +kernel
  refine ⟨told, replayed, ?_⟩
  rintro ⟨blocks, split, kept⟩
  rw [told] at kept
  rw [replayed, Prod.mk.injEq] at split
  have fewer := kept.length_le
  simp only [length_cons, length_nil] at fewer
  omega

end CrashSessions
