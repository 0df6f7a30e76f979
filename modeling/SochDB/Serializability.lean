import SochDB.SnapshotReads

/-!
The validator against serializability. A cycle of conflicts passes through a transaction
that missed an earlier commit and was itself missed or overwritten. The validator looks for
it only among tracked commits, when the middle transaction commits last, and skips
transactions of a single key; where nothing slips through, every history is serializable.
-/
namespace Serializability
open Runs Serialization KeyedMaps WalRecords TxnManager BloomFilter
open MemTables StorageEngine EngineSteps Recovery Histories SnapshotReads

def meets (a b : List Bytes) : Prop := ∃ key ∈ a, key ∈ b

instance (a b : List Bytes) : Decidable (meets a b) :=
  inferInstanceAs (Decidable (∃ key ∈ a, key ∈ b))

def Tracked (c : Committed) : Prop := c.readSet ≠ [] ∧ c.writeSet ≠ []

instance (c : Committed) : Decidable (Tracked c) :=
  inferInstanceAs (Decidable (c.readSet ≠ [] ∧ c.writeSet ≠ []))

section
variable {H : KeyHashes} (crc : Crc32fast)

def TouchesOneKey (txn : MvccTransaction H) : Prop :=
  txn.writeSet.length = 1 ∧ txn.readSet.length ≤ 1

instance (txn : MvccTransaction H) : Decidable (TouchesOneKey txn) :=
  inferInstanceAs (Decidable (txn.writeSet.length = 1 ∧ txn.readSet.length ≤ 1))

/-- Where the transaction missed the commit `c`, no commit from `c` on wrote its keys, and
    one that read them is one that the validator compares it with. -/
def SafeAsPivot (history : List Committed) (txn : MvccTransaction H) : Prop :=
  ∀ c ∈ history, txn.snapshotTs ≤ c.commitTs → meets txn.readSet c.writeSet →
    ∀ a ∈ history, c.commitTs ≤ a.commitTs →
      ¬ meets txn.writeSet a.writeSet ∧
        (meets txn.writeSet a.readSet → ¬ TouchesOneKey txn ∧ Tracked a ∧ Tracked c)

/-- The transaction missed no commit `b` that had itself missed one before it. -/
def SafeAsReader (history : List Committed) (txn : MvccTransaction H) : Prop :=
  ∀ b ∈ history, txn.snapshotTs ≤ b.commitTs → meets txn.readSet b.writeSet →
    ∀ c ∈ history, b.snapshotTs ≤ c.commitTs → c.commitTs < b.commitTs →
      ¬ meets b.readSet c.writeSet

def ValidatorSees (o : Observed H) : Op → Prop
  | .commit txnId _ _ => ∀ txn ∈ active o.store txnId, o.store.mvcc.refuses txn = false →
      SafeAsPivot o.history txn ∧ SafeAsReader o.history txn
  | _ => True

instance (history : List Committed) (txn : MvccTransaction H) : Decidable (SafeAsPivot history txn) :=
  inferInstanceAs (Decidable (∀ c ∈ history, _))

instance (history : List Committed) (txn : MvccTransaction H) : Decidable (SafeAsReader history txn) :=
  inferInstanceAs (Decidable (∀ b ∈ history, _))

instance (o : Observed H) : (op : Op) → Decidable (ValidatorSees o op)
  | .commit txnId _ _ => inferInstanceAs (Decidable (∀ txn ∈ active o.store txnId, _))
  | .beginWithMode _ _ | .beginReadOnlyFast | .abortReadOnlyFast _ | .read _ _ | .writeRefs _ _ _ _
  | .delete _ _ _ | .writeBatchRefs _ _ | .abort _ _ | .gc => inferInstanceAs (Decidable True)

structure Watched (o : Observed H) : Prop where
  watermark : Watermarked o.store
  kept : ∀ txnId txn, active o.store txnId = some txn → ∀ c ∈ o.history, Tracked c →
    txn.snapshotTs ≤ c.commitTs → ∃ recent, get o.store.mvcc.recentCommits c.txnId = some recent ∧
      recent.commitTs = c.commitTs ∧ recent.footprint.readSet = c.readSet ∧
      recent.footprint.writeSet = c.writeSet

theorem fresh_watched {s : DurableStorage H} (fresh : Fresh s) : Watched (unobserved s) where
  watermark txnId txn found := absurd ((fresh.none_active txnId).symm.trans found) (by simp)
  kept txnId txn found := absurd ((fresh.none_active txnId).symm.trans found) (by simp)

section Steps
variable {first : Nat} {init : Bytes → Option Bytes} {o : Observed H}
variable {txnId : Nat} {txn : MvccTransaction H}

theorem Watched.quiet (watched : Watched o) (ordered : Ordered first o) {op : Op}
    (quiet : ∀ ended shouldSync now, op ≠ .commit ended shouldSync now)
    (sameHistory : (observe crc o op).history = o.history) : Watched (observe crc o op) := by
  refine ⟨watched.watermark.step crc op, fun txnId txn running c member tracked missed => ?_⟩
  have sameRecent : (observe crc o op).store.mvcc.recentCommits = _ :=
    recentCommits_quiet crc o.store quiet
  rw [sameHistory] at member
  rw [sameRecent]
  rcases ordered.active_after crc running with ⟨before, found, same, _⟩ | ⟨_, _, stamp, _⟩
  · exact watched.kept txnId before found c member tracked (same ▸ missed)
  · have past := (ordered.stamps_history c member).2.2
    omega

theorem Watched.commit (watched : Watched o) (ordered : Ordered first o)
    (faithful : Faithful first init o) (ended : Nat) (shouldSync : Bool) (now : UInt64) :
    Watched (observe crc o (.commit ended shouldSync now)) := by
  refine ⟨watched.watermark.step crc _, fun txnId txn running c member tracked missed => ?_⟩
  have manager : (observe crc o (.commit ended shouldSync now)).store.mvcc = _ :=
    commit_mvcc crc o.store ended shouldSync now
  obtain ⟨before, found, same⟩ : ∃ before, active o.store txnId = some before ∧
      txn.snapshotTs = before.snapshotTs := by
    rcases ordered.active_after crc running with ⟨before, found, same, _⟩ | ⟨beginning, _⟩
    · exact ⟨before, found, same⟩
    · cases beginning
  rw [manager]
  rcases List.mem_append.mp member with old | new
  · obtain ⟨recent, kept, stamp, sets⟩ := watched.kept txnId before found c old tracked (same ▸ missed)
    have above := watched.watermark txnId before found
    exact ⟨recent, MvccManager.recent_commit kept (ordered.ids_history c old).2 (by omega), stamp, sets⟩
  · simp only [committedBy] at new
    split at new
    · rename_i ending known
      split at new
      · cases new
      · rename_i accepted
        obtain rfl := List.mem_singleton.mp new
        have above := watched.watermark ended ending known
        have stamps := ordered.stamps_active ended ending known
        exact ⟨_, MvccManager.recent_commit_self known (by simpa using accepted)
          (faithful.running ended ending known).mode tracked.1 tracked.2 (by omega), rfl, rfl, rfl⟩
    · cases new

theorem Watched.step (watched : Watched o) (ordered : Ordered first o)
    (faithful : Faithful first init o) (op : Op) : Watched (observe crc o op) := by
  by_cases quiet : ∀ ended shouldSync now, op ≠ .commit ended shouldSync now
  · refine watched.quiet crc ordered quiet ?_
    rcases observe_cases crc o op with ⟨_, _, _, _, same, _⟩ | ⟨_, _, sameHistory, _⟩
    · exact absurd same (quiet _ _ _)
    · exact sameHistory
  · simp only [not_forall, not_not] at quiet
    obtain ⟨ended, shouldSync, now, rfl⟩ := quiet
    exact watched.commit crc ordered faithful ended shouldSync now

theorem Watched.rejects (watched : Watched o) (found : active o.store txnId = some txn)
    (mode : txn.mode = .readWrite) (several : ¬ TouchesOneKey txn) {a c : Committed}
    (onA : a ∈ o.history) (onC : c ∈ o.history) (trackedA : Tracked a) (trackedC : Tracked c)
    (missed : txn.snapshotTs ≤ c.commitTs) (later : c.commitTs ≤ a.commitTs)
    (reads : meets txn.readSet c.writeSet) (wasRead : meets txn.writeSet a.readSet) :
    o.store.mvcc.refuses txn = true := by
  obtain ⟨writer, keptC, stampC, _, writesC⟩ := watched.kept txnId txn found c onC trackedC missed
  obtain ⟨reader, keptA, stampA, readsA, _⟩ :=
    watched.kept txnId txn found a onA trackedA (Nat.le_trans missed later)
  obtain ⟨read, inReads, overwritten⟩ := reads
  obtain ⟨written, inWrites, before⟩ := wasRead
  have rejected := MvccManager.validateSsi_rejects keptA keptC (by omega) (by omega) inReads
    (writesC ▸ overwritten) inWrites (readsA ▸ before) several
  simp [MvccManager.refuses, mode, rejected]

def NoPivot (o : Observed H) : Prop :=
  ∀ a ∈ o.history, ∀ b ∈ o.history, ∀ c ∈ o.history, ¬ Pivot (txnOf a) (txnOf b) (txnOf c)

theorem NoPivot.accepted (safe : NoPivot o) (ordered : Ordered first o)
    (faithful : Faithful first init o) (watched : Watched o)
    (found : active o.store txnId = some txn) (accepted : o.store.mvcc.refuses txn = false)
    (asPivot : SafeAsPivot o.history txn) (asReader : SafeAsReader o.history txn) :
    ∀ a ∈ o.history ++ [entry o txnId txn], ∀ b ∈ o.history ++ [entry o txnId txn],
      ∀ c ∈ o.history ++ [entry o txnId txn], ¬ Pivot (txnOf a) (txnOf b) (txnOf c) := by
  have sound := faithful.running txnId txn found
  have latest : ∀ c ∈ o.history, c.commitTs < o.store.mvcc.tsCounter := fun c member =>
    (ordered.stamps_history c member).2.2
  have stamp : (entry o txnId txn).commitTs = o.store.mvcc.tsCounter := rfl
  intro a memberA b memberB c memberC pivot
  obtain ⟨⟨missedKey, reads, overwrites⟩, overlap, earlier, earliest, ⟨key, wrote, follows⟩⟩ := pivot
  simp only [txnOf] at reads overwrites overlap earlier earliest wrote follows
  rw [List.mem_append, List.mem_singleton] at memberA memberB memberC
  rcases memberC with onC | rfl
  · have recordedC := faithful.ended c onC
    rcases memberB with onB | rfl
    · have recordedB := faithful.ended b onB
      rcases memberA with onA | rfl
      · exact safe a onA b onB c onC
          ⟨⟨missedKey, reads, overwrites⟩, overlap, earlier, earliest, ⟨key, wrote, follows⟩⟩
      · have before := latest b onB
        rcases follows with ⟨_, late⟩ | ⟨readsB, missed, _⟩
        · omega
        · exact asReader b onB missed ⟨key, sound.recorded.reads key readsB, recordedB.writes key wrote⟩
            c onC overlap earlier
            ⟨missedKey, recordedB.reads missedKey reads, recordedC.writes missedKey overwrites⟩
    · rcases memberA with onA | rfl
      · have recordedA := faithful.ended a onA
        have missed : meets txn.readSet c.writeSet :=
          ⟨missedKey, sound.recorded.reads missedKey reads, recordedC.writes missedKey overwrites⟩
        obtain ⟨apart, seen⟩ := asPivot c onC overlap missed a onA earliest
        have written : key ∈ txn.writeSet := sound.recorded.writes key wrote
        rcases follows with ⟨writesA, _⟩ | ⟨readsA, _, _⟩
        · exact apart ⟨key, written, recordedA.writes key writesA⟩
        · have wasRead : meets txn.writeSet a.readSet := ⟨key, written, recordedA.reads key readsA⟩
          obtain ⟨several, trackedA, trackedC⟩ := seen wasRead
          rw [watched.rejects found sound.mode several onA onC trackedA trackedC overlap earliest
            missed wasRead] at accepted
          cases accepted
      · omega
  · rcases memberB with onB | rfl
    · have before := latest b onB
      omega
    · omega

theorem NoPivot.step (safe : NoPivot o) (ordered : Ordered first o) (faithful : Faithful first init o)
    (watched : Watched o) {op : Op} (sees : ValidatorSees o op) : NoPivot (observe crc o op) := by
  unfold NoPivot
  rcases observe_cases crc o op with ⟨txnId, shouldSync, now, txn, rfl, found, accepted, grown, _⟩ |
    ⟨_, _, sameHistory, _⟩
  · obtain ⟨asPivot, asReader⟩ := sees txn found accepted
    rw [grown]
    exact safe.accepted ordered faithful watched found accepted asPivot asReader
  · rw [sameHistory]
    exact safe

theorem serializable_of_noPivot (safe : NoPivot o) (ordered : Ordered first o)
    (versioned : Versioned first o) (faithful : Faithful first init o) :
    Serializable init (transactions o) (committedValues o.store) := by
  rw [faithful.final ordered versioned]
  have members : ∀ t ∈ transactions o, ∃ c ∈ o.history, txnOf c = t := fun t => List.mem_map.mp
  refine serializable_of_no_pivot ⟨?_, ?_⟩ ?_ ?_
  · exact List.pairwise_map.mpr ordered.sorted
  · intro t member
    obtain ⟨c, onC, rfl⟩ := members t member
    exact (ordered.stamps_history c onC).2.1
  · intro t member
    obtain ⟨c, onC, rfl⟩ := members t member
    exact (faithful.ended c onC).answered
  · intro x memberX y memberY z memberZ
    obtain ⟨a, onA, rfl⟩ := members x memberX
    obtain ⟨b, onB, rfl⟩ := members y memberY
    obtain ⟨c, onC, rfl⟩ := members z memberZ
    exact safe a onA b onB c onC

end Steps

/-- If no accepted commit completes a dangerous structure outside the validator's view,
    some serial order of the committed transactions explains all their reads and the
    final state. -/
theorem committed_history_serializable (ourPid : UInt32) (file : Bytes) (kind : MemTableType)
    (enableOrderedIndex recovers : Bool) (ops : List Op) :
    let start : DurableStorage H := started crc ourPid file kind enableOrderedIndex recovers
    let final := run (observe crc) (unobserved start) ops
    Guarded (step crc) PointAccess start ops →
      Guarded (observe crc) ValidatorSees (unobserved start) ops →
      Serializable (committedValues start) (transactions final) (committedValues final.store) := by
  intro start final scope sees
  have fresh : Fresh start := started_fresh crc ourPid file kind enableOrderedIndex recovers
  let Inv : Observed H → Prop := fun o => Ordered start.mvcc.tsCounter o ∧
    Versioned start.mvcc.tsCounter o ∧ Faithful start.mvcc.tsCounter (committedValues start) o ∧
    Watched o ∧ NoPivot o
  have initial : Inv (unobserved start) :=
    ⟨fresh_ordered fresh, fresh_versioned fresh, fresh_faithful fresh, fresh_watched fresh,
      fun a member => by cases member⟩
  have within : Guarded (observe crc) (fun o op => PointAccess o.store op) (unobserved start) ops :=
    (guarded_view Observed.store (fun _ _ => rfl) (unobserved start) ops).mpr scope
  have reached : Inv final := by
    refine Guarded.preserves ?_ initial (within.and sees)
    rintro o op ⟨ordered, versioned, faithful, watched, safe⟩ ⟨inScope, seen⟩
    exact ⟨ordered.step crc op, versioned.step crc op, faithful.step crc ordered versioned inScope,
      watched.step crc ordered faithful op, safe.step crc ordered faithful watched seen⟩
  obtain ⟨ordered, versioned, faithful, _, safe⟩ := reached
  exact serializable_of_noPivot safe ordered versioned faithful

end

/-- Each of the first two transactions reads a key that the other writes, and each writes
    a second key; the validator rejects the second one. -/
def rejectedSkew : List Op :=
  [.beginWithMode .readWrite 0, .beginWithMode .readWrite 0, .read 1 [120], .writeRefs 1 0 [121] [1],
    .delete 1 0 [122], .read 2 [121], .writeRefs 2 0 [120] [2], .writeRefs 2 0 [119] [2],
    .commit 1 true 0, .commit 2 true 0, .beginWithMode .readWrite 0, .read 3 [121],
    .writeRefs 3 0 [118] [3], .commit 3 true 0]

theorem rejected_skew_leaves_serializable_history :
    let start : DurableStorage lengthHashes := started ieee 0 [] .standard true false
    let final := run (observe ieee) (unobserved start) rejectedSkew
    final.history.map Committed.txnId = [1, 3] ∧
      Serializable (committedValues start) (transactions final) (committedValues final.store) :=
  ⟨by decide +kernel, committed_history_serializable ieee 0 [] .standard true false rejectedSkew
    (by decide +kernel) (by decide +kernel)⟩

/-- The same with one key read and one key written by each. -/
def writeSkew : List Op :=
  [.beginWithMode .readWrite 0, .beginWithMode .readWrite 0, .read 1 [120], .read 2 [121],
    .writeRefs 1 0 [121] [1], .writeRefs 2 0 [120] [2], .commit 1 true 0, .commit 2 true 0]

def skewFirst : Txn Bytes (Option Bytes) := ⟨1, 1, [.read [120] none, .write [121] (some [1])]⟩

def skewSecond : Txn Bytes (Option Bytes) := ⟨1, 2, [.read [121] none, .write [120] (some [2])]⟩

theorem write_skew_on_single_keys_commits :
    let start : DurableStorage lengthHashes := started ieee 0 [] .standard true false
    let final := run (observe ieee) (unobserved start) writeSkew
    transactions final = [skewFirst, skewSecond] ∧
      ¬ Serializable (committedValues start) (transactions final) (committedValues final.store) := by
  intro start final
  have history : transactions final = [skewFirst, skewSecond] := by decide +kernel
  -- whichever comes second would have to read what the first one wrote
  have forward : (perform (committedValues start)
      ([skewFirst, skewSecond].flatMap Txn.accesses)).isSome = false := by decide +kernel
  have backward : (perform (committedValues start)
      ([skewSecond, skewFirst].flatMap Txn.accesses)).isSome = false := by decide +kernel
  refine ⟨history, ?_⟩
  rintro ⟨order, perm, explained⟩
  rw [history] at perm
  have orders : order = [skewFirst, skewSecond] ∨ order = [skewSecond, skewFirst] := by
    simpa [List.permutations] using List.mem_permutations.mpr perm
  rcases orders with rfl | rfl
  · rw [explained] at forward
    cases forward
  · rw [explained] at backward
    cases backward

end Serializability
