import SochDB.Library.KeyedMaps
import SochDB.BloomFilter

/-!
The transaction manager: active transactions with their snapshots and key sets, the
timestamp counter, the garbage-collection watermark and the serializability validator.
-/
namespace TxnManager
open KeyedMaps WalRecords BloomFilter List

inductive TransactionMode where
  | readOnly | writeOnly | readWrite
  deriving DecidableEq, Repr

namespace TransactionMode

def tracksReads : TransactionMode → Bool
  | readWrite => true
  | _ => false

def capacities : TransactionMode → Nat × Nat
  | readOnly => (0, 0)
  | writeOnly => (32, 0)
  | readWrite => (32, 64)

theorem bloom_capacity (mode : TransactionMode) :
    (SsiBloomFilter.new (max mode.capacities.1 1)).expectedCapacity = minCapacity ∧
      (SsiBloomFilter.new (max mode.capacities.2 1)).expectedCapacity = minCapacity := by
  cases mode <;> exact ⟨rfl, rfl⟩

end TransactionMode

/-- The keys and filters that a transaction hands to the validator. Each filter has
    seen every key of its set. -/
structure Footprint (H : KeyHashes) where
  readSet : List Bytes
  writeSet : List Bytes
  readBloom : SsiBloomFilter
  writeBloom : SsiBloomFilter
  read_covered : ∀ k ∈ readSet, readBloom.mayContain H k = true
  write_covered : ∀ k ∈ writeSet, writeBloom.mayContain H k = true
  read_capacity : readBloom.expectedCapacity = minCapacity
  write_capacity : writeBloom.expectedCapacity = minCapacity

namespace Footprint
variable {H : KeyHashes}

def new (mode : TransactionMode) : Footprint H where
  readSet := []
  writeSet := []
  readBloom := SsiBloomFilter.new (max mode.capacities.2 1)
  writeBloom := SsiBloomFilter.new (max mode.capacities.1 1)
  read_covered := by simp
  write_covered := by simp
  read_capacity := mode.bloom_capacity.2
  write_capacity := mode.bloom_capacity.1

def insertRead (f : Footprint H) (key : Bytes) : Footprint H :=
  { f with
    readSet := f.readSet.insert key
    readBloom := f.readBloom.insert H key
    read_covered := by
      intro k member
      rcases List.mem_insert_iff.mp member with rfl | old
      · exact f.readBloom.mayContain_insert H k
      · exact SsiBloomFilter.mayContain_insert_mono H key (f.read_covered k old)
    read_capacity := f.read_capacity }

def insertWrite (f : Footprint H) (key : Bytes) : Footprint H :=
  { f with
    writeSet := f.writeSet.insert key
    writeBloom := f.writeBloom.insert H key
    write_covered := by
      intro k member
      rcases List.mem_insert_iff.mp member with rfl | old
      · exact f.writeBloom.mayContain_insert H k
      · exact SsiBloomFilter.mayContain_insert_mono H key (f.write_covered k old)
    write_capacity := f.write_capacity }

end Footprint

structure MvccTransaction (H : KeyHashes) where
  txnId : Nat
  snapshotTs : Nat
  mode : TransactionMode
  footprint : Footprint H

namespace MvccTransaction
variable {H : KeyHashes}

def withMode (txnId snapshotTs : Nat) (mode : TransactionMode) : MvccTransaction H :=
  ⟨txnId, snapshotTs, mode, .new mode⟩

def readSet (txn : MvccTransaction H) : List Bytes := txn.footprint.readSet
def writeSet (txn : MvccTransaction H) : List Bytes := txn.footprint.writeSet

/-- Reads past the first ten thousand keys are not tracked. -/
def recordRead (txn : MvccTransaction H) (key : Bytes) : MvccTransaction H :=
  if !txn.mode.tracksReads then txn
  else if txn.readSet.length < 10000 then { txn with footprint := txn.footprint.insertRead key }
  else txn

def recordWrite (txn : MvccTransaction H) (key : Bytes) : MvccTransaction H :=
  { txn with footprint := txn.footprint.insertWrite key }

variable {txn : MvccTransaction H} {key k : Bytes}

theorem mem_recordWrite :
    k ∈ (txn.recordWrite key).writeSet ↔ k = key ∨ k ∈ txn.writeSet :=
  mem_insert_iff

theorem writeSet_recordRead (txn : MvccTransaction H) (key : Bytes) :
    (txn.recordRead key).writeSet = txn.writeSet := by
  unfold MvccTransaction.recordRead
  split
  · rfl
  · split <;> rfl

theorem mem_recordRead (mode : txn.mode = .readWrite) (room : txn.readSet.length < 10000) :
    k ∈ (txn.recordRead key).readSet ↔ k = key ∨ k ∈ txn.readSet := by
  have tracks : ¬ (!txn.mode.tracksReads) = true := by simp [mode, TransactionMode.tracksReads]
  rw [recordRead, if_neg tracks, if_pos room]
  exact mem_insert_iff

theorem recordRead_kept (txn : MvccTransaction H) (key : Bytes) :
    (txn.recordRead key).snapshotTs = txn.snapshotTs ∧ (txn.recordRead key).mode = txn.mode := by
  unfold recordRead
  split
  · exact ⟨rfl, rfl⟩
  · split <;> exact ⟨rfl, rfl⟩

end MvccTransaction

structure RecentCommit (H : KeyHashes) where
  commitTs : Nat
  footprint : Footprint H

structure MvccManager (H : KeyHashes) where
  activeTxns : Map Nat (MvccTransaction H)
  tsCounter : Nat
  minActiveTs : Nat
  recentCommits : Map Nat (RecentCommit H)

def maxRecentCommits : Nat := 1000

namespace MvccManager
variable {H : KeyHashes} (m : MvccManager H)

def new : MvccManager H := ⟨∅, 1, 0, ∅⟩

def updateMinActiveTs : MvccManager H :=
  let min := ((pairs m.activeTxns).map fun entry => entry.2.snapshotTs).min?
  { m with minActiveTs := min.getD m.tsCounter }

def beginWithMode (txnId : Nat) (mode : TransactionMode) : MvccManager H :=
  let txn := MvccTransaction.withMode txnId m.tsCounter mode
  { m with activeTxns := m.activeTxns.insert txnId txn }.updateMinActiveTs

def getSnapshotTs (txnId : Nat) : Option Nat :=
  (get m.activeTxns txnId).map MvccTransaction.snapshotTs

def recordRead (txnId : Nat) (key : Bytes) : MvccManager H :=
  { m with activeTxns := adjust m.activeTxns txnId (·.recordRead key) }

def recordWrite (txnId : Nat) (key : Bytes) : MvccManager H :=
  { m with activeTxns := adjust m.activeTxns txnId (·.recordWrite key) }

def allocCommitTs : Nat × MvccManager H := (m.tsCounter, { m with tsCounter := m.tsCounter + 1 })

def concurrentCommits (txn : MvccTransaction H) : List (Nat × RecentCommit H) :=
  (pairs m.recentCommits).filter fun other => !(other.2.commitTs < txn.snapshotTs)

/-- A commit of a key that this transaction read. -/
def hasInConflict (txn : MvccTransaction H) (other : RecentCommit H) : Bool :=
  txn.readSet.any fun key =>
    other.footprint.writeBloom.mayContain H key && other.footprint.writeSet.contains key

/-- A read of a key that this transaction wrote. -/
def hasOutConflict (txn : MvccTransaction H) (other : RecentCommit H) : Bool :=
  other.footprint.readSet.any fun key =>
    txn.footprint.writeBloom.mayContain H key && txn.writeSet.contains key

def validateSsi (txn : MvccTransaction H) : Bool :=
  if txn.writeSet.isEmpty then true
  else if (pairs m.recentCommits).isEmpty then true
  else if txn.writeSet.length = 1 ∧ txn.readSet.length ≤ 1 then true
  else
    let others := m.concurrentCommits txn
    let anyMayIntersect := others.any fun other =>
      txn.footprint.writeBloom.mayIntersect other.2.footprint.readBloom ||
        other.2.footprint.writeBloom.mayIntersect txn.footprint.readBloom
    if !anyMayIntersect then true
    else
      let inConflictWith := (others.filter fun other => hasInConflict txn other.2).map Prod.fst
      let outConflictTo := (others.filter fun other => hasOutConflict txn other.2).map Prod.fst
      !(!inConflictWith.isEmpty && !outConflictTo.isEmpty)

/-- Old entries are dropped only when there are more than twice as many as wanted. -/
def trackCommitOwned (txnId commitTs : Nat) (footprint : Footprint H) : MvccManager H :=
  if footprint.readSet.isEmpty || footprint.writeSet.isEmpty then m
  else
    let recent := m.recentCommits.insert txnId ⟨commitTs, footprint⟩
    if (pairs recent).length > maxRecentCommits * 2 then
      { m with recentCommits := retain (fun _ c => c.commitTs ≥ m.minActiveTs) recent }
    else { m with recentCommits := recent }

def removeActive (txnId : Nat) : MvccManager H := { m with activeTxns := m.activeTxns.erase txnId }

/-- The commit timestamp and the write set, or nothing when the transaction is unknown
    or fails validation. -/
def commit (txnId : Nat) : MvccManager H × Option (Nat × List Bytes) :=
  match get m.activeTxns txnId with
  | none => (m, none)
  | some txn =>
    if txn.mode = .readWrite && !m.validateSsi txn then
      ((m.removeActive txnId).updateMinActiveTs, none)
    else
      let (commitTs, m) := m.allocCommitTs
      let m := m.removeActive txnId
      let needsSsiTracking := txn.mode = .readWrite && !txn.readSet.isEmpty && !txn.writeSet.isEmpty
      let m := if needsSsiTracking then m.trackCommitOwned txnId commitTs txn.footprint else m
      (m.updateMinActiveTs, some (commitTs, txn.writeSet))

def abort (txnId : Nat) : MvccManager H := (m.removeActive txnId).updateMinActiveTs

def minActiveSnapshot : Nat := m.minActiveTs

def active (txnId : Nat) : Option (MvccTransaction H) := get m.activeTxns txnId

def refuses (txn : MvccTransaction H) : Bool := txn.mode = .readWrite && !m.validateSsi txn

@[simp] theorem active_new (txnId : Nat) : (new : MvccManager H).active txnId = none :=
  get_empty txnId

@[simp] theorem active_updateMinActiveTs (txnId : Nat) :
    m.updateMinActiveTs.active txnId = m.active txnId := rfl

theorem active_beginWithMode (txnId : Nat) (mode : TransactionMode) (other : Nat) :
    (m.beginWithMode txnId mode).active other =
      if other = txnId then some (.withMode txnId m.tsCounter mode) else m.active other :=
  get_insert m.activeTxns txnId other _

theorem active_recordRead (txnId : Nat) (key : Bytes) (other : Nat) :
    (m.recordRead txnId key).active other =
      if other = txnId then (m.active txnId).map (·.recordRead key) else m.active other :=
  get_adjust m.activeTxns txnId other _

theorem active_recordWrite (txnId : Nat) (key : Bytes) (other : Nat) :
    (m.recordWrite txnId key).active other =
      if other = txnId then (m.active txnId).map (·.recordWrite key) else m.active other :=
  get_adjust m.activeTxns txnId other _

theorem active_removeActive (txnId other : Nat) :
    (m.removeActive txnId).active other = if other = txnId then none else m.active other :=
  get_erase m.activeTxns txnId other

theorem active_abort (txnId other : Nat) :
    (m.abort txnId).active other = if other = txnId then none else m.active other :=
  active_removeActive m txnId other

@[simp] theorem active_trackCommitOwned (txnId commitTs : Nat) (footprint : Footprint H) (other : Nat) :
    (m.trackCommitOwned txnId commitTs footprint).active other = m.active other := by
  unfold trackCommitOwned
  split
  · rfl
  · simp only
    split <;> rfl

@[simp] theorem tsCounter_trackCommitOwned (txnId commitTs : Nat) (footprint : Footprint H) :
    (m.trackCommitOwned txnId commitTs footprint).tsCounter = m.tsCounter := by
  unfold trackCommitOwned
  split
  · rfl
  · simp only
    split <;> rfl

variable {m}

theorem commit_unknown {txnId : Nat} (unknown : m.active txnId = none) : m.commit txnId = (m, none) := by
  unfold active at unknown
  simp only [commit, unknown]

theorem commit_refused {txnId : Nat} {txn : MvccTransaction H} (found : m.active txnId = some txn)
    (refused : m.refuses txn = true) :
    m.commit txnId = ((m.removeActive txnId).updateMinActiveTs, none) := by
  unfold active at found
  unfold refuses at refused
  simp only [commit, found, refused, if_true]

theorem commit_accepted {txnId : Nat} {txn : MvccTransaction H} (found : m.active txnId = some txn)
    (accepted : m.refuses txn = false) :
    (m.commit txnId).2 = some (m.tsCounter, txn.writeSet) ∧
      (m.commit txnId).1.tsCounter = m.tsCounter + 1 ∧
      ∀ other, (m.commit txnId).1.active other = if other = txnId then none else m.active other := by
  unfold active at found
  unfold refuses at accepted
  simp only [commit, found, accepted, Bool.false_eq_true, if_false, allocCommitTs]
  refine ⟨trivial, ?_, fun other => ?_⟩
  · split
    · exact tsCounter_trackCommitOwned _ _ _ _
    · rfl
  · rw [active_updateMinActiveTs]
    split
    · rw [active_trackCommitOwned]
      exact active_removeActive _ _ _
    · exact active_removeActive _ _ _

theorem active_commit (m : MvccManager H) (txnId other : Nat) :
    (m.commit txnId).1.active other = if other = txnId then none else m.active other := by
  cases found : m.active txnId with
  | none =>
    rw [commit_unknown found]
    split
    · rename_i same
      rw [same, found]
    · rfl
  | some txn =>
    cases verdict : m.refuses txn with
    | true =>
      rw [commit_refused found verdict]
      exact active_removeActive m txnId other
    | false => exact (commit_accepted found verdict).2.2 other

section Validation
variable (m)

theorem watermark_le {txnId : Nat} {txn : MvccTransaction H} (found : m.active txnId = some txn) :
    m.updateMinActiveTs.minActiveTs ≤ txn.snapshotTs := by
  have member : txn.snapshotTs ∈ (pairs m.activeTxns).map fun entry => entry.2.snapshotTs :=
    mem_map.mpr ⟨(txnId, txn), mem_pairs.mpr found, rfl⟩
  unfold updateMinActiveTs
  cases least : ((pairs m.activeTxns).map fun entry => entry.2.snapshotTs).min? with
  | none => simp [List.min?_eq_none_iff.mp least] at member
  | some min => exact (List.min?_eq_some_iff.mp least).2 _ member

theorem watermark_le_counter (stamps : ∀ txnId txn, m.active txnId = some txn →
    txn.snapshotTs ≤ m.tsCounter) : m.updateMinActiveTs.minActiveTs ≤ m.tsCounter := by
  unfold updateMinActiveTs
  cases least : ((pairs m.activeTxns).map fun entry => entry.2.snapshotTs).min? with
  | none => exact Nat.le_refl _
  | some min =>
    obtain ⟨⟨txnId, txn⟩, member, rfl⟩ := mem_map.mp (List.min?_eq_some_iff.mp least).1
    exact stamps txnId txn (mem_pairs.mp member)

@[simp] theorem minActiveTs_trackCommitOwned (txnId commitTs : Nat) (footprint : Footprint H) :
    (m.trackCommitOwned txnId commitTs footprint).minActiveTs = m.minActiveTs := by
  unfold trackCommitOwned
  split
  · rfl
  · simp only
    split <;> rfl

theorem watermark_commit (txnId : Nat) {other : Nat} {txn : MvccTransaction H}
    (before : ∀ txn, m.active other = some txn → m.minActiveTs ≤ txn.snapshotTs)
    (running : (m.commit txnId).1.active other = some txn) :
    (m.commit txnId).1.minActiveTs ≤ txn.snapshotTs := by
  unfold commit at running ⊢
  cases found : get m.activeTxns txnId with
  | none =>
    rw [found] at running
    exact before txn running
  | some ending =>
    rw [found] at running
    simp only at running ⊢
    split at running
    · rename_i refused
      rw [if_pos refused]
      exact watermark_le _ running
    · rename_i accepted
      rw [if_neg accepted]
      exact watermark_le _ running

variable {j : Nat} {entry : RecentCommit H}

theorem recent_track (txnId commitTs : Nat) (footprint : Footprint H)
    (kept : get m.recentCommits j = some entry) (different : j ≠ txnId)
    (recent : m.minActiveTs ≤ entry.commitTs) :
    get (m.trackCommitOwned txnId commitTs footprint).recentCommits j = some entry := by
  have inserted : get (m.recentCommits.insert txnId ⟨commitTs, footprint⟩) j = some entry := by
    rw [get_insert, if_neg different, kept]
  unfold trackCommitOwned
  split
  · exact kept
  · simp only
    split
    · rw [get_retain, inserted]
      simp [Option.filter, recent]
    · exact inserted

theorem recent_tracked (txnId commitTs : Nat) {footprint : Footprint H} (reads : footprint.readSet ≠ [])
    (writes : footprint.writeSet ≠ []) (recent : m.minActiveTs ≤ commitTs) :
    get (m.trackCommitOwned txnId commitTs footprint).recentCommits txnId =
      some ⟨commitTs, footprint⟩ := by
  have inserted : get (m.recentCommits.insert txnId ⟨commitTs, footprint⟩) txnId =
      some ⟨commitTs, footprint⟩ := by
    rw [get_insert, if_pos rfl]
  unfold trackCommitOwned
  rw [if_neg (by simp [reads, writes])]
  simp only
  split
  · rw [get_retain, inserted]
    simp [Option.filter, recent]
  · exact inserted

variable {m} {txnId : Nat} {txn : MvccTransaction H}

theorem recent_commit (kept : get m.recentCommits j = some entry) (ended : m.active j = none)
    (recent : m.minActiveTs ≤ entry.commitTs) :
    get (m.commit txnId).1.recentCommits j = some entry := by
  unfold commit
  cases found : get m.activeTxns txnId with
  | none => exact kept
  | some txn =>
    have different : j ≠ txnId := by
      rintro rfl
      exact absurd (ended.symm.trans found) (by simp)
    simp only
    split
    · exact kept
    · split
      · exact recent_track _ txnId _ _ kept different recent
      · exact kept

theorem recent_commit_self (found : m.active txnId = some txn) (accepted : m.refuses txn = false)
    (mode : txn.mode = .readWrite) (reads : txn.readSet ≠ []) (writes : txn.writeSet ≠ [])
    (past : m.minActiveTs ≤ m.tsCounter) :
    get (m.commit txnId).1.recentCommits txnId = some ⟨m.tsCounter, txn.footprint⟩ := by
  unfold active at found
  unfold refuses at accepted
  have tracked : (decide (txn.mode = .readWrite) && !txn.readSet.isEmpty && !txn.writeSet.isEmpty) =
      true := by simp [mode, reads, writes]
  simp only [commit, found, accepted, Bool.false_eq_true, if_false, allocCommitTs, tracked, if_true]
  exact recent_tracked _ txnId m.tsCounter reads writes past

theorem validateSsi_rejects {i : Nat} {reader writer : RecentCommit H} {read written : Bytes}
    (readerKept : get m.recentCommits i = some reader) (writerKept : get m.recentCommits j = some writer)
    (readerConcurrent : txn.snapshotTs ≤ reader.commitTs)
    (writerConcurrent : txn.snapshotTs ≤ writer.commitTs) (missed : read ∈ txn.readSet)
    (overwritten : read ∈ writer.footprint.writeSet) (wrote : written ∈ txn.writeSet)
    (wasRead : written ∈ reader.footprint.readSet)
    (several : ¬ (txn.writeSet.length = 1 ∧ txn.readSet.length ≤ 1)) : m.validateSsi txn = false := by
  have inReader : (i, reader) ∈ m.concurrentCommits txn :=
    mem_filter.mpr ⟨mem_pairs.mpr readerKept, by simpa using readerConcurrent⟩
  have inWriter : (j, writer) ∈ m.concurrentCommits txn :=
    mem_filter.mpr ⟨mem_pairs.mpr writerKept, by simpa using writerConcurrent⟩
  have someRecent : (pairs m.recentCommits).isEmpty = false := by
    rw [isEmpty_eq_false_iff_exists_mem]
    exact ⟨_, mem_pairs.mpr writerKept⟩
  have someWrite : txn.writeSet.isEmpty = false := by
    rw [isEmpty_eq_false_iff_exists_mem]
    exact ⟨written, wrote⟩
  have conflictIn : hasInConflict txn writer = true := by
    refine any_eq_true.mpr ⟨read, missed, ?_⟩
    simp [writer.footprint.write_covered read overwritten, overwritten]
  have conflictOut : hasOutConflict txn reader = true := by
    refine any_eq_true.mpr ⟨written, wasRead, ?_⟩
    simp [txn.footprint.write_covered written wrote, wrote]
  have filters : ((m.concurrentCommits txn).any fun other =>
      txn.footprint.writeBloom.mayIntersect other.2.footprint.readBloom ||
        other.2.footprint.writeBloom.mayIntersect txn.footprint.readBloom) = true := by
    refine any_eq_true.mpr ⟨(j, writer), inWriter, Bool.or_eq_true_iff.mpr (Or.inr ?_)⟩
    refine SsiBloomFilter.mayIntersect_of_common H ?_
      (writer.footprint.write_covered read overwritten) (txn.footprint.read_covered read missed)
    rw [writer.footprint.write_capacity, txn.footprint.read_capacity]
  have someIn : (((m.concurrentCommits txn).filter fun other => hasInConflict txn other.2).map
      Prod.fst).isEmpty = false := by
    rw [isEmpty_eq_false_iff_exists_mem]
    exact ⟨j, mem_map.mpr ⟨(j, writer), mem_filter.mpr ⟨inWriter, conflictIn⟩, rfl⟩⟩
  have someOut : (((m.concurrentCommits txn).filter fun other => hasOutConflict txn other.2).map
      Prod.fst).isEmpty = false := by
    rw [isEmpty_eq_false_iff_exists_mem]
    exact ⟨i, mem_map.mpr ⟨(i, reader), mem_filter.mpr ⟨inReader, conflictOut⟩, rfl⟩⟩
  simp only [validateSsi, someWrite, someRecent, if_neg several, filters, someIn, someOut,
    Bool.false_eq_true, if_false, Bool.not_true, Bool.not_false, Bool.and_true]

end Validation
end MvccManager
end TxnManager
