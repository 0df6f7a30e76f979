import SochDB.TxnManager

/-!
The verdict of the serializability validator read off the key sets alone. The filters
only save work: a key in both of two sets passes every filter that stands before the
comparison of the sets.
-/
namespace BloomVerdicts
open KeyedMaps BloomFilter TxnManager MvccManager List

variable {H : KeyHashes} (m : MvccManager H) (txn : MvccTransaction H)

/-- A tracked commit that the snapshot of the transaction does not show. -/
def Concurrent (other : RecentCommit H) : Prop :=
  ∃ txnId, get m.recentCommits txnId = some other ∧ txn.snapshotTs ≤ other.commitTs

/-- The other transaction committed a key that this one read. -/
def OverwroteRead (other : RecentCommit H) : Prop :=
  ∃ key ∈ txn.readSet, key ∈ other.footprint.writeSet

/-- The other transaction read a key that this one is about to commit. -/
def ReadOverwritten (other : RecentCommit H) : Prop :=
  ∃ key ∈ txn.writeSet, key ∈ other.footprint.readSet

variable {m txn}

theorem overwroteRead_of_hasInConflict {other : RecentCommit H}
    (conflict : hasInConflict txn other = true) : OverwroteRead txn other := by
  obtain ⟨key, read, both⟩ := any_eq_true.mp conflict
  rw [Bool.and_eq_true, contains_iff_mem] at both
  exact ⟨key, read, both.2⟩

theorem readOverwritten_of_hasOutConflict {other : RecentCommit H}
    (conflict : hasOutConflict txn other = true) : ReadOverwritten txn other := by
  obtain ⟨key, read, both⟩ := any_eq_true.mp conflict
  rw [Bool.and_eq_true, contains_iff_mem] at both
  exact ⟨key, both.2, read⟩

theorem concurrent_of_mem {entry : Nat × RecentCommit H} (listed : entry ∈ m.concurrentCommits txn) :
    Concurrent m txn entry.2 := by
  obtain ⟨tracked, after⟩ := mem_filter.mp listed
  refine ⟨entry.1, mem_pairs.mp tracked, ?_⟩
  simpa using after

theorem exists_of_ids {test : RecentCommit H → Bool}
    (found : (!(((m.concurrentCommits txn).filter fun other => test other.2).map
      Prod.fst).isEmpty) = true) : ∃ other, Concurrent m txn other ∧ test other = true := by
  rw [Bool.not_eq_true', isEmpty_eq_false_iff_exists_mem] at found
  obtain ⟨_, listed⟩ := found
  obtain ⟨entry, kept, _⟩ := mem_map.mp listed
  obtain ⟨among, passes⟩ := mem_filter.mp kept
  exact ⟨entry.2, concurrent_of_mem among, passes⟩

theorem conflicts_of_rejected (rejected : m.validateSsi txn = false) :
    (∃ other, Concurrent m txn other ∧ OverwroteRead txn other) ∧
      ∃ other, Concurrent m txn other ∧ ReadOverwritten txn other := by
  unfold validateSsi at rejected
  split at rejected
  · cases rejected
  split at rejected
  · cases rejected
  split at rejected
  · cases rejected
  simp only at rejected
  split at rejected
  · cases rejected
  rw [Bool.not_eq_false', Bool.and_eq_true] at rejected
  obtain ⟨writer, writerConcurrent, inConflict⟩ := exists_of_ids rejected.1
  obtain ⟨reader, readerConcurrent, outConflict⟩ := exists_of_ids rejected.2
  exact ⟨⟨writer, writerConcurrent, overwroteRead_of_hasInConflict inConflict⟩,
    ⟨reader, readerConcurrent, readOverwritten_of_hasOutConflict outConflict⟩⟩

/-- Past the fast path of single keys the validator refuses a transaction exactly when it
    read a key that a concurrent commit wrote and writes a key that a concurrent commit
    read, and every such key passes the filters, whatever the hash functions are. -/
theorem verdict_of_key_sets (m : MvccManager H) (txn : MvccTransaction H)
    (several : ¬ (txn.writeSet.length = 1 ∧ txn.readSet.length ≤ 1)) :
    (m.validateSsi txn = false ↔
      (∃ other, Concurrent m txn other ∧ OverwroteRead txn other) ∧
        ∃ other, Concurrent m txn other ∧ ReadOverwritten txn other) ∧
    (∀ other, Concurrent m txn other → ∀ key ∈ txn.readSet, key ∈ other.footprint.writeSet →
      other.footprint.writeBloom.mayContain H key = true ∧
        other.footprint.writeBloom.mayIntersect txn.footprint.readBloom = true) ∧
    (∀ other, Concurrent m txn other → ∀ key ∈ txn.writeSet, key ∈ other.footprint.readSet →
      txn.footprint.writeBloom.mayContain H key = true ∧
        txn.footprint.writeBloom.mayIntersect other.footprint.readBloom = true) := by
  refine ⟨⟨conflicts_of_rejected, ?_⟩, ?_, ?_⟩
  · intro ⟨⟨writer, ⟨_, writerKept, writerAfter⟩, read, missed, overwritten⟩,
      ⟨reader, ⟨_, readerKept, readerAfter⟩, written, wrote, wasRead⟩⟩
    exact validateSsi_rejects readerKept writerKept readerAfter writerAfter missed overwritten
      wrote wasRead several
  · intro other _ key read written
    have inWrites := other.footprint.write_covered key written
    have inReads := txn.footprint.read_covered key read
    have capacity := other.footprint.write_capacity.trans txn.footprint.read_capacity.symm
    exact ⟨inWrites, SsiBloomFilter.mayIntersect_of_common H capacity inWrites inReads⟩
  · intro other _ key written read
    have inWrites := txn.footprint.write_covered key written
    have inReads := other.footprint.read_covered key read
    have capacity := txn.footprint.write_capacity.trans other.footprint.read_capacity.symm
    exact ⟨inWrites, SsiBloomFilter.mayIntersect_of_common H capacity inWrites inReads⟩

theorem crossing_commit_refused :
    let start : MvccManager lengthHashes := MvccManager.new.beginWithMode 1 .readWrite
    let m := ((start.recordRead 1 [3, 3, 3]).recordWrite 1 [1]).commit 1 |>.1
    let txn : MvccTransaction lengthHashes :=
      (((MvccTransaction.withMode 2 1 .readWrite).recordRead [1]).recordRead [2, 2]).recordWrite
        [3, 3, 3]
    ¬ (txn.writeSet.length = 1 ∧ txn.readSet.length ≤ 1) ∧
      (∃ other, Concurrent m txn other ∧ OverwroteRead txn other) ∧
      ∃ other, Concurrent m txn other ∧ ReadOverwritten txn other := by
  intro start m txn
  have several : ¬ (txn.writeSet.length = 1 ∧ txn.readSet.length ≤ 1) := by decide
  have refused : m.validateSsi txn = false := by decide +kernel
  exact ⟨several, (verdict_of_key_sets m txn several).1.mp refused⟩

end BloomVerdicts
