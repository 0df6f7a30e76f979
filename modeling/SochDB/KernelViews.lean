import SochDB.DatabaseKernel
import SochDB.Recovery
import SochDB.Scans

/-!
What the users of a store can see: the newest committed value of a key, and the value that
a running transaction reads there. The states that a store can be in keep a few facts that
make these views simple, and every call is stated by what it does to them.
-/
namespace KernelViews
open KeyedMaps WalRecords WriteAheadLog TxnManager BloomFilter VersionChains MemTables ChainView Scans Option
open StorageEngine EngineSteps Recovery

section Stores
variable {H : KeyHashes} (crc : Crc32fast)

def Careful (s : DurableStorage H) (op : Op) : Prop :=
  ∀ call, writeCall op = some call → (active s call.txnId).isSome

inductive Reachable : DurableStorage H → Prop where
  | start (ourPid : UInt32) (file : Bytes) (kind : MemTableType) (enableOrderedIndex recovers : Bool) :
    Reachable (started crc ourPid file kind enableOrderedIndex recovers)
  | step {s : DurableStorage H} {op : Op} (reached : Reachable s) (careful : Careful s op) :
    Reachable (step crc s op)

structure Orderly (s : DurableStorage H) : Prop where
  stamps_past : ∀ key, ∀ v ∈ (chainsOf s key).committed, v.commitTs < s.mvcc.tsCounter
  actives_issued : ∀ txnId txn, active s txnId = some txn →
    txnId < s.wal.nextTxnId ∧ txn.snapshotTs ≤ s.mvcc.tsCounter
  holders_issued : ∀ key txnId, holder s key = some txnId → txnId < s.wal.nextTxnId
  holders_recorded : ∀ key txnId txn, holder s key = some txnId → active s txnId = some txn →
    key ∈ txn.writeSet
  indexed : Indexed s.memtable

theorem indexed_applyWrites {table : MemTableKind} (indexed : Indexed table) (txnId : Nat)
    (writeSet : List Bytes) (writes : List Write) :
    Indexed (DurableStorage.applyWrites table txnId writeSet writes).1 := by
  induction writes generalizing table writeSet with
  | nil => exact indexed
  | cons w writes ih =>
    have written := indexed_write indexed w.1 (some w.2) txnId
    rcases outcome : table.write w.1 (some w.2) txnId with ⟨next, _ | _⟩
    · rw [outcome] at written
      simpa only [DurableStorage.applyWrites, outcome] using written
    · rw [outcome] at written
      simpa only [DurableStorage.applyWrites, outcome] using ih written (writeSet.insert w.1)

variable (ourPid : UInt32) (file : Bytes)

theorem indexed_started (kind : MemTableType) (enableOrderedIndex recovers : Bool) :
    Indexed (started crc ourPid file kind enableOrderedIndex recovers : DurableStorage H).memtable := by
  have opened := indexed_new kind enableOrderedIndex
  cases recovers with
  | false => exact opened
  | true =>
    have applied := fun txnId writes => indexed_applyWrites opened txnId [] writes
    simp only [started, if_true, DurableStorage.recover, DurableStorage.openWith, Bool.not_true,
      Bool.false_eq_true, if_false]
    split
    · rename_i outcome
      exact (congrArg (fun result => Indexed result.1) outcome).mp (applied _ _)
    · rename_i outcome
      apply indexed_commit
      exact (congrArg (fun result => Indexed result.1) outcome).mp (applied _ _)

theorem Orderly.start (kind : MemTableType) (enableOrderedIndex recovers : Bool) :
    Orderly (started crc ourPid file kind enableOrderedIndex recovers : DurableStorage H) := by
  have fresh := started_fresh (H := H) crc ourPid file kind enableOrderedIndex recovers
  have free : ∀ key, holder (started crc ourPid file kind enableOrderedIndex recovers : DurableStorage H) key =
      none := by
    intro key
    rw [holder, VersionChain.owner, fresh.slots_free key]
    rfl
  constructor
  · exact fresh.stamps_past
  · intro txnId txn found
    rw [fresh.none_active txnId] at found
    cases found
  · intro key txnId held
    rw [free key] at held
    cases held
  · intro key txnId txn held
    rw [free key] at held
    cases held
  · exact indexed_started crc ourPid file kind enableOrderedIndex recovers

variable {s : DurableStorage H}

theorem indexed_step (indexed : Indexed s.memtable) (op : Op) : Indexed (step crc s op).memtable := by
  cases op with
  | beginWithMode | beginReadOnlyFast | abortReadOnlyFast => exact indexed
  | read txnId key =>
    show Indexed (s.read txnId key).1.memtable
    rw [read_rest]
    exact indexed
  | writeRefs txnId now key | delete txnId now key => exact indexed_write indexed key _ txnId
  | writeBatchRefs txnId writes =>
    show Indexed (s.writeBatchRefs crc txnId writes).1.memtable
    unfold DurableStorage.writeBatchRefs
    split
    · exact indexed
    · have kept : (logAll crc s txnId writes).memtable = s.memtable := (logAll_rest crc s txnId writes).1
      apply indexed_writeBatch
      rw [show (writes.foldl (fun s w => s.logWrite crc txnId w.1 w.2.1 w.2.2) s).memtable = s.memtable
        from kept]
      exact indexed
  | commit txnId shouldSync now =>
    show Indexed (s.commit crc txnId shouldSync now).1.memtable
    cases verdict : commits s txnId with
    | false =>
      rw [commit_failed crc s verdict]
      exact indexed
    | true =>
      obtain ⟨txn, found, accepted⟩ := commits_iff.mp verdict
      rw [commit_succeeded crc s found accepted]
      exact indexed_commit indexed _ _ _
  | abort txnId now =>
    show Indexed (s.abort crc txnId now).memtable
    simp only [DurableStorage.abort]
    split
    · exact indexed_abort indexed txnId
    · exact indexed
  | gc => exact indexed_gc indexed _

/-- An operation of the store, or a scan, which may compact the index. -/
inductive Access where
  | op (op : Op)
  | scan (txnId : Nat) (pre : Bytes)

def access (s : DurableStorage H) : Access → DurableStorage H
  | .op op => step crc s op
  | .scan txnId pre => (s.scan txnId pre).1

theorem indexed_access {s : DurableStorage H} (indexed : Indexed s.memtable) (a : Access) :
    Indexed (access crc s a).memtable := by
  cases a with
  | op op => exact indexed_step crc indexed op
  | scan txnId pre =>
    simp only [access, DurableStorage.scan]
    split
    · exact indexed
    · exact indexed_scanPrefix pre _ _ indexed

theorem commit_or_quiet (op : Op) :
    (∃ txnId shouldSync now, op = .commit txnId shouldSync now) ∨
      ∀ txnId shouldSync now, op ≠ .commit txnId shouldSync now := by
  cases op with
  | commit txnId shouldSync now => exact .inl ⟨txnId, shouldSync, now, rfl⟩
  | _ => exact .inr fun _ _ _ same => by cases same

theorem stamps_step (orderly : Orderly s) (op : Op) (key : Bytes) (v : Version)
    (member : v ∈ (chainsOf (step crc s op) key).committed) :
    v.commitTs < (step crc s op).mvcc.tsCounter := by
  rcases commit_or_quiet op with ⟨txnId, shouldSync, now, rfl⟩ | quiet
  · have counter : (step crc s (.commit txnId shouldSync now)).mvcc.tsCounter = _ :=
      tsCounter_commit crc s txnId shouldSync now
    rw [counter]
    rcases mem_committed_commit crc s member with old | ⟨txn, found, accepted, stamp, _⟩
    · have := orderly.stamps_past key v old
      split <;> omega
    · rw [if_pos (commits_iff.mpr ⟨txn, found, accepted⟩)]
      omega
  · rw [tsCounter_quiet crc s quiet]
    exact orderly.stamps_past key v ((committed_quiet crc s quiet key).1.subset member)

theorem counters_grow (s : DurableStorage H) (op : Op) :
    s.mvcc.tsCounter ≤ (step crc s op).mvcc.tsCounter ∧ s.wal.nextTxnId ≤ (step crc s op).wal.nextTxnId := by
  constructor
  · rcases commit_or_quiet op with ⟨txnId, shouldSync, now, rfl⟩ | quiet
    · have counter : (step crc s (.commit txnId shouldSync now)).mvcc.tsCounter = _ :=
        tsCounter_commit crc s txnId shouldSync now
      rw [counter]
      split <;> omega
    · exact Nat.le_of_eq (tsCounter_quiet crc s quiet).symm
  · rw [nextTxnId_step]
    split <;> omega

theorem writer_of_writesOf {op : Op} {txnId : Nat} {key : Bytes} (member : key ∈ writesOf op txnId) :
    ∃ call, writeCall op = some call ∧ call.txnId = txnId := by
  cases op with
  | writeRefs | delete | writeBatchRefs =>
    simp only [writesOf] at member
    split at member
    · rename_i same
      exact ⟨_, rfl, same⟩
    · cases member
  | _ => cases member

theorem Orderly.step (orderly : Orderly s) {op : Op} (careful : Careful s op) :
    Orderly (StorageEngine.step crc s op) := by
  have grow := counters_grow crc s op
  have next := nextTxnId_step crc s op
  have issued : ∀ key txnId, holder (StorageEngine.step crc s op) key = some txnId →
      txnId < s.wal.nextTxnId := by
    intro key txnId held
    rcases holder_of_step crc s held with before | ⟨written, _⟩
    · exact orderly.holders_issued key txnId before
    · obtain ⟨call, isCall, rfl⟩ := writer_of_writesOf written
      obtain ⟨txn, found⟩ := isSome_iff_exists.mp (careful call isCall)
      exact (orderly.actives_issued _ txn found).1
  constructor
  · exact stamps_step crc orderly op
  · intro txnId txn running
    rcases active_of_step crc s running with ⟨before, found, continues⟩ | ⟨beginning, rfl, stamp, _⟩
    · have := orderly.actives_issued txnId before found
      have := continues.snapshotTs
      omega
    · rw [if_pos beginning] at next
      omega
  · intro key txnId held
    have := issued key txnId held
    omega
  · intro key txnId txn held running
    rcases active_of_step crc s running with ⟨before, found, continues⟩ | ⟨_, rfl, _, _⟩
    · apply (continues.writeSet key).mpr
      rcases holder_of_step crc s held with earlier | ⟨written, _⟩
      · exact Or.inl (orderly.holders_recorded key txnId before earlier found)
      · exact Or.inr written
    · have := issued key _ held
      omega
  · exact indexed_step crc orderly.indexed op

theorem Reachable.orderly (reached : Reachable crc s) : Orderly s := by
  induction reached with
  | start ourPid file kind enableOrderedIndex recovers =>
    exact Orderly.start crc ourPid file kind enableOrderedIndex recovers
  | step _ careful ih => exact ih.step crc careful

end Stores

section Views
variable {H : KeyHashes} (crc : Crc32fast)

/-- What a running transaction reads at a key: its own write, or its snapshot. -/
def seen (s : DurableStorage H) (txnId : Nat) (key : Bytes) : Option Bytes :=
  (active s txnId).bind fun txn =>
    ((chainsOf s key).own txnId).getD ((chainsOf s key).snapshotValue txn.snapshotTs)

def shown (s : DurableStorage H) (txnId : Nat) : List Pair :=
  match active s txnId with
  | some txn => entries s.memtable txn.snapshotTs (some txnId)
  | none => []

variable {s : DurableStorage H}

theorem Orderly.own_next (orderly : Orderly s) (key : Bytes) : (chainsOf s key).own s.wal.nextTxnId = none := by
  cases mine : (chainsOf s key).own s.wal.nextTxnId with
  | none => rfl
  | some value =>
    have held : (chainsOf s key).owner = some s.wal.nextTxnId :=
      VersionChain.own_isSome.mp (by rw [mine]; rfl)
    exact absurd (orderly.holders_issued key _ held) (Nat.lt_irrefl _)

theorem Orderly.snapshot_newest (orderly : Orderly s) (key : Bytes) :
    (chainsOf s key).snapshotValue s.mvcc.tsCounter = committedValues s key :=
  VersionChain.snapshotValue_of_past (orderly.stamps_past key)

variable {txnId : Nat} {txn : MvccTransaction H}

theorem seen_of_active (found : active s txnId = some txn) (key : Bytes) :
    seen s txnId key = ((chainsOf s key).own txnId).getD ((chainsOf s key).snapshotValue txn.snapshotTs) := by
  rw [seen, found, bind_some]

theorem Orderly.mem_shown (orderly : Orderly s) {key value : Bytes} :
    (key, value) ∈ shown s txnId ↔ seen s txnId key = some value := by
  unfold shown seen
  cases found : active s txnId with
  | none => simp
  | some txn =>
    rw [mem_entries orderly.indexed, read_eq, readVersion, VersionChain.readAt_value]
    rfl

theorem scan_shown (found : active s txnId = some txn) (pre : Bytes) :
    (s.scan txnId pre).2 = .ok ((shown s txnId).filter fun pair => pre.isPrefixOf pair.1) := by
  have stamp : s.mvcc.getSnapshotTs txnId = some txn.snapshotTs := by
    show (active s txnId).map MvccTransaction.snapshotTs = _
    rw [found]
    rfl
  simp only [DurableStorage.scan, stamp, shown, found, scanPrefix_eq]

theorem active_begun (s : DurableStorage H) (mode : TransactionMode) (now : UInt64) (other : Nat) :
    active (s.beginWithMode crc mode now).1 other = if other = s.wal.nextTxnId then
      some (.withMode s.wal.nextTxnId s.mvcc.tsCounter mode) else active s other :=
  s.mvcc.active_beginWithMode s.wal.nextTxnId mode other

theorem active_begunFast (s : DurableStorage H) (other : Nat) :
    active s.beginReadOnlyFast.1 other = if other = s.wal.nextTxnId then
      some (.withMode s.wal.nextTxnId s.mvcc.tsCounter .readOnly) else active s other :=
  s.mvcc.active_beginWithMode s.wal.nextTxnId .readOnly other

theorem Orderly.seen_begunFast (orderly : Orderly s) (key : Bytes) :
    seen s.beginReadOnlyFast.1 s.wal.nextTxnId key = committedValues s key := by
  have found := active_begunFast s s.wal.nextTxnId
  rw [if_pos rfl] at found
  rw [seen_of_active found]
  show ((chainsOf s key).own s.wal.nextTxnId).getD ((chainsOf s key).snapshotValue s.mvcc.tsCounter) = _
  rw [orderly.own_next, getD_none, orderly.snapshot_newest]

theorem newest_quiet {op : Op} (quiet : ∀ txnId shouldSync now, op ≠ .commit txnId shouldSync now)
    (key : Bytes) : committedValues (step crc s op) key = committedValues s key := by
  rw [committedValues, committedValues, VersionChain.latest, VersionChain.latest, (committed_quiet crc s quiet key).2]

theorem Orderly.newest_commit (orderly : Orderly s) (found : active s txnId = some txn)
    (accepted : s.mvcc.refuses txn = false) (shouldSync : Bool) (now : UInt64) (key : Bytes) :
    committedValues (s.commit crc txnId shouldSync now).1 key =
      ((chainsOf s key).own txnId).getD (committedValues s key) := by
  rw [committedValues, chains_commit_succeeded crc s found accepted]
  cases mine : (chainsOf s key).own txnId with
  | none =>
    rw [publish_other (Or.inr mine)]
    rfl
  | some value =>
    have held : holder s key = some txnId := VersionChain.own_isSome.mp (by rw [mine]; rfl)
    have recorded := orderly.holders_recorded key txnId txn held found
    have placed := (publish_own recorded mine s.mvcc.tsCounter).1
    have newer : ∀ v ∈ (chainsOf s key).committed, v.commitTs ≤ s.mvcc.tsCounter :=
      fun v member => Nat.le_of_lt (orderly.stamps_past key v member)
    rw [VersionChain.latest, placed, Timeline.place_newest newer]
    rfl

end Views

section Contents
variable {H : KeyHashes} (crc : Crc32fast)
variable (key : Bytes)

theorem accepted_without_recent {m : MvccManager H} (none : m.recentCommits = ∅) (txn : MvccTransaction H) :
    m.refuses txn = false := by
  have empty : (pairs m.recentCommits).isEmpty = true := by rw [none]; rfl
  have valid : m.validateSsi txn = true := by
    rw [MvccManager.validateSsi, if_pos empty]
    exact ite_self true
  rw [MvccManager.refuses, valid, Bool.not_true, Bool.and_false]

def emptyStore : DurableStorage H := started crc 0 [] .standard true false

def firstTxn : Nat := (emptyStore crc : DurableStorage H).wal.nextTxnId

def begun : DurableStorage H := ((emptyStore crc).beginTransaction crc 0).1

def filling (writes : List Pair) : DurableStorage H :=
  ((begun crc).writeBatchRefs crc (firstTxn (H := H) crc) (writes.map fun w => (0, w.1, w.2))).1

def filled (writes : List Pair) : DurableStorage H :=
  ((filling crc writes).commit crc (firstTxn (H := H) crc) false 0).1

theorem chains_begun : chainsOf (begun crc : DurableStorage H) = fun _ => VersionChain.new :=
  chains_new .standard true

theorem firstTxn_active : active (begun crc : DurableStorage H) (firstTxn (H := H) crc) =
    some (.withMode (firstTxn (H := H) crc) 1 .readWrite) :=
  (active_begun crc (emptyStore crc : DurableStorage H) .readWrite 0 (firstTxn (H := H) crc)).trans (if_pos rfl)

theorem begun_reachable : Reachable crc (begun crc : DurableStorage H) := by
  have opened : Reachable crc (emptyStore crc : DurableStorage H) := .start ..
  exact @Reachable.step H crc _ (.beginWithMode .readWrite 0) opened (fun call isCall => by cases isCall)

variable (writes : List Pair)

theorem filling_reachable : Reachable crc (filling crc writes : DurableStorage H) := by
  apply @Reachable.step H crc _ (.writeBatchRefs _ (writes.map fun w => (0, w.1, w.2))) (begun_reachable crc)
  intro call isCall
  cases isCall
  exact isSome_iff_exists.mpr ⟨_, firstTxn_active crc⟩

theorem filled_reachable : Reachable crc (filled crc writes : DurableStorage H) :=
  @Reachable.step H crc _ (.commit _ false 0) (filling_reachable crc writes)
    (fun call isCall => by cases isCall)

theorem filling_active : ∃ txn, active (filling crc writes : DurableStorage H) (firstTxn (H := H) crc) = some txn ∧
    (filling crc writes : DurableStorage H).mvcc.refuses txn = false := by
  have batch := active_batch crc (begun crc : DurableStorage H) (firstTxn (H := H) crc)
    (writes.map fun w => (0, w.1, w.2)) (firstTxn (H := H) crc)
  rw [if_pos rfl, firstTxn_active, map_some] at batch
  refine ⟨_, batch, accepted_without_recent ?_ _⟩
  exact @recentCommits_quiet H crc (begun crc)
    (.writeBatchRefs (firstTxn (H := H) crc) (writes.map fun w => (0, w.1, w.2))) (by simp)

theorem own_filling :
    (chainsOf (filling crc writes : DurableStorage H) key).own (firstTxn (H := H) crc) =
      (lastValue writes key).map some := by
  have batch := (chains_batch crc (begun crc : DurableStorage H) (firstTxn (H := H) crc)
    (writes.map fun w => (0, w.1, w.2))).1
  have pairs : rows (writes.map fun w => (0, w.1, w.2)) = writes.map fun w => (w.1, some w.2) := by
    simp [rows]
  rw [pairs, chains_begun] at batch
  have taken : (putAll (fun _ => VersionChain.new) (firstTxn (H := H) crc)
      (writes.map fun w => (w.1, some w.2))).2 = true := putAll_alone (by simp) _
  have slot := slot_putAll taken key
  rw [lastValue_map, VersionChain.slot_new, or_none] at slot
  rw [filling, batch, VersionChain.own, slot]
  cases lastValue writes key <;> simp

theorem newest_filled : committedValues (filled crc writes : DurableStorage H) key = lastValue writes key := by
  obtain ⟨txn, found, accepted⟩ := filling_active (H := H) crc writes
  have orderly := (filling_reachable (H := H) crc writes).orderly
  have before : committedValues (filling crc writes : DurableStorage H) key = none := by
    refine (@newest_quiet H crc (begun crc)
      (.writeBatchRefs (firstTxn (H := H) crc) (writes.map fun w => (0, w.1, w.2))) (by simp) key).trans ?_
    rw [committedValues, chains_begun]
    rfl
  rw [filled, orderly.newest_commit crc found accepted, own_filling, before]
  cases lastValue writes key <;> rfl

theorem filled_index : hasIndex (filled crc writes : DurableStorage H).memtable = true := by
  obtain ⟨txn, found, accepted⟩ := filling_active (H := H) crc writes
  have filled : hasIndex (filling crc writes : DurableStorage H).memtable = true := by
    rw [filling, DurableStorage.writeBatchRefs]
    split
    · rfl
    · have logged : (logAll crc (begun crc : DurableStorage H) (firstTxn (H := H) crc)
          (writes.map fun w => (0, w.1, w.2))).memtable = (begun crc : DurableStorage H).memtable :=
        (logAll_rest crc _ _ _).1
      unfold logAll at logged
      simp only [logged]
      exact congrArg₂ (· || ·) (standard_writeEach_isSome _ _ _ _).1 (standard_writeEach_isSome _ _ _ _).2
  rw [KernelViews.filled, commit_succeeded crc _ found accepted]
  cases kind : (filling crc writes : DurableStorage H).memtable with
  | standard | arena =>
    rw [kind] at filled
    exact filled

theorem scan_filled {writes : List Pair} (sorted : writes.Pairwise fun a b => a.1 < b.1) (pre : Bytes) :
    ((filled crc writes : DurableStorage H).beginReadOnlyFast.1.scan
        (filled crc writes : DurableStorage H).wal.nextTxnId pre).2 =
      .ok (writes.filter fun pair => pre.isPrefixOf pair.1) := by
  have orderly := (filled_reachable (H := H) crc writes).orderly
  have reading : Orderly (filled crc writes : DurableStorage H).beginReadOnlyFast.1 :=
    @Orderly.step H crc _ orderly .beginReadOnlyFast (fun call isCall => by cases isCall)
  have found := active_begunFast (filled crc writes : DurableStorage H)
    (filled crc writes : DurableStorage H).wal.nextTxnId
  rw [if_pos rfl] at found
  rw [scan_shown found]
  have increasing : (shown (filled crc writes : DurableStorage H).beginReadOnlyFast.1
      (filled crc writes : DurableStorage H).wal.nextTxnId).Pairwise fun a b => a.1 < b.1 := by
    unfold shown
    rw [found]
    have keys := (keyOrder_increasing (filled_index (H := H) crc writes)).sublist
      (entries_keys_sublist _ (filled crc writes : DurableStorage H).mvcc.tsCounter
        (some (filled crc writes : DurableStorage H).wal.nextTxnId))
    exact List.pairwise_map.mp keys
  have distinct : (writes.map Prod.fst).Nodup :=
    List.pairwise_map.mpr (sorted.imp fun less => ne_of_lt less)
  have antisymmetric : Std.Antisymm fun a b : Pair => a.1 < b.1 :=
    ⟨fun a b less more => absurd more (not_lt_of_gt less)⟩
  have irreflexive : Std.Irrefl fun a b : Pair => a.1 < b.1 := ⟨fun a => lt_irrefl a.1⟩
  rw [increasing.eq_of_mem_iff sorted]
  rintro ⟨key, value⟩
  rw [reading.mem_shown, orderly.seen_begunFast, newest_filled, lastValue_of_nodup key distinct]

end Contents
end KernelViews
