import SochDB.Library.Runs
import SochDB.Scans

/-!
The four memtable configurations side by side: standard and arena table, each with and
without the ordered index, driven by the same calls. They may collect different versions,
which no reader at or after the watermarks can tell: it gets what the history of the calls
has made visible.
-/
namespace Interchangeable
open WalRecords VersionChains KeyIndexes MemTables ChainView SortedKeys ByteOrder Timeline List VersionChain
open Runs Scans

inductive Call where
  | write (key : Bytes) (value : Option Bytes) (txnId : Nat)
  | writeBatch (writes : List (Bytes × Option Bytes)) (txnId : Nat)
  | commit (txnId commitTs : Nat) (writeSet : List Bytes)
  | abort (txnId : Nat)
  | gc (minActiveTs : Nat)
  deriving DecidableEq, Repr

def step (table : MemTableKind) : Call → MemTableKind
  | .write key value txnId => (table.write key value txnId).1
  | .writeBatch writes txnId => (table.writeBatch writes txnId).1
  | .commit txnId commitTs writeSet => table.commit txnId commitTs writeSet
  | .abort txnId => table.abort txnId
  | .gc minActiveTs => (table.gc minActiveTs).1

def after (kind : MemTableType) (enableOrderedIndex : Bool) (calls : List Call) : MemTableKind :=
  run step (.new kind enableOrderedIndex) calls

def CollectedBelow (snapshotTs : Nat) : Call → Prop
  | .gc minActiveTs => minActiveTs ≤ snapshotTs
  | _ => True

def Lists (list : List Pair) (keep : Bytes → Prop) (shown : Bytes → Option Bytes) : Prop :=
  (list.map Prod.fst).Nodup ∧ ∀ key value, (key, value) ∈ list ↔ keep key ∧ shown key = some value

/-- Every query answers from the same visible pairs, in key order if there is an index. -/
structure Answers (table : MemTableKind) (enableOrderedIndex : Bool) (snapshotTs : Nat)
    (currentTxnId : Option Nat) (start finish : Bytes) (shown : Bytes → Option Bytes) : Prop where
  read : ∀ key, table.read key snapshotTs currentTxnId = shown key
  scanPrefix : ∀ pre,
    Lists (table.scanPrefix pre snapshotTs currentTxnId).2 (pre <+: ·) shown ∧
    (enableOrderedIndex → Increasing ((table.scanPrefix pre snapshotTs currentTxnId).2.map Prod.fst))
  scanRange : ∃ list, (table.scanRange start finish snapshotTs currentTxnId).2 = .ok list ∧
    (table.scanRangeIter start finish snapshotTs currentTxnId).2 = .ok list ∧
    Lists list (fun key => start ≤ key ∧ (finish = [] ∨ key < finish)) shown ∧
    (enableOrderedIndex → Increasing (list.map Prod.fst))

/-- What the calls have made of a key: the version that a transaction has pending, and all
    that were committed, the last commit first. -/
structure Ledger where
  pending : Option Version
  committed : List Version

namespace Ledger

def accepts (ledger : Ledger) (txnId : Nat) : Bool := ledger.pending.all (·.txnId == txnId)

def hold (ledger : Ledger) (value : Option Bytes) (txnId : Nat) : Ledger :=
  { ledger with pending := some ⟨value, txnId, 0⟩ }

def commit (ledger : Ledger) (txnId commitTs : Nat) : Ledger :=
  match ledger.pending with
  | some v => if v.txnId = txnId then ⟨none, ⟨v.value, txnId, commitTs⟩ :: ledger.committed⟩ else ledger
  | none => ledger

def abort (ledger : Ledger) (txnId : Nat) : Ledger :=
  { ledger with pending := ledger.pending.filter fun v => v.txnId ≠ txnId }

/-- The greatest version committed below the snapshot, the later one of two with one timestamp. -/
def newest (ledger : Ledger) (snapshotTs : Nat) : Option Version :=
  (ledger.committed.filter (·.commitTs < snapshotTs)).argmax Version.commitTs

def visible (ledger : Ledger) (snapshotTs : Nat) (currentTxnId : Option Nat) : Option Bytes :=
  ((ledger.pending.filter fun v => currentTxnId = some v.txnId).or (ledger.newest snapshotTs)).bind
    Version.value

end Ledger

/-- The keys of a batch up to the first one that another transaction holds. -/
def enter (ledgers : Bytes → Ledger) (txnId : Nat) : List (Bytes × Option Bytes) → Bytes → Ledger
  | [] => ledgers
  | (key, value) :: writes =>
    if (ledgers key).accepts txnId then
      enter (Function.update ledgers key ((ledgers key).hold value txnId)) txnId writes
    else ledgers

def keep (ledgers : Bytes → Ledger) : Call → Bytes → Ledger
  | .write key value txnId => enter ledgers txnId [(key, value)]
  | .writeBatch writes txnId => enter ledgers txnId writes
  | .commit txnId commitTs writeSet => fun key =>
    if key ∈ writeSet then (ledgers key).commit txnId commitTs else ledgers key
  | .abort txnId => fun key => (ledgers key).abort txnId
  | .gc _ => ledgers

def history (calls : List Call) : Bytes → Ledger := run keep (fun _ => ⟨none, []⟩) calls

section Ledgers

structure Matches (snapshotTs : Nat) (chain : VersionChain) (ledger : Ledger) : Prop where
  slot : chain.slot = ledger.pending
  newest : newestBefore Version.commitTs snapshotTs chain.committed = ledger.newest snapshotTs

variable {snapshotTs : Nat} {chain : VersionChain} {ledger : Ledger}

theorem newest_cons (pending : Option Version) (v : Version) (committed : List Version) :
    Ledger.newest ⟨pending, v :: committed⟩ snapshotTs =
      if v.commitTs < snapshotTs ∧
          ∀ e ∈ Ledger.newest ⟨pending, committed⟩ snapshotTs, e.commitTs ≤ v.commitTs then some v
      else Ledger.newest ⟨pending, committed⟩ snapshotTs := by
  unfold Ledger.newest
  by_cases below : v.commitTs < snapshotTs
  · rw [filter_cons_of_pos (by simpa using below), argmax_cons]
    cases argmax Version.commitTs (committed.filter (·.commitTs < snapshotTs)) with
    | none => simp [below]
    | some best => by_cases newer : best.commitTs ≤ v.commitTs <;> simp [below, newer, Nat.lt_of_not_le]
  · rw [filter_cons_of_neg (by simpa using below), if_neg fun both => below both.1]

section
variable (same : Matches snapshotTs chain ledger)
include same

theorem Matches.conflict (txnId : Nat) : chain.hasWriteConflict txnId = !ledger.accepts txnId := by
  rw [Bool.eq_iff_iff, hasWriteConflict_iff, same.slot, Ledger.accepts]
  cases ledger.pending <;> simp

theorem Matches.hold (value : Option Bytes) (txnId : Nat) :
    Matches snapshotTs (chain.addUncommitted value txnId) (ledger.hold value txnId) := by
  constructor
  · simp [Ledger.hold]
  · rw [committed_addUncommitted]
    exact same.newest

theorem Matches.commit (txnId commitTs : Nat) :
    Matches snapshotTs (chain.commit txnId commitTs) (ledger.commit txnId commitTs) := by
  have own : chain.own txnId = (ledger.pending.filter fun v => v.txnId = txnId).map Version.value := by
    rw [VersionChain.own, same.slot]
    cases ledger.pending with
    | none => rfl
    | some v => by_cases mine : v.txnId = txnId <;> simp [Option.filter, mine]
  unfold Ledger.commit
  cases held : ledger.pending with
  | none => rwa [commit_other (by rw [own, held]; rfl)]
  | some v =>
    rw [held] at own
    by_cases mine : v.txnId = txnId
    · obtain ⟨placed, empty⟩ :=
        commit_own (own.trans (by simp [Option.filter, mine]) : _ = some v.value) commitTs
      simp only [if_pos mine]
      refine ⟨empty, ?_⟩
      rw [placed, newestBefore_place chain.sorted, newest_cons, same.newest]
      rfl
    · rw [commit_other (own.trans (by simp [Option.filter, mine]))]
      simpa only [if_neg mine] using same

theorem Matches.abort (txnId : Nat) : Matches snapshotTs (chain.abort txnId) (ledger.abort txnId) := by
  constructor
  · rw [slot_abort, same.slot]
    rfl
  · rw [committed_abort]
    exact same.newest

theorem Matches.read (currentTxnId : Option Nat) :
    readVersion chain snapshotTs currentTxnId = ledger.visible snapshotTs currentTxnId := by
  have slot : chain.inner.uncommitted = ledger.pending := same.slot
  have committed : chain.inner.readCommitted snapshotTs = ledger.newest snapshotTs := by
    rw [BinarySearchChain.readCommitted_eq]
    exact same.newest
  unfold readVersion VersionChain.readAt BinarySearchChain.readAt Ledger.visible
  rw [slot, committed]
  cases currentTxnId with
  | none => cases ledger.pending <;> simp [Option.filter]
  | some txnId =>
    cases ledger.pending with
    | none => simp
    | some v =>
      by_cases mine : v.txnId = txnId
      · simp [ChainEntry.txnId, Option.filter, mine]
      · simp [ChainEntry.txnId, Option.filter, mine, Ne.symm mine]

end

variable {c : Chains} {ledgers : Bytes → Ledger}

theorem matches_putAll (same : ∀ k, Matches snapshotTs (c k) (ledgers k)) (txnId : Nat)
    (writes : List (Bytes × Option Bytes)) :
    ∀ k, Matches snapshotTs ((putAll c txnId writes).1 k) (enter ledgers txnId writes k) := by
  induction writes generalizing c ledgers with
  | nil => exact same
  | cons w writes ih =>
    obtain ⟨key, value⟩ := w
    unfold putAll enter put
    rw [(same key).conflict]
    cases (ledgers key).accepts txnId with
    | false => exact same
    | true =>
      apply ih
      intro k
      by_cases written : k = key
      · subst written
        simpa using (same k).hold value txnId
      · simpa [written] using same k

theorem matches_step {table : MemTableKind} (same : ∀ k, Matches snapshotTs (chains table k) (ledgers k))
    {call : Call} (below : CollectedBelow snapshotTs call) :
    ∀ k, Matches snapshotTs (chains (step table call) k) (keep ledgers call k) := by
  intro k
  cases call with
  | write key value txnId =>
    have one : (putAll (chains table) txnId [(key, value)]).1 = (put (chains table) key value txnId).1 := by
      unfold putAll
      rcases put (chains table) key value txnId with ⟨_, _ | _⟩ <;> rfl
    simp only [step, chains_write, ← one]
    exact matches_putAll same txnId [(key, value)] k
  | writeBatch writes txnId =>
    simp only [step, chains_writeBatch]
    exact matches_putAll same txnId writes k
  | commit txnId commitTs writeSet =>
    simp only [step, chains_commit, keep, publish]
    split
    · exact (same k).commit txnId commitTs
    · exact same k
  | abort txnId =>
    simp only [step, chains_abort]
    exact (same k).abort txnId
  | gc minActiveTs =>
    simp only [step, chains_gc, collect]
    split
    · exact ⟨(same k).slot, by rw [committed_gc, newestBefore_prune below]; exact (same k).newest⟩
    · exact same k

theorem matches_run {table : MemTableKind} (same : ∀ k, Matches snapshotTs (chains table k) (ledgers k))
    {calls : List Call} (below : ∀ call ∈ calls, CollectedBelow snapshotTs call) :
    ∀ k, Matches snapshotTs (chains (run step table calls) k) (run keep ledgers calls k) := by
  induction calls generalizing table ledgers with
  | nil => exact same
  | cons call calls ih =>
    exact ih (matches_step same (below call mem_cons_self)) fun later member =>
      below later (mem_cons_of_mem call member)

theorem read_after (kind : MemTableType) (enableOrderedIndex : Bool) {calls : List Call}
    (below : ∀ call ∈ calls, CollectedBelow snapshotTs call) (key : Bytes) (currentTxnId : Option Nat) :
    (after kind enableOrderedIndex calls).read key snapshotTs currentTxnId =
      (history calls key).visible snapshotTs currentTxnId := by
  have start : ∀ k, Matches snapshotTs (chains (.new kind enableOrderedIndex) k) ⟨none, []⟩ := by
    intro k
    rw [chains_new]
    exact ⟨rfl, rfl⟩
  rw [read_eq]
  exact (matches_run start below key).read currentTxnId

end Ledgers

section Shape

variable (kind : MemTableType) (enableOrderedIndex : Bool) (table : MemTableKind) (m : MvccMemTable)

theorem arena_writeEach_isSome (m : ArenaMvccMemTable) (txnId totalSize : Nat)
    (writes : List (Bytes × Option Bytes)) :
    (m.writeEach txnId totalSize writes).1.orderedIndex.isSome = m.orderedIndex.isSome := by
  induction writes generalizing m totalSize with
  | nil => rfl
  | cons w writes ih =>
    simp only [ArenaMvccMemTable.writeEach]
    split
    · simp [ArenaMvccMemTable.trackKey]
    · rw [ih]
      simp [ArenaMvccMemTable.trackKey]

theorem shape_step (call : Call) :
    slices (step table call) = slices table ∧ hasIndex (step table call) = hasIndex table := by
  cases table with
  | standard m =>
    cases call with
    | write key value txnId =>
      have kept := indexKey_isSome { m with dirtyList := m.dirtyList.recordVersion key } key
      simp only [step, MemTableKind.write, MvccMemTable.write]
      split <;> simp [slices, hasIndex, kept]
    | writeBatch writes txnId =>
      simp [step, MemTableKind.writeBatch, MvccMemTable.writeBatch, slices, hasIndex,
        standard_writeEach_isSome]
    | commit | abort => exact ⟨rfl, rfl⟩
    | gc minActiveTs =>
      simp only [step, MemTableKind.gc, MvccMemTable.gc]
      split <;> exact ⟨rfl, rfl⟩
  | arena m =>
    cases call with
    | write key value txnId =>
      simp only [step, MemTableKind.write, ArenaMvccMemTable.write, ArenaMvccMemTable.trackKey]
      split <;> simp [slices, hasIndex]
    | writeBatch writes txnId =>
      simp [step, MemTableKind.writeBatch, ArenaMvccMemTable.writeBatch, slices, hasIndex,
        arena_writeEach_isSome]
    | commit | abort => exact ⟨rfl, rfl⟩
    | gc minActiveTs =>
      simp only [step, MemTableKind.gc, ArenaMvccMemTable.gc]
      split <;> exact ⟨rfl, rfl⟩

theorem shape_run (calls : List Call) :
    slices (run step table calls) = slices table ∧ hasIndex (run step table calls) = hasIndex table := by
  induction calls generalizing table with
  | nil => exact ⟨rfl, rfl⟩
  | cons call calls ih =>
    exact ⟨(ih _).1.trans (shape_step table call).1, (ih _).2.trans (shape_step table call).2⟩

theorem slices_after (calls : List Call) :
    slices (after kind enableOrderedIndex calls) = (kind == .standard && enableOrderedIndex) := by
  rw [after, (shape_run _ calls).1]
  cases kind <;> cases enableOrderedIndex <;> rfl

theorem hasIndex_after (calls : List Call) :
    hasIndex (after kind enableOrderedIndex calls) = enableOrderedIndex := by
  rw [after, (shape_run _ calls).2]
  cases kind <;> cases enableOrderedIndex <;> rfl

theorem indexed_run {table : MemTableKind} (indexed : Indexed table) (calls : List Call) :
    Indexed (run step table calls) := by
  induction calls generalizing table with
  | nil => exact indexed
  | cons call calls ih =>
    apply ih
    cases call with
    | write key value txnId => exact indexed_write indexed key value txnId
    | writeBatch writes txnId => exact indexed_writeBatch indexed writes txnId
    | commit txnId commitTs writeSet => exact indexed_commit indexed txnId commitTs writeSet
    | abort txnId => exact indexed_abort indexed txnId
    | gc minActiveTs => exact indexed_gc indexed minActiveTs

end Shape

section Queries
variable {table : MemTableKind} {snapshotTs : Nat} {currentTxnId : Option Nat}
  {shown : Bytes → Option Bytes}

theorem lists_filter (indexed : Indexed table)
    (reads : ∀ key, table.read key snapshotTs currentTxnId = shown key) (keep : Bytes → Bool) :
    Lists ((entries table snapshotTs currentTxnId).filter fun pair => keep pair.1) (keep · = true) shown := by
  constructor
  · exact (entries_nodup table snapshotTs currentTxnId).sublist (filter_sublist.map Prod.fst)
  · intro key value
    rw [mem_filter, mem_entries indexed, reads, and_comm]

theorem increasing_filter (index : hasIndex table = true) (keep : Pair → Bool) :
    Increasing (((entries table snapshotTs currentTxnId).filter keep).map Prod.fst) :=
  (keyOrder_increasing index).sublist
    ((filter_sublist.map Prod.fst).trans (entries_keys_sublist table snapshotTs currentTxnId))

theorem answers_of_reads {enableOrderedIndex : Bool} (indexed : Indexed table)
    (index : hasIndex table = enableOrderedIndex)
    (reads : ∀ key, table.read key snapshotTs currentTxnId = shown key) {start finish : Bytes}
    (inOrder : RangeInOrder table start finish) :
    Answers table enableOrderedIndex snapshotTs currentTxnId start finish shown := by
  constructor
  · exact reads
  · intro pre
    rw [scanPrefix_eq]
    constructor
    · have listed := lists_filter indexed reads pre.isPrefixOf
      simpa only [List.isPrefixOf_iff_prefix] using listed
    · intro enabled
      exact increasing_filter (index.trans enabled) _
  · refine ⟨_, scanRange_eq table snapshotTs currentTxnId inOrder, ?_, ?_, ?_⟩
    · rw [scanRangeIter_eq, scanRange_eq table snapshotTs currentTxnId inOrder]
    · have listed := lists_filter indexed reads (inRange start finish)
      simpa only [inRange_eq, decide_eq_true_eq] using listed
    · intro enabled
      exact increasing_filter (index.trans enabled) _

end Queries

/-- All four configurations answer every query from what the calls have made visible at a
    snapshot that no collection has passed, exactly if the range is not an inverted one over
    a key that the table holds. -/
theorem configurations_answer_alike_iff (calls : List Call) (snapshotTs : Nat)
    (currentTxnId : Option Nat) (below : ∀ call ∈ calls, CollectedBelow snapshotTs call)
    (start finish : Bytes) :
    (∀ kind enableOrderedIndex,
      Answers (after kind enableOrderedIndex calls) enableOrderedIndex snapshotTs currentTxnId
        start finish fun key => (history calls key).visible snapshotTs currentTxnId) ↔
      (finish ≠ [] → ∀ key, holdsKey (after .standard true calls) key → finish ≤ key → start ≤ key) := by
  have indexed : ∀ kind index, Indexed (after kind index calls) := by
    intro kind index
    exact indexed_run (indexed_new kind index) calls
  constructor
  · intro answers bounded key held
    obtain ⟨list, answered, _⟩ := (answers .standard true).scanRange
    apply rangeInOrder_of_ok _ snapshotTs currentTxnId answered
    · exact slices_after .standard true calls
    · exact bounded
    · exact (indexed .standard true key).mpr held
  · intro inOrder kind index
    apply answers_of_reads (indexed kind index) (hasIndex_after kind index calls)
    · intro key
      exact read_after kind index below key currentTxnId
    · intro sliced bounded key member
      rw [slices_after, Bool.and_eq_true, beq_iff_eq] at sliced
      obtain ⟨rfl, rfl⟩ := sliced
      exact inOrder bounded key ((indexed .standard true key).mp member)

def fewKeys : List Call :=
  [.write [1] (some [10]) 1, .write [2] (some [20]) 1, .commit 1 5 [[1], [2]],
    .writeBatch [([2], none), ([7], some [70])] 2, .writeBatch [([1], some [11]), ([7], some [71])] 3,
    .commit 2 8 [[2]], .gc 6]

/-- Transaction 2 sees its own pending key, the key that it has deleted no longer, and not
    what transaction 3 holds. -/
theorem inverted_range_beside_the_keys :
    (∀ call ∈ fewKeys, CollectedBelow 9 call) ∧
    [[1], [2], [7]].map (fun key => (history fewKeys key).visible 9 (some 2)) =
      [some [10], none, some [70]] ∧
    ∀ kind enableOrderedIndex,
      Answers (after kind enableOrderedIndex fewKeys) enableOrderedIndex 9 (some 2) [6] [3]
        fun key => (history fewKeys key).visible 9 (some 2) := by
  have below : ∀ call ∈ fewKeys, CollectedBelow 9 call := by
    simp [fewKeys, CollectedBelow]
  refine ⟨below, by decide +kernel, (configurations_answer_alike_iff fewKeys 9 (some 2) below [6] [3]).mpr ?_⟩
  intro _ key held
  have keys : keyOrder (after .standard true fewKeys) = [[1], [2], [7]] := by decide +kernel
  have member : key ∈ [[1], [2], [7]] := by
    rw [← keys]
    exact (indexed_run (indexed_new .standard true) fewKeys key).mpr held
  clear held
  revert key
  decide

/-- An inverted range around a stored key panics in one configuration only; and a batch
    refused at its first key lets the standard table collect a version of the second one,
    which the arena table keeps. -/
theorem inverted_range_panics_and_refused_batch_collects :
    (let calls := [Call.write [5] (some [1]) 1]
     (∃ panic, ((after .standard true calls).scanRange [9] [3] 1 none).2 = .error panic) ∧
     ((after .standard false calls).scanRange [9] [3] 1 none).2 = .ok [] ∧
     ((after .arena true calls).scanRange [9] [3] 1 none).2 = .ok [] ∧
     ((after .arena false calls).scanRange [9] [3] 1 none).2 = .ok []) ∧
    (let calls := [Call.write [2] (some [20]) 1, .commit 1 3 [[2]], .write [2] (some [21]) 2,
        .commit 2 6 [[2]], .gc 0, .write [1] (some [10]) 3,
        .writeBatch [([1], some [11]), ([2], some [22])] 4, .gc 10]
     (after .standard true calls).read [2] 5 none = none ∧
     (after .arena true calls).read [2] 5 none = some [20]) := by
  refine ⟨⟨⟨.sliceIndexOrder 1 0, rfl⟩, rfl, rfl, rfl⟩, ?_⟩
  decide +kernel

end Interchangeable
