import SochDB.ChainView

/-!
What a scan returns. Whichever table and index serve it, a scan filters one list: the
visible pairs in the order of the index, or of the map if there is none. Only the range
slice of the deferred index can fail, on an inverted range.
-/
namespace Scans
open KeyedMaps WalRecords VersionChains KeyIndexes MemTables ChainView SortedKeys ByteOrder Option ArenaKeyHandle

def keyOrder : MemTableKind → List Bytes
  | .standard m =>
    match m.deferredIndex, m.orderedIndex with
    | some idx, _ => idx.ensureCompacted.sortedVec
    | none, some idx => idx.keys
    | none, none => (pairs m.data).map Prod.fst
  | .arena m =>
    match m.orderedIndex with
    | some idx => idx.keys.map ArenaKeyHandle.asBytes
    | none => (pairs m.data).map fun entry => entry.1.asBytes

def hasIndex : MemTableKind → Bool
  | .standard m => m.deferredIndex.isSome || m.orderedIndex.isSome
  | .arena m => m.orderedIndex.isSome

def slices : MemTableKind → Bool
  | .standard m => m.deferredIndex.isSome
  | .arena _ => false

def entries (table : MemTableKind) (snapshotTs : Nat) (currentTxnId : Option Nat) : List Pair :=
  (keyOrder table).filterMap fun key =>
    (table.read key snapshotTs currentTxnId).map fun value => (key, value)

theorem scanAll_eq {κ : Type} [DecidableEq κ] (data : Map κ VersionChain) (asBytes : κ → Bytes)
    (snapshotTs : Nat) (currentTxnId : Option Nat) (keep : Bytes → Bool) :
    scanAll data asBytes snapshotTs currentTxnId keep =
      visible data asBytes snapshotTs currentTxnId
        (((pairs data).map Prod.fst).filter fun key => keep (asBytes key)) := by
  rw [scanAll, visible, List.filterMap_filter, List.filterMap_map]
  apply List.filterMap_congr
  intro entry member
  have held : get data entry.1 = some entry.2 := mem_pairs.mp member
  simp only [Function.comp_apply, readKey, held, bind_some]

theorem visible_filter {κ : Type} [DecidableEq κ] (data : Map κ VersionChain) (asBytes : κ → Bytes)
    (snapshotTs : Nat) (currentTxnId : Option Nat) (keys : List κ) (keep : Bytes → Bool) :
    visible data asBytes snapshotTs currentTxnId (keys.filter fun key => keep (asBytes key)) =
      (visible data asBytes snapshotTs currentTxnId keys).filter fun pair => keep pair.1 := by
  rw [visible, visible, List.filterMap_filter, List.filter_filterMap]
  apply List.filterMap_congr
  intro key _
  cases readKey data key snapshotTs currentTxnId with
  | none => simp
  | some value => by_cases kept : keep (asBytes key) <;> simp [Option.filter, kept]

theorem inRange_eq (start finish key : Bytes) :
    inRange start finish key = decide (start ≤ key ∧ (finish = [] ∨ key < finish)) := by
  unfold inRange
  by_cases before : key < start
  · simp [before, not_le.mpr before]
  · by_cases unbounded : finish = []
    · simp [before, unbounded, not_lt.mp before]
    · by_cases inside : key < finish
      · simp [before, unbounded, inside, not_lt.mp before]
      · simp [before, unbounded, inside]

section Slices
variable {κ : Type} [LinearOrder κ] (asBytes : κ → Bytes) {keys : List κ}

/-- In a sorted index the keys with a given beginning follow each other, and they start
    where that beginning would stand. -/
theorem starting_keys (increasing : Increasing keys) (ordered : ∀ a b : κ, a ≤ b ↔ asBytes a ≤ asBytes b)
    (start : κ) :
    (keys.filter (start ≤ ·)).takeWhile (fun key => (asBytes start).isPrefixOf (asBytes key)) =
      keys.filter fun key => (asBytes start).isPrefixOf (asBytes key) := by
  rw [takeWhile_eq_filter (increasing.sublist List.filter_sublist), List.filter_filter]
  · apply List.filter_congr
    intro key _
    cases begins : (asBytes start).isPrefixOf (asBytes key) with
    | false => rfl
    | true =>
      have after := le_of_starts_with (List.isPrefixOf_iff_prefix.mp begins)
      simpa [ordered] using after
  · intro x member y _ less begins
    have atOrAfter : asBytes start ≤ asBytes x :=
      (ordered start x).mp (of_decide_eq_true (List.mem_filter.mp member).2)
    have before : asBytes x ≤ asBytes y := (ordered x y).mp less.le
    rw [List.isPrefixOf_iff_prefix] at begins ⊢
    exact starts_with_between begins (not_lt.mpr atOrAfter) (not_lt.mpr before)

theorem range_eq_filter (increasing : Increasing keys) (start finish : κ) :
    (keys.dropWhile fun k => k < start).takeWhile (fun k => k < finish) =
      keys.filter fun k => start ≤ k ∧ k < finish := by
  rw [dropWhile_eq_filter increasing,
    takeWhile_eq_filter (increasing.sublist List.filter_sublist), List.filter_filter]
  · apply List.filter_congr
    intro k _
    rw [Bool.decide_and, Bool.and_comm]
  · intro x _ y _ less before
    simp only [decide_eq_true_eq] at before ⊢
    exact less.trans before

theorem keys_in_range (keys : List κ) (ordered : ∀ a b : κ, a ≤ b ↔ asBytes a ≤ asBytes b)
    (first last : κ) :
    (if (asBytes last).isEmpty then keys.filter (first ≤ ·)
      else keys.filter fun k => first ≤ k ∧ k < last) =
      keys.filter fun key => inRange (asBytes first) (asBytes last) (asBytes key) := by
  have strict : ∀ a b : κ, a < b ↔ asBytes a < asBytes b := by
    intro a b
    rw [← not_le, ← not_le, ordered]
  by_cases unbounded : asBytes last = []
  · rw [if_pos (List.isEmpty_iff.mpr unbounded)]
    apply List.filter_congr
    intro key _
    simp [inRange_eq, unbounded, ordered]
  · rw [if_neg fun empty => unbounded (List.isEmpty_iff.mp empty)]
    apply List.filter_congr
    intro key _
    simp [inRange_eq, unbounded, ordered, strict]

end Slices

section DeferredIndex
variable (idx : DeferredSortedIndex)

theorem deferred_rangeFrom (start : Bytes) :
    (idx.rangeFrom start).2 = idx.ensureCompacted.sortedVec.filter (start ≤ ·) := by
  have cut := drop_partitionPoint idx.ensureCompacted.sorted start
  rw [DeferredSortedIndex.rangeFrom]
  convert cut

/-- The slice is cut between two binary searches, and their results are in order unless
    an indexed key lies at or after the end and before the start. -/
theorem deferred_range {start finish : Bytes} (bounded : finish ≠ [])
    (inOrder : ∀ k ∈ idx.ensureCompacted.sortedVec, finish ≤ k → start ≤ k) :
    (idx.range start finish).2 = .ok (idx.ensureCompacted.sortedVec.filter (inRange start finish)) := by
  have cut := slice_eq_filter idx.ensureCompacted.sorted start finish
  have ends := (partitionPoint_ordered idx.ensureCompacted.sorted start finish).mpr inOrder
  have inside : idx.ensureCompacted.sortedVec.filter (inRange start finish) =
      idx.ensureCompacted.sortedVec.filter fun k => start ≤ k ∧ k < finish := by
    apply List.filter_congr
    intro key _
    simp [inRange_eq, bounded]
  rw [inside]
  simp only [DeferredSortedIndex.range, slice]
  rw [if_pos (by convert ends)]
  congr 1
  convert cut

theorem deferred_range_panics {start finish : Bytes} {list : List Bytes}
    (cut : (idx.range start finish).2 = .ok list) :
    ∀ k ∈ idx.ensureCompacted.sortedVec, finish ≤ k → start ≤ k := by
  rw [← partitionPoint_ordered idx.ensureCompacted.sorted start finish]
  rw [DeferredSortedIndex.range, slice] at cut
  by_contra disordered
  rw [if_neg (by convert disordered)] at cut
  cases cut

theorem ensureCompacted_parts :
    idx.ensureCompacted.hotBuffer = [] ∧
      idx.ensureCompacted.sortedVec =
        if idx.hotBuffer.isEmpty then idx.sortedVec
        else if idx.sortedVec.isEmpty then sortDedup idx.hotBuffer
        else merge idx.sortedVec (sortDedup idx.hotBuffer) := by
  by_cases cold : idx.hotBuffer.isEmpty = true
  · have empty : idx.hotBuffer = [] := List.isEmpty_iff.mp cold
    by_cases flagged : idx.needsCompaction = true
    · simp [DeferredSortedIndex.ensureCompacted, DeferredSortedIndex.compact, flagged, empty]
    · simp [DeferredSortedIndex.ensureCompacted, flagged, empty]
  · simp [DeferredSortedIndex.ensureCompacted, DeferredSortedIndex.compact, cold]

theorem mem_ensureCompacted {key : Bytes} :
    key ∈ idx.ensureCompacted.sortedVec ↔ key ∈ idx.sortedVec ∨ key ∈ idx.hotBuffer := by
  rw [(ensureCompacted_parts idx).2]
  split
  · rename_i cold
    simp [List.isEmpty_iff.mp cold]
  · split
    · rename_i empty
      simp [List.isEmpty_iff.mp empty]
    · simp [mem_merge]

theorem compacted_twice :
    idx.ensureCompacted.ensureCompacted.sortedVec = idx.ensureCompacted.sortedVec := by
  rw [(ensureCompacted_parts idx.ensureCompacted).2, (ensureCompacted_parts idx).1]
  rfl

theorem compact_ensureCompacted :
    idx.compact.ensureCompacted.sortedVec = idx.ensureCompacted.sortedVec := by
  by_cases cold : idx.hotBuffer.isEmpty = true
  · rw [DeferredSortedIndex.compact, if_pos cold]
  · have hot : idx.ensureCompacted = idx.compact := by
      simp [DeferredSortedIndex.ensureCompacted, cold]
    rw [← hot, compacted_twice]

end DeferredIndex

section Tables
variable (table : MemTableKind) (snapshotTs : Nat) (currentTxnId : Option Nat)

theorem standard_entries (m : MvccMemTable) :
    entries (.standard m) snapshotTs currentTxnId =
      visible m.data id snapshotTs currentTxnId (keyOrder (.standard m)) := rfl

theorem arena_entries (m : ArenaMvccMemTable) {keys : List ArenaKeyHandle}
    (order : keyOrder (.arena m) = keys.map ArenaKeyHandle.asBytes) :
    entries (.arena m) snapshotTs currentTxnId =
      visible m.data ArenaKeyHandle.asBytes snapshotTs currentTxnId keys := by
  rw [entries, order, List.filterMap_map, visible]
  apply List.filterMap_congr
  intro key _
  simp only [Function.comp_apply, MemTableKind.read, ArenaMvccMemTable.read, new_asBytes]

theorem arena_keyOrder (m : ArenaMvccMemTable) :
    keyOrder (.arena m) = (match m.orderedIndex with
      | some idx => idx.keys
      | none => (pairs m.data).map Prod.fst).map ArenaKeyHandle.asBytes := by
  simp only [keyOrder]
  cases m.orderedIndex <;> simp [Function.comp_def]

theorem scanPrefix_eq (pre : Bytes) :
    (table.scanPrefix pre snapshotTs currentTxnId).2 =
      (entries table snapshotTs currentTxnId).filter fun pair => pre.isPrefixOf pair.1 := by
  cases table with
  | standard m =>
    rw [standard_entries, ← visible_filter m.data id]
    simp only [MemTableKind.scanPrefix, MvccMemTable.scanPrefix, keyOrder]
    cases m.deferredIndex with
    | some idx =>
      have found := starting_keys id idx.ensureCompacted.sorted (fun _ _ => .rfl) pre
      rw [id, ← deferred_rangeFrom] at found
      exact congrArg (visible m.data id snapshotTs currentTxnId) found
    | none =>
      cases m.orderedIndex with
      | some idx =>
        have found := starting_keys id idx.sorted (fun _ _ => .rfl) pre
        rw [id, ← dropWhile_eq_filter idx.sorted] at found
        exact congrArg (visible m.data id snapshotTs currentTxnId) found
      | none => exact scanAll_eq m.data id snapshotTs currentTxnId pre.isPrefixOf
  | arena m =>
    rw [arena_entries snapshotTs currentTxnId m (arena_keyOrder m),
      ← visible_filter m.data ArenaKeyHandle.asBytes]
    simp only [MemTableKind.scanPrefix, ArenaMvccMemTable.scanPrefix]
    cases m.orderedIndex with
    | some idx =>
      have found := starting_keys ArenaKeyHandle.asBytes idx.sorted (fun _ _ => .rfl)
        (.new pre)
      rw [asBytes_new, ← dropWhile_eq_filter idx.sorted] at found
      exact congrArg (visible m.data ArenaKeyHandle.asBytes snapshotTs currentTxnId) found
    | none => exact scanAll_eq m.data ArenaKeyHandle.asBytes snapshotTs currentTxnId pre.isPrefixOf

/-- No key of a sliced index stands between an end and a start that are in the wrong
    order. -/
def RangeInOrder (start finish : Bytes) : Prop :=
  slices table = true → finish ≠ [] → ∀ k ∈ keyOrder table, finish ≤ k → start ≤ k

theorem scanRange_eq {start finish : Bytes} (inOrder : RangeInOrder table start finish) :
    (table.scanRange start finish snapshotTs currentTxnId).2 =
      .ok ((entries table snapshotTs currentTxnId).filter fun pair => inRange start finish pair.1) := by
  cases table with
  | standard m =>
    rw [standard_entries, ← visible_filter m.data id]
    simp only [MemTableKind.scanRange, MvccMemTable.scanRange, keyOrder]
    unfold RangeInOrder slices keyOrder at inOrder
    cases deferred : m.deferredIndex with
    | some idx =>
      simp only [deferred, isSome_some, forall_true_left] at inOrder
      by_cases unbounded : finish = []
      · have found := keys_in_range id idx.ensureCompacted.sortedVec (fun _ _ => .rfl)
          start finish
        have empty : finish.isEmpty = true := List.isEmpty_iff.mpr unbounded
        simp only [id, if_pos empty, deferred_rangeFrom] at found ⊢
        rw [found]
      · have bounded : ¬ finish.isEmpty = true := fun empty => unbounded (List.isEmpty_iff.mp empty)
        simp only [if_neg bounded, deferred_range idx unbounded (inOrder unbounded)]
        rfl
    | none =>
      cases m.orderedIndex with
      | some idx =>
        have found := keys_in_range id idx.keys (fun _ _ => .rfl) start finish
        rw [← range_eq_filter idx.sorted, ← dropWhile_eq_filter idx.sorted] at found
        exact congrArg (fun keys => Except.ok (visible m.data id snapshotTs currentTxnId keys)) found
      | none =>
        exact congrArg Except.ok (scanAll_eq m.data id snapshotTs currentTxnId (inRange start finish))
  | arena m =>
    rw [arena_entries snapshotTs currentTxnId m (arena_keyOrder m),
      ← visible_filter m.data ArenaKeyHandle.asBytes]
    simp only [MemTableKind.scanRange, ArenaMvccMemTable.scanRange]
    cases m.orderedIndex with
    | some idx =>
      have found := keys_in_range ArenaKeyHandle.asBytes idx.keys (fun _ _ => .rfl)
        (.new start) (.new finish)
      rw [← range_eq_filter idx.sorted, ← dropWhile_eq_filter idx.sorted] at found
      simp only [asBytes_new] at found
      exact congrArg (fun keys =>
        Except.ok (visible m.data ArenaKeyHandle.asBytes snapshotTs currentTxnId keys)) found
    | none =>
      exact congrArg Except.ok
        (scanAll_eq m.data ArenaKeyHandle.asBytes snapshotTs currentTxnId (inRange start finish))

theorem rangeInOrder_of_ok {start finish : Bytes} {list : List Pair}
    (answered : (table.scanRange start finish snapshotTs currentTxnId).2 = .ok list) :
    RangeInOrder table start finish := by
  cases table with
  | arena m =>
    intro sliced
    cases sliced
  | standard m =>
    intro sliced bounded
    simp only [MemTableKind.scanRange, MvccMemTable.scanRange] at answered
    cases deferred : m.deferredIndex with
    | none =>
      simp [slices, deferred] at sliced
    | some idx =>
      simp only [keyOrder, deferred]
      simp only [deferred, List.isEmpty_iff, if_neg bounded] at answered
      cases cut : (idx.range start finish).2 with
      | ok keys => exact deferred_range_panics idx cut
      | error panic =>
        rw [cut] at answered
        cases answered

/-- An iterator over a range compacts the index before it starts, and this changes
    neither the keys nor their order. -/
theorem scanRangeIter_eq (start finish : Bytes) :
    (table.scanRangeIter start finish snapshotTs currentTxnId).2 =
      (table.scanRange start finish snapshotTs currentTxnId).2 := by
  cases table with
  | arena m => rfl
  | standard m =>
    simp only [MemTableKind.scanRangeIter, MvccMemTable.scanRangeIter, MemTableKind.scanRange,
      MvccMemTable.scanRange]
    cases m.deferredIndex with
    | none => cases m.orderedIndex <;> rfl
    | some idx =>
      simp only [map_some, DeferredSortedIndex.rangeFrom, DeferredSortedIndex.range]
      rw [compact_ensureCompacted]
      split <;> rfl

end Tables

section Keys
variable {κ : Type} [DecidableEq κ]

theorem isSome_install (data : Map κ VersionChain) (key : κ) (value : Option Bytes) (txnId : Nat) (k : κ) :
    (get (install data key value txnId).1 k).isSome ↔ k = key ∨ (get data k).isSome := by
  simp only [install]
  by_cases same : k = key
  · split <;> simp [get_insert, same]
  · split <;> simp [get_insert, same]

theorem isSome_commitKeys (data : Map κ VersionChain) (txnId commitTs : Nat) (keys : List κ) (k : κ) :
    (get (commitKeys data txnId commitTs keys) k).isSome = (get data k).isSome := by
  unfold commitKeys
  induction keys generalizing data with
  | nil => rfl
  | cons key keys ih =>
    rw [List.foldl_cons, ih, get_adjust]
    by_cases same : k = key
    · simp [same]
    · simp [same]

theorem isSome_gcKeys (minActiveTs : Nat) (keys : List κ) (acc : Map κ VersionChain × Nat) (k : κ) :
    (get (keys.foldl (gcKey minActiveTs) acc).1 k).isSome = (get acc.1 k).isSome := by
  induction keys generalizing acc with
  | nil => rfl
  | cons key keys ih =>
    rw [List.foldl_cons, ih]
    unfold gcKey
    cases found : get acc.1 key with
    | none => rfl
    | some chain =>
      by_cases same : k = key
      · simp [get_insert, same, found]
      · simp [get_insert, same]

end Keys

def holdsKey : MemTableKind → Bytes → Prop
  | .standard m, key => (get m.data key).isSome
  | .arena m, key => (get m.data (.new key)).isSome

def Indexed (table : MemTableKind) : Prop := ∀ key, key ∈ keyOrder table ↔ holdsKey table key

section Compactions
variable (table : MemTableKind) (pre : Bytes) (snapshotTs : Nat) (currentTxnId : Option Nat)

/-- A scan may compact the deferred index, and the order that is read from it stays. -/
theorem keyOrder_scanPrefix :
    keyOrder (table.scanPrefix pre snapshotTs currentTxnId).1 = keyOrder table := by
  cases table with
  | standard m =>
    simp only [MemTableKind.scanPrefix, MvccMemTable.scanPrefix]
    cases deferred : m.deferredIndex with
    | some idx => simp only [keyOrder, deferred, DeferredSortedIndex.rangeFrom, compacted_twice]
    | none => cases m.orderedIndex <;> rfl
  | arena m => rfl

theorem holdsKey_scanPrefix (key : Bytes) :
    holdsKey (table.scanPrefix pre snapshotTs currentTxnId).1 key ↔ holdsKey table key := by
  cases table with
  | standard m =>
    simp only [MemTableKind.scanPrefix, MvccMemTable.scanPrefix]
    cases m.deferredIndex with
    | some idx => rfl
    | none => cases m.orderedIndex <;> rfl
  | arena m => rfl

theorem read_scanPrefix (key : Bytes) (ts : Nat) (txn : Option Nat) :
    (table.scanPrefix pre snapshotTs currentTxnId).1.read key ts txn = table.read key ts txn := by
  cases table with
  | standard m =>
    simp only [MemTableKind.scanPrefix, MvccMemTable.scanPrefix]
    cases m.deferredIndex with
    | some idx => rfl
    | none => cases m.orderedIndex <;> rfl
  | arena m => rfl

/-- What a scan leaves behind answers every later scan as before. -/
theorem scanPrefix_twice (later : Bytes) (ts : Nat) (txn : Option Nat) :
    ((table.scanPrefix pre snapshotTs currentTxnId).1.scanPrefix later ts txn).2 =
      (table.scanPrefix later ts txn).2 := by
  simp only [scanPrefix_eq, entries, keyOrder_scanPrefix, read_scanPrefix]

variable {table} in
theorem indexed_scanPrefix (indexed : Indexed table) :
    Indexed (table.scanPrefix pre snapshotTs currentTxnId).1 := by
  intro key
  rw [keyOrder_scanPrefix, holdsKey_scanPrefix]
  exact indexed key

end Compactions

theorem standard_indexed_iff (m : MvccMemTable) :
    Indexed (.standard m) ↔
      (∀ idx ∈ m.deferredIndex, ∀ key, key ∈ idx.sortedVec ∨ key ∈ idx.hotBuffer ↔ (get m.data key).isSome) ∧
      (m.deferredIndex = none → ∀ idx ∈ m.orderedIndex, ∀ key, key ∈ idx.keys ↔ (get m.data key).isSome) := by
  simp only [Indexed, keyOrder, holdsKey]
  cases m.deferredIndex with
  | some idx => simp [mem_ensureCompacted]
  | none =>
    cases m.orderedIndex with
    | some idx => simp
    | none => simp [mem_pairs, isSome_iff_exists]

theorem arena_indexed_iff (m : ArenaMvccMemTable) :
    Indexed (.arena m) ↔ ∀ idx ∈ m.orderedIndex, ∀ handle, handle ∈ idx.keys ↔ (get m.data handle).isSome := by
  simp only [Indexed, keyOrder, holdsKey]
  cases m.orderedIndex with
  | some idx =>
    simp only [mem_asBytes, mem_def, some.injEq, forall_eq']
    constructor
    · intro all handle
      have := all handle.asBytes
      rwa [new_asBytes] at this
    · intro all key
      exact all (.new key)
  | none =>
    simp only [mem_def, reduceCtorEq, false_imp_iff, implies_true, iff_true]
    intro key
    rw [List.mem_map, isSome_iff_exists]
    constructor
    · rintro ⟨⟨handle, chain⟩, member, rfl⟩
      exact ⟨chain, by rw [new_asBytes]; exact mem_pairs.mp member⟩
    · rintro ⟨chain, found⟩
      exact ⟨(.new key, chain), mem_pairs.mpr found, asBytes_new key⟩

theorem standard_indexed_same {m m' : MvccMemTable} (indexed : Indexed (.standard m))
    (deferred : m'.deferredIndex = m.deferredIndex) (ordered : m'.orderedIndex = m.orderedIndex)
    (kept : ∀ k, (get m'.data k).isSome = (get m.data k).isSome) : Indexed (.standard m') := by
  rw [standard_indexed_iff] at indexed ⊢
  simpa only [deferred, ordered, kept] using indexed

theorem arena_indexed_same {m m' : ArenaMvccMemTable} (indexed : Indexed (.arena m))
    (ordered : m'.orderedIndex = m.orderedIndex)
    (kept : ∀ k, (get m'.data k).isSome = (get m.data k).isSome) : Indexed (.arena m') := by
  rw [arena_indexed_iff] at indexed ⊢
  simpa only [ordered, kept] using indexed

theorem standard_indexed_add {m : MvccMemTable} (indexed : Indexed (.standard m)) (key : Bytes)
    {data : Map Bytes VersionChain}
    (added : ∀ k, (get data k).isSome ↔ k = key ∨ (get m.data k).isSome) (sizeBytes : Nat)
    (dirtyList : EpochDirtyList Bytes) :
    Indexed (.standard ⟨data, (m.indexKey key).deferredIndex, (m.indexKey key).orderedIndex, sizeBytes,
      dirtyList⟩) := by
  rw [standard_indexed_iff] at indexed ⊢
  unfold MvccMemTable.indexKey
  cases deferred : m.deferredIndex with
  | some idx =>
    simp only [deferred, mem_def, some.injEq, forall_eq', reduceCtorEq, false_imp_iff,
      and_true] at indexed ⊢
    intro k
    rw [added, ← indexed]
    simp only [DeferredSortedIndex.insert, List.mem_append, List.mem_singleton]
    tauto
  | none =>
    cases ordered : m.orderedIndex with
    | some idx =>
      simp only [deferred, ordered, mem_def, some.injEq, forall_eq', reduceCtorEq,
        false_imp_iff, implies_true, true_and, forall_true_left] at indexed ⊢
      intro k
      rw [added, ← indexed]
      exact mem_insertKey
    | none => simp [deferred, ordered]

theorem arena_indexed_add {m : ArenaMvccMemTable} (indexed : Indexed (.arena m)) (handle : ArenaKeyHandle)
    {data : Map ArenaKeyHandle VersionChain}
    (added : ∀ k, (get data k).isSome ↔ k = handle ∨ (get m.data k).isSome) (sizeBytes : Nat)
    (dirtyList : EpochDirtyList ArenaKeyHandle) :
    Indexed (.arena ⟨data, (m.trackKey handle).orderedIndex, sizeBytes, dirtyList⟩) := by
  rw [arena_indexed_iff] at indexed ⊢
  unfold ArenaMvccMemTable.trackKey
  cases ordered : m.orderedIndex with
  | some idx =>
    simp only [ordered, map_some, mem_def, some.injEq, forall_eq'] at indexed ⊢
    intro k
    rw [added, ← indexed]
    exact mem_insertKey
  | none => simp

theorem indexKey_isSome (m : MvccMemTable) (key : Bytes) :
    (m.indexKey key).deferredIndex.isSome = m.deferredIndex.isSome ∧
      (m.indexKey key).orderedIndex.isSome = m.orderedIndex.isSome := by
  unfold MvccMemTable.indexKey
  cases deferred : m.deferredIndex with
  | some idx => simp
  | none => cases ordered : m.orderedIndex <;> simp [deferred, ordered]

theorem standard_writeEach_isSome (m : MvccMemTable) (txnId totalSize : Nat)
    (writes : List (Bytes × Option Bytes)) :
    (m.writeEach txnId totalSize writes).1.deferredIndex.isSome = m.deferredIndex.isSome ∧
      (m.writeEach txnId totalSize writes).1.orderedIndex.isSome = m.orderedIndex.isSome := by
  induction writes generalizing m totalSize with
  | nil => exact ⟨rfl, rfl⟩
  | cons w writes ih =>
    simp only [MvccMemTable.writeEach]
    split
    · exact indexKey_isSome m w.1
    · exact ⟨(ih _ _).1.trans (indexKey_isSome m w.1).1, (ih _ _).2.trans (indexKey_isSome m w.1).2⟩

theorem standard_indexed_writeEach (m : MvccMemTable) (indexed : Indexed (.standard m))
    (txnId totalSize : Nat) (writes : List (Bytes × Option Bytes)) :
    Indexed (.standard (m.writeEach txnId totalSize writes).1) := by
  induction writes generalizing m totalSize with
  | nil => exact standard_indexed_same indexed rfl rfl fun _ => rfl
  | cons w writes ih =>
    obtain ⟨key, value⟩ := w
    have added := isSome_install m.data key value txnId
    simp only [MvccMemTable.writeEach, indexKey_data]
    rcases outcome : install m.data key value txnId with ⟨data, _ | _⟩
    · rw [outcome] at added
      exact standard_indexed_add indexed key added _ _
    · rw [outcome] at added
      exact ih _ (standard_indexed_add indexed key added _ _) _

theorem arena_indexed_writeEach (m : ArenaMvccMemTable) (indexed : Indexed (.arena m))
    (txnId totalSize : Nat) (writes : List (Bytes × Option Bytes)) :
    Indexed (.arena (m.writeEach txnId totalSize writes).1) := by
  induction writes generalizing m totalSize with
  | nil => exact arena_indexed_same indexed rfl fun _ => rfl
  | cons w writes ih =>
    obtain ⟨key, value⟩ := w
    have added := isSome_install m.data (.new key) value txnId
    simp only [ArenaMvccMemTable.writeEach]
    rcases outcome : install (m.trackKey (.new key)).data (.new key) value txnId with ⟨data, _ | _⟩
    · rw [show install m.data _ _ _ = _ from outcome] at added
      exact arena_indexed_add indexed (.new key) added _ _
    · rw [show install m.data _ _ _ = _ from outcome] at added
      exact ih _ (arena_indexed_add indexed (.new key) added _ _) _

section Preserved
variable {table : MemTableKind} (indexed : Indexed table)
include indexed

theorem indexed_write (key : Bytes) (value : Option Bytes) (txnId : Nat) :
    Indexed (table.write key value txnId).1 := by
  cases table with
  | standard m =>
    have marked : Indexed (.standard { m with dirtyList := m.dirtyList.recordVersion key }) :=
      standard_indexed_same indexed rfl rfl fun _ => rfl
    have added := isSome_install m.data key value txnId
    simp only [MemTableKind.write, MvccMemTable.write, indexKey_data]
    rcases outcome : install m.data key value txnId with ⟨data, _ | _⟩ <;> rw [outcome] at added <;>
      exact standard_indexed_add marked key added _ _
  | arena m =>
    have added := isSome_install m.data (.new key) value txnId
    simp only [MemTableKind.write, ArenaMvccMemTable.write]
    rcases outcome : install (m.trackKey (.new key)).data (.new key) value txnId with ⟨data, _ | _⟩ <;>
      rw [show install m.data _ _ _ = _ from outcome] at added <;>
      exact arena_indexed_add indexed (.new key) added _ _

theorem indexed_writeBatch (writes : List (Bytes × Option Bytes)) (txnId : Nat) :
    Indexed (table.writeBatch writes txnId).1 := by
  cases table with
  | standard m =>
    apply standard_indexed_writeEach
    exact standard_indexed_same indexed rfl rfl fun _ => rfl
  | arena m => exact arena_indexed_writeEach m indexed txnId 0 writes

theorem indexed_commit (txnId commitTs : Nat) (writeSet : List Bytes) :
    Indexed (table.commit txnId commitTs writeSet) := by
  cases table with
  | standard m => exact standard_indexed_same indexed rfl rfl fun k => isSome_commitKeys ..
  | arena m => exact arena_indexed_same indexed rfl fun k => isSome_commitKeys ..

theorem indexed_abort (txnId : Nat) : Indexed (table.abort txnId) := by
  cases table with
  | standard m =>
    exact standard_indexed_same indexed rfl rfl fun k => by
      rw [MvccMemTable.abort, get_mapValues, isSome_map]
  | arena m =>
    exact arena_indexed_same indexed rfl fun k => by
      rw [ArenaMvccMemTable.abort, get_mapValues, isSome_map]

theorem indexed_gc (minActiveTs : Nat) : Indexed (table.gc minActiveTs).1 := by
  cases table with
  | standard m =>
    have same : (m.gc minActiveTs).1.deferredIndex = m.deferredIndex ∧
        (m.gc minActiveTs).1.orderedIndex = m.orderedIndex := by
      simp only [MvccMemTable.gc]
      split <;> exact ⟨rfl, rfl⟩
    refine standard_indexed_same indexed same.1 same.2 fun k => ?_
    rw [standard_gc, gcKeys, isSome_gcKeys]
  | arena m =>
    refine arena_indexed_same indexed ?_ fun k => ?_
    · simp only [ArenaMvccMemTable.gc]
      split <;> rfl
    · rw [arena_gc, gcKeys, isSome_gcKeys]

theorem mem_entries {snapshotTs : Nat} {currentTxnId : Option Nat} {key value : Bytes} :
    (key, value) ∈ entries table snapshotTs currentTxnId ↔
      table.read key snapshotTs currentTxnId = some value := by
  have held : ∀ key, (table.read key snapshotTs currentTxnId).isSome → key ∈ keyOrder table := by
    intro key shown
    apply (indexed key).mpr
    cases table with
    | standard m =>
      simp only [MemTableKind.read, MvccMemTable.read, readKey] at shown
      simp only [holdsKey]
      cases found : get m.data key <;> simp_all
    | arena m =>
      simp only [MemTableKind.read, ArenaMvccMemTable.read, readKey] at shown
      simp only [holdsKey]
      cases found : get m.data (.new key) <;> simp_all
  rw [entries, List.mem_filterMap]
  constructor
  · rintro ⟨k, _, shown⟩
    rw [map_eq_some_iff] at shown
    obtain ⟨v, read, same⟩ := shown
    cases same
    exact read
  · intro read
    exact ⟨key, held key (by rw [read]; rfl), by rw [read]; rfl⟩

end Preserved

theorem indexed_new (kind : MemTableType) (enableOrderedIndex : Bool) :
    Indexed (.new kind enableOrderedIndex) := by
  cases kind with
  | standard =>
    apply (standard_indexed_iff _).mpr
    cases enableOrderedIndex <;>
      simp [MvccMemTable.withOrderedIndex, MvccMemTable.withIndexMode, DeferredSortedIndex.withConfig]
  | arena =>
    apply (arena_indexed_iff _).mpr
    cases enableOrderedIndex <;> simp [ArenaMvccMemTable.withOrderedIndex, SkipMap.new]

theorem keyOrder_increasing {table : MemTableKind} (index : hasIndex table = true) :
    Increasing (keyOrder table) := by
  cases table with
  | standard m =>
    simp only [hasIndex, keyOrder] at index ⊢
    cases deferred : m.deferredIndex with
    | some idx => exact idx.ensureCompacted.sorted
    | none =>
      cases ordered : m.orderedIndex with
      | some idx => exact idx.sorted
      | none => simp [deferred, ordered] at index
  | arena m =>
    simp only [hasIndex, keyOrder] at index ⊢
    cases ordered : m.orderedIndex with
    | some idx => exact List.pairwise_map.mpr idx.sorted
    | none => simp [ordered] at index

variable (table : MemTableKind)

theorem keyOrder_nodup : (keyOrder table).Nodup := by
  cases index : hasIndex table with
  | true => exact (keyOrder_increasing index).imp fun less => ne_of_lt less
  | false =>
    cases table with
    | standard m =>
      simp only [hasIndex, Bool.or_eq_false_iff, isSome_eq_false_iff, isNone_iff_eq_none] at index
      simp only [keyOrder, index.1, index.2]
      exact pairs_keys_nodup m.data
    | arena m =>
      simp only [hasIndex, isSome_eq_false_iff, isNone_iff_eq_none] at index
      rw [arena_keyOrder, index]
      exact (pairs_keys_nodup m.data).map asBytes_injective

theorem entries_keys_sublist (snapshotTs : Nat) (currentTxnId : Option Nat) :
    ((entries table snapshotTs currentTxnId).map Prod.fst).Sublist (keyOrder table) := by
  unfold entries
  induction keyOrder table with
  | nil => exact .refl _
  | cons key keys ih =>
    cases shown : table.read key snapshotTs currentTxnId with
    | none => simpa [shown] using ih.cons key
    | some value => simpa [shown] using ih.cons_cons key

theorem entries_nodup (snapshotTs : Nat) (currentTxnId : Option Nat) :
    ((entries table snapshotTs currentTxnId).map Prod.fst).Nodup :=
  (keyOrder_nodup table).sublist (entries_keys_sublist table snapshotTs currentTxnId)

end Scans
