import SochDB.Interleavings

/-!
Garbage collection beside running transactions. The watermark is a cached minimum over the
registered snapshots, so a recomputation can overtake a begin that has loaded its snapshot
and not yet registered. If no recomputation goes past such a snapshot, pruning never
changes what any transaction reads.
-/
namespace GcVisibility
open Runs KeyedMaps WalRecords TxnManager BloomFilter VersionChains MemTables ChainView
open StorageEngine EngineSteps Recovery Interleavings

section
variable {H : KeyHashes} (crc : Crc32fast)

/-- The minimum that is stored is not above a snapshot that is loaded and not registered. -/
def RecomputesBelowStarting (c : Threads H) : Action → Prop
  | .recompute => ∀ entry ∈ pairs c.starting,
      c.store.mvcc.updateMinActiveTs.minActiveTs ≤ entry.2.snapshotTs
  | _ => True

instance (c : Threads H) : (a : Action) → Decidable (RecomputesBelowStarting c a)
  | .recompute => inferInstanceAs (Decidable (∀ entry ∈ pairs c.starting, _))
  | .beginLoad _ _ | .beginInsert _ | .call _ | .commitAdmit _ _ _ | .publish _ _ | .abortRemove _ _
  | .gcLoad | .gcPrune _ => inferInstanceAs (Decidable True)

/-- The snapshots with which some transaction reads now or later: those taken, and from the
    counter on those still to come. -/
def MayRead (c : Threads H) (txnId snapshotTs : Nat) : Prop :=
  (∃ txn, Snapshotted c txnId txn ∧ txn.snapshotTs = snapshotTs) ∨ c.store.mvcc.tsCounter ≤ snapshotTs

def Safe (c : Threads H) (watermark : Nat) : Prop :=
  ∀ txnId snapshotTs, MayRead c txnId snapshotTs → watermark ≤ snapshotTs

structure Harmless (c : Threads H) : Prop where
  stamps : ∀ txnId txn, Snapshotted c txnId txn → txn.snapshotTs ≤ c.store.mvcc.tsCounter
  cached : Safe c c.store.mvcc.minActiveTs
  loaded : ∀ watermark ∈ c.collecting, Safe c watermark

section Steps
variable {c : Threads H} {a : Action} {watermark : Nat}

theorem mayRead_of_act {txnId snapshotTs : Nat} (reads : MayRead (act crc c a) txnId snapshotTs) :
    MayRead c txnId snapshotTs := by
  rcases reads with ⟨txn, taken, rfl⟩ | future
  · rcases snapshotted_of_act crc c taken with ⟨before, known, same⟩ | ⟨_, _, _, stamp⟩
    · exact .inl ⟨before, known, same.symm⟩
    · exact .inr (Nat.le_of_eq stamp.symm)
  · exact .inr (Nat.le_trans (counters_act crc c a).1.1 future)

theorem Safe.step (safe : Safe c watermark) : Safe (act crc c a) watermark :=
  fun txnId snapshotTs reads => safe txnId snapshotTs (mayRead_of_act crc reads)

theorem Harmless.recomputed (harmless : Harmless c) (below : RecomputesBelowStarting c .recompute) :
    Safe c c.store.mvcc.updateMinActiveTs.minActiveTs := by
  rintro txnId snapshotTs (⟨txn, running | loaded, rfl⟩ | future)
  · exact MvccManager.watermark_le _ running
  · exact below (txnId, txn) (mem_pairs.mpr loaded)
  · refine Nat.le_trans (MvccManager.watermark_le_counter _ fun other txn running => ?_) future
    exact harmless.stamps other txn (.inl running)

theorem Harmless.step (harmless : Harmless c) (below : RecomputesBelowStarting c a) :
    Harmless (act crc c a) := by
  refine ⟨fun txnId txn taken => ?_, ?_, fun watermark member => ?_⟩
  · refine Nat.le_trans ?_ (counters_act crc c a).1.1
    rcases snapshotted_of_act crc c taken with ⟨before, known, same⟩ | ⟨_, _, _, stamp⟩
    · rw [same]
      exact harmless.stamps txnId before known
    · exact Nat.le_of_eq stamp
  · by_cases recomputes : a = .recompute
    · subst recomputes
      exact Safe.step crc (harmless.recomputed below)
    · rw [(counters_act crc c a).2 recomputes]
      exact harmless.cached.step crc
  · rcases collecting_of_act crc c member with old | ⟨_, rfl⟩
    · exact (harmless.loaded watermark old).step crc
    · exact harmless.cached.step crc

theorem Harmless.prune_invisible (harmless : Harmless c) {txnId snapshotTs : Nat}
    (reads : MayRead c txnId snapshotTs) (key : Bytes) :
    (act crc c (.gcPrune watermark)).store.memtable.read key snapshotTs (some txnId) =
      c.store.memtable.read key snapshotTs (some txnId) := by
  have pruned := congrFun (chains_gcPrune crc c watermark) key
  rw [read_eq, read_eq, readVersion, readVersion, VersionChain.readAt_value, VersionChain.readAt_value]
  change ((chainsOf _ key).own txnId).getD ((chainsOf _ key).snapshotValue snapshotTs) =
    ((chainsOf c.store key).own txnId).getD ((chainsOf c.store key).snapshotValue snapshotTs)
  rw [pruned]
  split
  · rename_i member
    unfold collect
    split
    · rw [VersionChain.snapshotValue_gc (harmless.loaded watermark member txnId snapshotTs reads)]
      rfl
    · rfl
  · rfl

end Steps

theorem fresh_harmless {s : DurableStorage H} (fresh : Fresh s) : Harmless (idle s) := by
  have nobody : ∀ {txnId txn}, ¬ Snapshotted (idle s) txnId txn := by
    rintro txnId txn (running | loaded)
    · exact absurd ((fresh.none_active txnId).symm.trans running) (by simp)
    · exact absurd ((get_empty txnId).symm.trans loaded) (by simp)
  refine ⟨fun _ _ taken => absurd taken nobody, fun txnId snapshotTs _ => ?_, fun _ member => by cases member⟩
  show s.mvcc.minActiveTs ≤ snapshotTs
  rw [fresh.watermark_unset]
  exact Nat.zero_le _

/-- If no recomputation of the watermark goes past a snapshot that a begin has loaded and
    not registered, pruning changes no value that a transaction reads, whether its begin
    has ended, is under way or is still to come. -/
theorem gc_invisible_to_transactions (ourPid : UInt32) (file : Bytes) (kind : MemTableType)
    (enableOrderedIndex recovers : Bool) (before : List Action) :
    let start : Threads H := idle (started crc ourPid file kind enableOrderedIndex recovers)
    let c := run (act crc) start before
    Guarded (act crc) RecomputesBelowStarting start before →
      ∀ txnId snapshotTs, MayRead c txnId snapshotTs → ∀ watermark key,
        (act crc c (.gcPrune watermark)).store.memtable.read key snapshotTs (some txnId) =
          c.store.memtable.read key snapshotTs (some txnId) := by
  intro start c below txnId snapshotTs reads watermark key
  have fresh : Harmless start :=
    fresh_harmless (started_fresh crc ourPid file kind enableOrderedIndex recovers)
  have reached : Harmless c := below.preserves (fun c a harmless guarded => harmless.step crc guarded) fresh
  exact reached.prune_invisible crc reads key

end

def overwrite (txnId : Nat) (value : Bytes) : List Action :=
  [.beginLoad .readWrite 0, .beginInsert txnId, .recompute, .call (.writeRefs txnId 0 [107] value),
    .commitAdmit txnId true 0, .recompute, .publish txnId [107]]

/-- A collector loads the watermark, a reader begins, and the older of two versions is pruned. -/
def prunedBesideReader : List Action :=
  overwrite 1 [1] ++ overwrite 2 [2] ++ [.gcLoad, .beginLoad .readWrite 0, .beginInsert 3, .recompute]

def besideReader : Threads lengthHashes :=
  run (act ieee) (idle (started ieee 0 [] .standard true false)) prunedBesideReader

theorem reader_keeps_its_version :
    (chainsOf besideReader.store [107]).committed.length = 2 ∧
      (chainsOf (act ieee besideReader (.gcPrune 3)).store [107]).committed.length = 1 ∧
      besideReader.store.memtable.read [107] 3 (some 3) = some [2] ∧
      (act ieee besideReader (.gcPrune 3)).store.memtable.read [107] 3 (some 3) =
        besideReader.store.memtable.read [107] 3 (some 3) := by
  have guarded : Guarded (act ieee) RecomputesBelowStarting
      (idle (started ieee 0 [] .standard true false : DurableStorage lengthHashes))
      prunedBesideReader := by decide +kernel
  have running : (active besideReader.store 3).isSome := by decide +kernel
  have stamp : ∀ txn ∈ active besideReader.store 3, txn.snapshotTs = 3 := by decide +kernel
  obtain ⟨txn, found⟩ := Option.isSome_iff_exists.mp running
  have reads : MayRead besideReader 3 3 := .inl ⟨txn, .inl found, stamp txn found⟩
  refine ⟨by decide +kernel, by decide +kernel, by decide +kernel, ?_⟩
  exact gc_invisible_to_transactions ieee 0 [] .standard true false prunedBesideReader guarded
    3 3 reads 3 [107]

/-- The reader loads its snapshot, and before it registers another transaction commits,
    finds no active transaction and moves the watermark past the snapshot. -/
def overtakenBegin : List Action :=
  overwrite 1 [1] ++ [.beginLoad .readWrite 0] ++ overwrite 3 [2] ++ [.gcLoad]

theorem overtaken_begin_loses_its_version :
    let start : Threads lengthHashes := idle (started ieee 0 [] .standard true false)
    let c := run (act ieee) start overtakenBegin
    let finish : List Action := [.beginInsert 2, .recompute]
    ((run (act ieee) c finish).store.read 2 [107]).2.toOption = some (some [1]) ∧
      ((run (act ieee) (act ieee c (.gcPrune 3)) finish).store.read 2 [107]).2.toOption = some none := by
  decide +kernel

end GcVisibility
