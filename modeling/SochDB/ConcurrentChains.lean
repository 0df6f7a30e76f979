import SochDB.VersionChains

/-!
The version chain of the concurrent store. Its collection drops the versions that are old
both by their epoch and by their timestamp, the newest of them included.
-/
namespace ConcurrentChains
open Timeline VersionChains WalRecords

structure VersionEntry where
  commitTs : Nat
  txnId : Nat
  epoch : Nat
  value : Option Bytes
  deriving DecidableEq

instance instChainEntry : ChainEntry VersionEntry where
  commitTs := VersionEntry.commitTs
  txnId := VersionEntry.txnId
  setCommitTs v ts := { v with commitTs := ts }
  commitTs_set _ _ := rfl

abbrev VersionChain := BinarySearchChain VersionEntry

def addUncommitted (chain : VersionChain) (value : Option Bytes) (txnId epoch : Nat) : VersionChain :=
  chain.setUncommitted ⟨0, txnId, epoch, value⟩

section
variable (minEpoch minSnapshotTs : Nat)

def kept (v : VersionEntry) : Bool := minEpoch ≤ v.epoch || minSnapshotTs ≤ v.commitTs

def keep : List VersionEntry → List VersionEntry
  | [] => []
  | newest :: rest => newest :: rest.takeWhile (kept minEpoch minSnapshotTs)

theorem keep_sublist (versions : List VersionEntry) : (keep minEpoch minSnapshotTs versions).Sublist versions := by
  cases versions with
  | nil => exact .refl _
  | cons newest rest => exact (List.takeWhile_sublist _).cons_cons newest

/-- The second component is the number of versions that were dropped. -/
def gc (chain : VersionChain) : VersionChain × Nat :=
  ({ chain with
     committed := keep minEpoch minSnapshotTs chain.committed
     sorted := List.Pairwise.sublist (keep_sublist ..) chain.sorted },
    chain.committed.length - (keep minEpoch minSnapshotTs chain.committed).length)

/-- The version before the first one that is dropped is itself below the bound. -/
def Shadowed : List VersionEntry → Prop
  | newer :: v :: rest =>
    if kept minEpoch minSnapshotTs v then Shadowed (v :: rest) else newer.commitTs < minSnapshotTs
  | _ => True

end

variable {minEpoch minSnapshotTs : Nat}

theorem newestBefore_cons (s : Nat) (v : VersionEntry) (rest : List VersionEntry) :
    newestBefore ChainEntry.commitTs s (v :: rest) =
      if v.commitTs < s then some v else newestBefore ChainEntry.commitTs s rest := by
  by_cases before : v.commitTs < s
  · simp [newestBefore, ChainEntry.commitTs, before]
  · simp [newestBefore, ChainEntry.commitTs, before]

theorem keeps_newest_iff {versions : List VersionEntry} (sorted : Descending ChainEntry.commitTs versions) :
    (∀ s, minSnapshotTs ≤ s → newestBefore ChainEntry.commitTs s (keep minEpoch minSnapshotTs versions) =
      newestBefore ChainEntry.commitTs s versions) ↔ Shadowed minEpoch minSnapshotTs versions := by
  -- along the walk, with the version before the next one in hand
  induction versions with
  | nil => simp [keep, Shadowed]
  | cons newer rest ih =>
    cases rest with
    | nil => simp [keep, Shadowed]
    | cons v rest =>
      obtain ⟨first, later⟩ := List.pairwise_cons.mp sorted
      have older : v.commitTs ≤ newer.commitTs := first v List.mem_cons_self
      unfold Shadowed
      split
      · rename_i stays
        rw [← ih later]
        refine forall_congr' fun s => imp_congr_right fun _ => ?_
        rw [keep, keep, List.takeWhile_cons_of_pos stays, newestBefore_cons, newestBefore_cons s newer]
        by_cases seen : newer.commitTs < s
        · rw [newestBefore_cons, newestBefore_cons s v]
          simp [seen, Nat.lt_of_le_of_lt older seen]
        · simp [seen]
      · rename_i drops
        have old : v.commitTs < minSnapshotTs := by
          simp only [kept, Bool.or_eq_true, decide_eq_true_eq, not_or] at drops
          omega
        rw [keep, List.takeWhile_cons_of_neg drops]
        constructor
        · intro same
          by_contra recent
          have atBound := same minSnapshotTs (le_rfl)
          rw [newestBefore_cons, newestBefore_cons, newestBefore_cons, if_neg recent, if_neg recent,
            if_pos old] at atBound
          cases atBound
        · intro below s reaches
          rw [newestBefore_cons, newestBefore_cons, if_pos (by omega), if_pos (by omega)]

theorem gc_keeps_visible_iff (chain : VersionChain) (minEpoch minSnapshotTs : Nat) :
    (∀ snapshotTs reader, minSnapshotTs ≤ snapshotTs →
      (gc minEpoch minSnapshotTs chain).1.readAt snapshotTs reader = chain.readAt snapshotTs reader) ↔
    Shadowed minEpoch minSnapshotTs chain.committed := by
  rw [← keeps_newest_iff chain.sorted]
  constructor
  · intro same s reaches
    have unread := same s none reaches
    unfold BinarySearchChain.readAt at unread
    rw [BinarySearchChain.readCommitted_eq, BinarySearchChain.readCommitted_eq] at unread
    exact unread
  · intro same s reader reaches
    have committed : (gc minEpoch minSnapshotTs chain).1.readCommitted s = chain.readCommitted s := by
      rw [BinarySearchChain.readCommitted_eq, BinarySearchChain.readCommitted_eq]
      exact same s reaches
    unfold BinarySearchChain.readAt
    rw [committed]
    rfl

/-- Two transactions write the key one after the other. -/
def twoVersions : VersionChain :=
  let first := ((addUncommitted .new (some [1]) 1 0).commit 1 5).1
  ((addUncommitted first (some [2]) 2 0).commit 2 20).1

theorem reader_between_versions_loses :
    twoVersions.readAt 10 none = some ⟨5, 1, 0, some [1]⟩ ∧
    (gc 1 10 twoVersions).1.readAt 10 none = none := by
  decide +kernel

end ConcurrentChains
