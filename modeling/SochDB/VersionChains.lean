import SochDB.Library.Timeline
import SochDB.WalRecords

/-!
The version chain of one key: committed versions, newest first, and at most one
uncommitted version. Commit timestamp 0 marks a version as uncommitted.
-/
namespace VersionChains
open Timeline WalRecords

class ChainEntry (E : Type) where
  commitTs : E → Nat
  txnId : E → Nat
  setCommitTs : E → Nat → E
  commitTs_set : ∀ e ts, commitTs (setCommitTs e ts) = ts

structure BinarySearchChain (E : Type) [ChainEntry E] where
  committed : List E
  uncommitted : Option E
  sorted : Descending ChainEntry.commitTs committed

namespace BinarySearchChain
variable {E : Type} [ChainEntry E] (chain : BinarySearchChain E)
open ChainEntry

def new : BinarySearchChain E := ⟨[], none, List.Pairwise.nil⟩

def setUncommitted (entry : E) : BinarySearchChain E := { chain with uncommitted := some entry }

/-- The second component is the success flag that the source returns. -/
def commit (txnId commitTs : Nat) : BinarySearchChain E × Bool :=
  match chain.uncommitted with
  | some v =>
    if ChainEntry.txnId v = txnId ∧ ChainEntry.commitTs v = 0 then
      ({ committed := place ChainEntry.commitTs (setCommitTs v commitTs) chain.committed
         uncommitted := none
         sorted := place_descending _ chain.sorted }, true)
    else (chain, false)
  | none => (chain, false)

def abort (txnId : Nat) : BinarySearchChain E :=
  match chain.uncommitted with
  | some v => if ChainEntry.txnId v = txnId then { chain with uncommitted := none } else chain
  | none => chain

def readCommitted (snapshotTs : Nat) : Option E :=
  chain.committed[partitionPoint (fun v => commitTs v ≥ snapshotTs) chain.committed]?

def readAt (snapshotTs : Nat) (currentTxnId : Option Nat) : Option E :=
  match currentTxnId, chain.uncommitted with
  | some txnId, some v =>
    if ChainEntry.txnId v = txnId then some v else chain.readCommitted snapshotTs
  | _, _ => chain.readCommitted snapshotTs

def hasWriteConflict (myTxnId : Nat) : Bool :=
  match chain.uncommitted with
  | some v => txnId v != myTxnId
  | none => false

def gcByTs (minActiveTs : Nat) : BinarySearchChain E :=
  { chain with
    committed := prune commitTs minActiveTs chain.committed
    sorted := prune_descending _ chain.sorted }

def versionCount : Nat := chain.committed.length + (if chain.uncommitted.isSome then 1 else 0)

theorem readCommitted_eq (snapshotTs : Nat) :
    chain.readCommitted snapshotTs = newestBefore commitTs snapshotTs chain.committed := by
  rw [readCommitted, getElem?_partitionPoint, newestBefore]
  congr 1
  funext e
  by_cases seen : commitTs e < snapshotTs
  · simp [seen]
  · simp [seen, Nat.not_lt.mp seen]

theorem abort_committed (txnId : Nat) : (chain.abort txnId).committed = chain.committed := by
  unfold BinarySearchChain.abort
  split
  · split <;> rfl
  · rfl

theorem abort_uncommitted (txnId : Nat) : (chain.abort txnId).uncommitted =
    chain.uncommitted.filter fun v => ChainEntry.txnId v ≠ txnId := by
  unfold BinarySearchChain.abort
  cases held : chain.uncommitted with
  | none => simp [held]
  | some v =>
    by_cases mine : ChainEntry.txnId v = txnId
    · simp [Option.filter, mine]
    · simp [Option.filter, mine, held]

end BinarySearchChain

/-- A value of `none` is a tombstone. -/
structure Version where
  value : Option Bytes
  txnId : Nat
  commitTs : Nat
  deriving DecidableEq, Repr

instance : ChainEntry Version where
  commitTs := Version.commitTs
  txnId := Version.txnId
  setCommitTs v ts := { v with commitTs := ts }
  commitTs_set _ _ := rfl

/-- The slot never holds a version that already has a commit timestamp. -/
structure VersionChain where
  inner : BinarySearchChain Version
  slot_uncommitted : ∀ v ∈ inner.uncommitted, v.commitTs = 0

namespace VersionChain
variable (chain : VersionChain)

def new : VersionChain := ⟨.new, by simp [BinarySearchChain.new]⟩

def committed : List Version := chain.inner.committed

def slot : Option Version := chain.inner.uncommitted

def addUncommitted (value : Option Bytes) (txnId : Nat) : VersionChain :=
  match slotIs : chain.inner.uncommitted with
  | some v =>
    if v.txnId = txnId then
      ⟨chain.inner.setUncommitted { v with value := value }, by
        have := chain.slot_uncommitted v slotIs
        simp [BinarySearchChain.setUncommitted, this]⟩
    else ⟨chain.inner.setUncommitted ⟨value, txnId, 0⟩, by simp [BinarySearchChain.setUncommitted]⟩
  | none => ⟨chain.inner.setUncommitted ⟨value, txnId, 0⟩, by simp [BinarySearchChain.setUncommitted]⟩

def commit (txnId commitTs : Nat) : VersionChain where
  inner := (chain.inner.commit txnId commitTs).1
  slot_uncommitted := by
    unfold BinarySearchChain.commit
    split
    · split
      · simp
      · exact chain.slot_uncommitted
    · exact chain.slot_uncommitted

def abort (txnId : Nat) : VersionChain where
  inner := chain.inner.abort txnId
  slot_uncommitted := by
    unfold BinarySearchChain.abort
    split
    · split
      · simp
      · exact chain.slot_uncommitted
    · exact chain.slot_uncommitted

def readAt (snapshotTs : Nat) (currentTxnId : Option Nat) : Option Version :=
  chain.inner.readAt snapshotTs currentTxnId

def hasWriteConflict (myTxnId : Nat) : Bool := chain.inner.hasWriteConflict myTxnId

def gc (minActiveTs : Nat) : VersionChain :=
  ⟨chain.inner.gcByTs minActiveTs, chain.slot_uncommitted⟩

def versionCount : Nat := chain.inner.versionCount

def own (txnId : Nat) : Option (Option Bytes) :=
  match chain.slot with
  | some v => if v.txnId = txnId then some v.value else none
  | none => none

/-- The value that a reader at a snapshot gets, its own uncommitted write apart. -/
def snapshotValue (snapshotTs : Nat) : Option Bytes :=
  (newestBefore Version.commitTs snapshotTs chain.committed).bind Version.value

theorem sorted : Descending Version.commitTs chain.committed := chain.inner.sorted

/-- The value of the newest committed version; a tombstone counts as no value. -/
def latest : Option Bytes := chain.committed.head?.bind Version.value

theorem snapshotValue_of_past {chain : VersionChain} {snapshotTs : Nat}
    (past : ∀ v ∈ chain.committed, v.commitTs < snapshotTs) :
    chain.snapshotValue snapshotTs = chain.latest := by
  rw [snapshotValue, newestBefore_all past]
  rfl

@[simp] theorem committed_new : new.committed = [] := rfl

@[simp] theorem slot_new : new.slot = none := rfl

variable {txnId : Nat} {value : Option Bytes}

theorem own_some {chain : VersionChain} :
    chain.own txnId = some value ↔ chain.slot = some ⟨value, txnId, 0⟩ := by
  unfold own
  cases held : chain.slot with
  | none => simp
  | some v =>
    obtain ⟨mine, writer, stamp⟩ := v
    obtain rfl : stamp = 0 := chain.slot_uncommitted _ held
    simp only [Option.some.injEq, Version.mk.injEq, and_true]
    split
    · simp [*]
    · simp [*]

@[simp] theorem committed_addUncommitted (value : Option Bytes) (txnId : Nat) :
    (chain.addUncommitted value txnId).committed = chain.committed := by
  unfold addUncommitted
  split
  · split <;> rfl
  · rfl

@[simp] theorem slot_addUncommitted (value : Option Bytes) (txnId : Nat) :
    (chain.addUncommitted value txnId).slot = some ⟨value, txnId, 0⟩ := by
  unfold addUncommitted
  split
  · rename_i v held
    split
    · rename_i same
      simp [slot, BinarySearchChain.setUncommitted, same, chain.slot_uncommitted v held]
    · rfl
  · rfl

theorem commit_own {chain : VersionChain} (mine : chain.own txnId = some value) (commitTs : Nat) :
    (chain.commit txnId commitTs).committed =
        place Version.commitTs ⟨value, txnId, commitTs⟩ chain.committed ∧
      (chain.commit txnId commitTs).slot = none := by
  have held : chain.inner.uncommitted = some ⟨value, txnId, 0⟩ := own_some.mp mine
  have committing : (chain.commit txnId commitTs).inner = (chain.inner.commit txnId commitTs).1 := rfl
  have uncommitted : ChainEntry.txnId (⟨value, txnId, 0⟩ : Version) = txnId ∧
      ChainEntry.commitTs (⟨value, txnId, 0⟩ : Version) = 0 := ⟨rfl, rfl⟩
  simp only [committed, slot, committing, BinarySearchChain.commit, held, if_pos uncommitted]
  exact ⟨rfl, trivial⟩

theorem commit_other {chain : VersionChain} (other : chain.own txnId = none) (commitTs : Nat) :
    chain.commit txnId commitTs = chain := by
  have same : (chain.inner.commit txnId commitTs).1 = chain.inner := by
    unfold BinarySearchChain.commit
    unfold own slot at other
    cases held : chain.inner.uncommitted with
    | none => rfl
    | some v =>
      simp only [held] at other ⊢
      split at other
      · cases other
      · rename_i different
        rw [if_neg fun h => different h.1]
  simp only [commit, same]

@[simp] theorem committed_abort (txnId : Nat) : (chain.abort txnId).committed = chain.committed :=
  chain.inner.abort_committed txnId

theorem slot_abort (txnId : Nat) :
    (chain.abort txnId).slot = chain.slot.filter fun v => v.txnId ≠ txnId :=
  chain.inner.abort_uncommitted txnId

variable (minActiveTs : Nat)

@[simp] theorem committed_gc :
    (chain.gc minActiveTs).committed = prune Version.commitTs minActiveTs chain.committed := rfl

@[simp] theorem slot_gc : (chain.gc minActiveTs).slot = chain.slot := rfl

theorem hasWriteConflict_iff {chain : VersionChain} :
    chain.hasWriteConflict txnId = true ↔ ∃ v ∈ chain.slot, v.txnId ≠ txnId := by
  unfold hasWriteConflict BinarySearchChain.hasWriteConflict slot
  cases chain.inner.uncommitted with
  | none => simp
  | some v => simp [ChainEntry.txnId]

theorem readAt_value (snapshotTs txnId : Nat) :
    (chain.readAt snapshotTs (some txnId)).bind Version.value =
      (chain.own txnId).getD (chain.snapshotValue snapshotTs) := by
  unfold readAt BinarySearchChain.readAt own slot
  cases held : chain.inner.uncommitted with
  | none =>
    simp only [BinarySearchChain.readCommitted_eq]
    rfl
  | some v =>
    by_cases mine : v.txnId = txnId
    · simp [ChainEntry.txnId, mine]
    · simp only [ChainEntry.txnId, mine, if_false, BinarySearchChain.readCommitted_eq]
      rfl

theorem snapshotValue_gc {chain : VersionChain} {minActiveTs snapshotTs : Nat}
    (atOrAfter : minActiveTs ≤ snapshotTs) :
    (chain.gc minActiveTs).snapshotValue snapshotTs = chain.snapshotValue snapshotTs := by
  rw [snapshotValue, committed_gc, newestBefore_prune atOrAfter]
  rfl

theorem snapshotValue_commit {chain : VersionChain} {commitTs : Nat} (mine : chain.own txnId = some value)
    (newest : ∀ v ∈ chain.committed, v.commitTs ≤ commitTs) (snapshotTs : Nat) :
    (chain.commit txnId commitTs).snapshotValue snapshotTs =
      if commitTs < snapshotTs then value else chain.snapshotValue snapshotTs := by
  rw [snapshotValue, (commit_own mine commitTs).1, place_newest newest, newestBefore, List.find?_cons]
  by_cases seen : commitTs < snapshotTs <;> simp [seen, snapshotValue, newestBefore]

def owner : Option Nat := chain.slot.map Version.txnId

@[simp] theorem owner_new : new.owner = none := rfl

@[simp] theorem owner_addUncommitted (value : Option Bytes) (txnId : Nat) :
    (chain.addUncommitted value txnId).owner = some txnId := by
  simp [owner]

@[simp] theorem owner_gc : (chain.gc minActiveTs).owner = chain.owner := rfl

theorem hasWriteConflict_eq_false {chain : VersionChain} :
    chain.hasWriteConflict txnId = false ↔ ∀ holder, chain.owner = some holder → holder = txnId := by
  rw [← Bool.not_eq_true, hasWriteConflict_iff, owner]
  cases chain.slot with
  | none => simp
  | some v => simp

theorem own_isSome {chain : VersionChain} :
    (chain.own txnId).isSome = true ↔ chain.owner = some txnId := by
  unfold own owner
  cases chain.slot with
  | none => simp
  | some v =>
    by_cases mine : v.txnId = txnId <;> simp [mine]

theorem own_addUncommitted (value : Option Bytes) (writer txnId : Nat) :
    (chain.addUncommitted value writer).own txnId = if writer = txnId then some value else none := by
  simp [own]

theorem own_of_owner {chain : VersionChain} {other : Nat} (held : chain.owner = some other)
    (different : other ≠ txnId) : chain.own txnId = none := by
  rw [← Option.not_isSome_iff_eq_none, own_isSome, held]
  exact fun same => different (Option.some.inj same)

theorem own_commit (ended commitTs txnId : Nat) :
    (chain.commit ended commitTs).own txnId = if txnId = ended then none else chain.own txnId := by
  cases mine : chain.own ended with
  | none =>
    rw [commit_other mine]
    split
    · rename_i same
      rw [same, mine]
    · rfl
  | some value =>
    have gone : (chain.commit ended commitTs).own txnId = none := by
      rw [own, (commit_own mine commitTs).2]
    rw [gone]
    split
    · rfl
    · rename_i different
      have holds : chain.owner = some ended := own_isSome.mp (by rw [mine]; rfl)
      exact (own_of_owner holds (Ne.symm different)).symm

theorem own_abort (ended txnId : Nat) :
    (chain.abort ended).own txnId = if txnId = ended then none else chain.own txnId := by
  rw [own, slot_abort, own]
  cases chain.slot with
  | none => simp
  | some v =>
    by_cases mine : v.txnId = ended
    · by_cases same : txnId = ended
      · simp [Option.filter, mine, same]
      · simp [Option.filter, mine, same, Ne.symm same]
    · by_cases same : txnId = ended
      · simp [Option.filter, mine, same]
      · simp [Option.filter, mine, same]

theorem owner_commit (txnId commitTs : Nat) :
    (chain.commit txnId commitTs).owner = if chain.owner = some txnId then none else chain.owner := by
  cases mine : chain.own txnId with
  | none =>
    have other : chain.owner ≠ some txnId := by
      rw [ne_eq, ← own_isSome, mine]
      simp
    rw [commit_other mine, if_neg other]
  | some value =>
    have holds : chain.owner = some txnId := own_isSome.mp (by rw [mine]; rfl)
    rw [if_pos holds, owner, (commit_own mine commitTs).2]
    rfl

theorem owner_abort (txnId : Nat) :
    (chain.abort txnId).owner = if chain.owner = some txnId then none else chain.owner := by
  rw [owner, slot_abort, owner]
  cases chain.slot with
  | none => simp
  | some v => by_cases mine : v.txnId = txnId <;> simp [Option.filter, mine]

end VersionChain
end VersionChains
