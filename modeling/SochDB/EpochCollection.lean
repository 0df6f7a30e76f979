import SochDB.EpochSnapshots

/-!
Collection in the epoch-based store removes every version below its bound, also one that a
reader at or after the bound still looks for.
-/
namespace EpochCollection
open EpochSnapshots KeyedMaps OrderedLookup Runs Option

variable {V : Type}

/-- The version that `read_at_epoch` looks at, with its epoch. -/
def looked (chain : EpochVersionChain V) (targetEpoch : Nat) : Option (Nat × VersionEntry V) :=
  if chain.latestEpoch ≤ targetEpoch then
    (get chain.versions chain.latestEpoch).map (Prod.mk chain.latestEpoch)
  else latestUpTo chain.versions targetEpoch

def Anchored (chain : EpochVersionChain V) (bound : Nat) : Prop :=
  ∀ version ∈ looked chain bound, version.1 < bound → version.2.isDelete = true

/-- `gc` from its first chain to its last, with nothing in between. -/
def gc (store : EpochMvccStore V) : EpochMvccStore V :=
  { store with
    data := retain (fun _ chain => !chain.isEmpty)
      (mapValues (·.gcBeforeEpoch store.manager.minSafeEpoch) store.data) }

theorem shown_eq_none {entry : VersionEntry V} : entry.shown = none ↔ entry.isDelete = true := by
  unfold VersionEntry.shown
  cases entry.isDelete <;> simp

variable {chain : EpochVersionChain V} {bound epoch : Nat}

theorem readAtEpoch_looked :
    chain.readAtEpoch epoch = (looked chain epoch).bind fun version => version.2.shown := by
  unfold EpochVersionChain.readAtEpoch EpochVersionChain.entryAt looked
  split <;> rw [bind_map] <;> rfl

theorem looked_collected :
    looked (chain.gcBeforeEpoch bound) epoch =
      (looked chain epoch).filter fun version => decide (bound ≤ version.1) := by
  unfold looked EpochVersionChain.gcBeforeEpoch
  dsimp only
  split
  · rw [get_retain]
    cases get chain.versions chain.latestEpoch with
    | none => rfl
    | some entry => by_cases kept : bound ≤ chain.latestEpoch <;> simp [filter_some, kept]
  · exact latestUpTo_retain bound

theorem looked_at_bound {version : Nat × VersionEntry V} (found : looked chain epoch = some version)
    (reaches : bound ≤ epoch) (below : version.1 < bound) : looked chain bound = some version := by
  unfold looked at found ⊢
  split at found
  · obtain ⟨entry, present, rfl⟩ := map_eq_some_iff.mp found
    rw [if_pos (Nat.le_of_lt below), present]
    rfl
  · obtain ⟨present, _, greatest⟩ := latestUpTo_spec found
    rw [if_neg (by omega)]
    exact latestUpTo_eq_some.mpr ⟨present, Nat.le_of_lt below, fun j u other inside =>
      greatest j u other (inside.trans reaches)⟩

theorem chain_keeps_iff : (∀ epoch, bound ≤ epoch →
    (chain.gcBeforeEpoch bound).readAtEpoch epoch = chain.readAtEpoch epoch) ↔ Anchored chain bound := by
  constructor
  · intro same version found below
    have atBound := same bound (Nat.le_refl _)
    rw [readAtEpoch_looked, readAtEpoch_looked, looked_collected, found, filter_some,
      if_neg (by simpa using below)] at atBound
    exact shown_eq_none.mp atBound.symm
  · intro anchored epoch reaches
    rw [readAtEpoch_looked, readAtEpoch_looked, looked_collected]
    cases found : looked chain epoch with
    | none => rfl
    | some version =>
      rw [filter_some]
      split
      · rfl
      · rename_i removed
        have below : version.1 < bound := by simpa using removed
        exact (shown_eq_none.mpr (anchored version (looked_at_bound found reaches below) below)).symm

theorem readAtEpoch_empty (empty : chain.isEmpty = true) : chain.readAtEpoch epoch = none := by
  have nothing := (isEmpty_iff _).mp empty
  have unseen : looked chain epoch = none := by
    unfold looked
    rw [nothing, latestUpTo_eq_none.mpr fun k v found => by cases (nothing k).symm.trans found]
    split <;> rfl
  rw [readAtEpoch_looked, unseen]
  rfl

theorem readAtEpoch_gc (store : EpochMvccStore V) (key : Key) :
    (gc store).readAtEpoch key epoch =
      (get store.data key).bind fun chain =>
        (chain.gcBeforeEpoch store.manager.minSafeEpoch).readAtEpoch epoch := by
  unfold EpochMvccStore.readAtEpoch gc
  rw [get_retain, get_mapValues]
  cases get store.data key with
  | none => rfl
  | some chain =>
    rw [map_some, filter_some, bind_some]
    split
    · rfl
    · rename_i empty
      exact (readAtEpoch_empty (by simpa using empty)).symm

theorem collection_keeps_reads_iff :
    (∀ (chain : EpochVersionChain V) bound,
      (∀ epoch, bound ≤ epoch → (chain.gcBeforeEpoch bound).readAtEpoch epoch = chain.readAtEpoch epoch) ↔
        Anchored chain bound) ∧
    ∀ store : EpochMvccStore V,
      (∀ key epoch, store.manager.minSafeEpoch ≤ epoch →
        (gc store).readAtEpoch key epoch = store.readAtEpoch key epoch) ↔
      ∀ key chain, get store.data key = some chain → Anchored chain store.manager.minSafeEpoch := by
  refine ⟨fun chain bound => chain_keeps_iff, fun store => ?_⟩
  constructor
  · intro same key chain found
    refine chain_keeps_iff.mp fun epoch reaches => ?_
    have read := same key epoch reaches
    rw [readAtEpoch_gc, EpochMvccStore.readAtEpoch, found] at read
    exact read
  · intro anchored key epoch reaches
    rw [readAtEpoch_gc, EpochMvccStore.readAtEpoch]
    cases found : get store.data key with
    | none => rfl
    | some chain => exact chain_keeps_iff.mpr (anchored key chain found) epoch reaches

/-- A key is written in epoch 1, and a transaction of epoch 2 comes and goes. -/
def oldValue : List (Step Nat) :=
  writing 0 [120] 7 ++ [.advanceEpoch, .beginTxn 1, .register 1, .abort 1]

theorem only_value_is_collected :
    let store := (run System.step (.new : System Nat) oldValue).store
    store.manager.minSafeEpoch = 2 ∧ store.readAtEpoch [120] 2 = some 7 ∧
      (gc store).readAtEpoch [120] 2 = none := by
  decide +kernel

end EpochCollection
