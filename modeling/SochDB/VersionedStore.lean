import SochDB.EpochSnapshots
import SochDB.HybridClocks
import SochDB.Library.LittleEndian

/-!
The bitemporal object store over the epoch-based multi-version store: every version of an
object gets its system time from the hybrid logical clock, and an index of the ids that are
there stands beside the version chains.
-/
namespace VersionedStore
open KeyedMaps EpochSnapshots

structure HybridLogicalClock where
  lastTs : UInt64
  lastPhysical : UInt64
  deriving DecidableEq

/-- The timestamp drawn at the reading with which the loop of `next` ends. At a reading for
    which the logical counter is used up the call does not return. -/
def HybridLogicalClock.next (clock : HybridLogicalClock) (physical : UInt64) :
    Option (Nat × HybridLogicalClock) :=
  (HybridClocks.candidate physical clock.lastTs clock.lastPhysical).map fun ts =>
    (ts.toNat, ⟨ts, if clock.lastPhysical < physical then physical else clock.lastPhysical⟩)

structure BitemporalCoord where
  validFrom : Nat
  validTo : Nat
  systemTime : Nat
  deriving DecidableEq

namespace BitemporalCoord

def validAt (coord : BitemporalCoord) (validTime : Nat) : Bool :=
  coord.validFrom ≤ validTime && validTime < coord.validTo

def knownAt (coord : BitemporalCoord) (systemTime : Nat) : Bool := coord.systemTime ≤ systemTime

def visibleAt (coord : BitemporalCoord) (systemTime validTime : Nat) : Bool :=
  coord.knownAt systemTime && coord.validAt validTime

end BitemporalCoord

/-- An object with its content id; what it holds besides does not matter to the store. -/
structure KnowledgeObject (C : Type) where
  oid : Key
  content : C
  temporal : BitemporalCoord
  deriving DecidableEq

def KnowledgeObject.stamped {C : Type} (ko : KnowledgeObject C) (systemTime : Nat) : KnowledgeObject C :=
  { ko with temporal := ⟨ko.temporal.validFrom, ko.temporal.validTo, systemTime⟩ }

structure Codec (C : Type) where
  toCompressedBytes : KnowledgeObject C → Except String Bytes
  fromCompressedBytes : Bytes → Except String (KnowledgeObject C)

inductive VersionedStoreError where
  | serialization (text : String)
  | deserialization (text : String)
  deriving DecidableEq

/-- A transaction that writes and commits with no other step in between. -/
def transact (store : EpochMvccStore Bytes) (writes : List (WriteOp Bytes)) : EpochMvccStore Bytes :=
  let epoch := store.manager.currentEpoch
  let begun := { store with
    manager := store.manager.registerReader epoch, nextTxnId := store.nextTxnId + 1 }
  let written := writes.foldl (fun s op => s.apply epoch store.nextTxnId op) begun
  { written with manager := written.manager.unregisterReader epoch }

/-- `maybe_advance_epoch`, where the time that has passed decides. -/
def maybeAdvanceEpoch (store : EpochMvccStore Bytes) (due : Bool) : EpochMvccStore Bytes :=
  if due then { store with manager := store.manager.advanceEpoch } else store

structure VersionedObjectStore where
  mvcc : EpochMvccStore Bytes
  hlc : HybridLogicalClock
  oidIndex : Map Key Nat

namespace VersionedObjectStore
variable {C : Type} (codec : Codec C) (store : VersionedObjectStore)

def withHlc (hlc : HybridLogicalClock) : VersionedObjectStore := ⟨.new, hlc, ∅⟩

def put (ko : KnowledgeObject C) (physical : UInt64) (due : Bool) :
    Option (Except VersionedStoreError Key × VersionedObjectStore) :=
  (store.hlc.next physical).map fun (systemTime, hlc) =>
    let ko := ko.stamped systemTime
    match codec.toCompressedBytes ko with
    | .error text => (.error (.serialization text), { store with hlc := hlc })
    | .ok bytes => (.ok ko.oid,
      { mvcc := maybeAdvanceEpoch (transact store.mvcc [.put ko.oid bytes]) due
        hlc := hlc
        oidIndex := store.oidIndex.insert ko.oid store.mvcc.manager.currentEpoch })

def prepare : HybridLogicalClock → List (KnowledgeObject C × UInt64) →
    Option (Except String (List (KnowledgeObject C × Bytes)) × HybridLogicalClock)
  | hlc, [] => some (.ok [], hlc)
  | hlc, (ko, physical) :: rest =>
    (hlc.next physical).bind fun (systemTime, hlc) =>
      match codec.toCompressedBytes (ko.stamped systemTime) with
      | .error text => some (.error text, hlc)
      | .ok bytes => (prepare hlc rest).map fun (prepared, hlc) =>
        (prepared.map ((ko.stamped systemTime, bytes) :: ·), hlc)

/-- An object that cannot be serialized ends the batch; the transaction is left open. -/
def putBatch (objects : List (KnowledgeObject C × UInt64)) (due : Bool) :
    Option (Except VersionedStoreError (List Key) × VersionedObjectStore) :=
  (prepare codec store.hlc objects).map fun
    | (.error text, hlc) =>
      let manager := store.mvcc.manager.registerReader store.mvcc.manager.currentEpoch
      (.error (.serialization text),
        { store with
          mvcc := { store.mvcc with manager := manager, nextTxnId := store.mvcc.nextTxnId + 1 }
          hlc := hlc })
    | (.ok prepared, hlc) =>
      let writes := prepared.map fun e => WriteOp.put e.1.oid e.2
      (.ok (prepared.map fun e => e.1.oid),
        { mvcc := maybeAdvanceEpoch (transact store.mvcc writes) due
          hlc := hlc
          oidIndex := prepared.foldl
            (fun index e => index.insert e.1.oid store.mvcc.manager.currentEpoch) store.oidIndex })

def contains (oid : Key) : Bool := (get store.oidIndex oid).isSome

def delete (oid : Key) (due : Bool) : Bool × VersionedObjectStore :=
  if store.contains oid then
    (true, { store with
      mvcc := maybeAdvanceEpoch (transact store.mvcc [.delete oid]) due
      oidIndex := store.oidIndex.erase oid })
  else (false, store)

/-- The transaction of `get` reads at the current epoch and has no writes of its own. -/
def get (oid : Key) : Except VersionedStoreError (Option (KnowledgeObject C)) :=
  match store.mvcc.readAtEpoch oid store.mvcc.manager.currentEpoch with
  | none => .ok none
  | some bytes =>
    match codec.fromCompressedBytes bytes with
    | .ok ko => .ok (some ko)
    | .error text => .error (.deserialization text)

def objectsVisibleAt (systemTime validTime : Nat) : Except VersionedStoreError (List (KnowledgeObject C)) :=
  ((pairs store.oidIndex).mapM fun e => store.get codec e.1).map fun found =>
    found.reduceOption.filter fun ko => ko.temporal.visibleAt systemTime validTime

end VersionedObjectStore

/-- A call with the readings of the physical clock at which its timestamps are drawn, and
    whether an epoch has passed at its end. -/
inductive Op (C : Type) where
  | put (ko : KnowledgeObject C) (physical : UInt64) (due : Bool)
  | putBatch (objects : List (KnowledgeObject C × UInt64)) (due : Bool)
  | delete (oid : Key) (physical : UInt64) (due : Bool)
  | advanceEpoch

/-- A call that does not return is no step. -/
def step {C : Type} (codec : Codec C) (store : VersionedObjectStore) : Op C → VersionedObjectStore
  | .put ko physical due => ((store.put codec ko physical due).map Prod.snd).getD store
  | .putBatch objects due => ((store.putBatch codec objects due).map Prod.snd).getD store
  | .delete oid _ due => (store.delete oid due).2
  | .advanceEpoch => { store with mvcc := maybeAdvanceEpoch store.mvcc true }

end VersionedStore
