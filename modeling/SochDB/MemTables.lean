import SochDB.Library.KeyedMaps
import SochDB.KeyIndexes
import SochDB.VersionChains

/-!
The memtables: a map from keys to version chains, an optional key index for scans and
the list of keys dirtied in each of the last four epochs. The standard table keys its
map by byte strings, the arena table by key handles.
-/
namespace MemTables
open KeyedMaps WalRecords VersionChains KeyIndexes ByteOrder

abbrev Pair := Bytes × Bytes

/-- Ring of the keys written in each epoch; slot `epoch % 4` is the current one. -/
structure EpochDirtyList (κ : Type) where
  epochs : Fin 4 → List κ
  currentEpoch : Nat

namespace EpochDirtyList
variable {κ : Type} (dirty : EpochDirtyList κ)

def new : EpochDirtyList κ := ⟨fun _ => [], 0⟩

def idx : Fin 4 := Fin.ofNat 4 dirty.currentEpoch

def recordVersionsBatch (keys : List κ) : EpochDirtyList κ :=
  { dirty with epochs := Function.update dirty.epochs dirty.idx (dirty.epochs dirty.idx ++ keys) }

def recordVersion (key : κ) : EpochDirtyList κ := dirty.recordVersionsBatch [key]

def advanceEpoch : EpochDirtyList κ × List κ :=
  (⟨Function.update dirty.epochs dirty.idx [], dirty.currentEpoch + 1⟩, dirty.epochs dirty.idx)

end EpochDirtyList

def writeConflict : SochDBError := .internal "Write-write conflict detected"

def valueSize (value : Option Bytes) : Nat := (value.map List.length).getD 0

section Chains
variable {κ : Type} [DecidableEq κ]

/-- The entry that both tables update: the chain of the key, made if it is missing. The
    flag tells whether the write was taken. -/
def install (data : Map κ VersionChain) (key : κ) (value : Option Bytes) (txnId : Nat) :
    Map κ VersionChain × Bool :=
  let entry := (get data key).getD VersionChain.new
  if entry.hasWriteConflict txnId then (data.insert key entry, false)
  else (data.insert key (entry.addUncommitted value txnId), true)

def readVersion (chain : VersionChain) (snapshotTs : Nat) (currentTxnId : Option Nat) : Option Bytes :=
  (chain.readAt snapshotTs currentTxnId).bind Version.value

def readKey (data : Map κ VersionChain) (key : κ) (snapshotTs : Nat) (currentTxnId : Option Nat) :
    Option Bytes :=
  (get data key).bind fun chain => readVersion chain snapshotTs currentTxnId

def commitKeys (data : Map κ VersionChain) (txnId commitTs : Nat) (writeSet : List κ) :
    Map κ VersionChain :=
  writeSet.foldl (fun data key => adjust data key (·.commit txnId commitTs)) data

def gcKey (minActiveTs : Nat) (acc : Map κ VersionChain × Nat) (key : κ) : Map κ VersionChain × Nat :=
  match get acc.1 key with
  | some chain =>
    (acc.1.insert key (chain.gc minActiveTs),
      acc.2 + (chain.versionCount - (chain.gc minActiveTs).versionCount))
  | none => acc

/-- The loop of `gc` over the distinct dirty keys, with the number of versions freed. -/
def gcKeys (data : Map κ VersionChain) (minActiveTs : Nat) (keys : List κ) : Map κ VersionChain × Nat :=
  keys.foldl (gcKey minActiveTs) (data, 0)

def visible (data : Map κ VersionChain) (asBytes : κ → Bytes) (snapshotTs : Nat)
    (currentTxnId : Option Nat) (keys : List κ) : List Pair :=
  keys.filterMap fun key =>
    (readKey data key snapshotTs currentTxnId).map fun value => (asBytes key, value)

/-- The fallback without an index: every entry that passes the test. -/
def scanAll (data : Map κ VersionChain) (asBytes : κ → Bytes) (snapshotTs : Nat)
    (currentTxnId : Option Nat) (keep : Bytes → Bool) : List Pair :=
  (pairs data).filterMap fun entry =>
    if keep (asBytes entry.1) then
      (readVersion entry.2 snapshotTs currentTxnId).map fun value => (asBytes entry.1, value)
    else none

end Chains

def inRange (start finish key : Bytes) : Bool :=
  if key < start then false
  else if !finish.isEmpty && !(key < finish) then false
  else true

structure MvccMemTable where
  data : Map Bytes VersionChain
  deferredIndex : Option DeferredSortedIndex
  orderedIndex : Option (SkipMap Bytes)
  sizeBytes : Nat
  dirtyList : EpochDirtyList Bytes

namespace MvccMemTable
variable (m : MvccMemTable)

def withIndexMode (enableOrderedIndex useDeferred : Bool) : MvccMemTable where
  data := ∅
  deferredIndex := if enableOrderedIndex && useDeferred then some (.withConfig 10000) else none
  orderedIndex := if enableOrderedIndex && !useDeferred then some .new else none
  sizeBytes := 0
  dirtyList := .new

def withOrderedIndex (enableOrderedIndex : Bool) : MvccMemTable := withIndexMode enableOrderedIndex true

def indexKey (key : Bytes) : MvccMemTable :=
  match m.deferredIndex, m.orderedIndex with
  | some idx, _ => { m with deferredIndex := some (idx.insert key) }
  | none, some idx => { m with orderedIndex := some (idx.insert key) }
  | none, none => m

def write (key : Bytes) (value : Option Bytes) (txnId : Nat) : MvccMemTable × Except SochDBError Unit :=
  let m := { m with dirtyList := m.dirtyList.recordVersion key }
  let m := m.indexKey key
  match install m.data key value txnId with
  | (data, false) => ({ m with data := data }, .error writeConflict)
  | (data, true) =>
    ({ m with data := data, sizeBytes := m.sizeBytes + (key.length + valueSize value) }, .ok ())

/-- The loop of `write_batch`; a conflict leaves the keys before it installed. -/
def writeEach (m : MvccMemTable) (txnId totalSize : Nat) :
    List (Bytes × Option Bytes) → MvccMemTable × Except SochDBError Unit
  | [] => ({ m with sizeBytes := m.sizeBytes + totalSize }, .ok ())
  | (key, value) :: writes =>
    let m := m.indexKey key
    match install m.data key value txnId with
    | (data, false) => ({ m with data := data }, .error writeConflict)
    | (data, true) =>
      writeEach { m with data := data } txnId (totalSize + (key.length + valueSize value)) writes

/-- All keys of the batch are marked dirty before the first one is tried. -/
def writeBatch (writes : List (Bytes × Option Bytes)) (txnId : Nat) :
    MvccMemTable × Except SochDBError Unit :=
  let m := { m with dirtyList := m.dirtyList.recordVersionsBatch (writes.map Prod.fst) }
  writeEach m txnId 0 writes

def read (key : Bytes) (snapshotTs : Nat) (currentTxnId : Option Nat) : Option Bytes :=
  readKey m.data key snapshotTs currentTxnId

def commit (txnId commitTs : Nat) (writeSet : List Bytes) : MvccMemTable :=
  { m with data := commitKeys m.data txnId commitTs writeSet }

def abort (txnId : Nat) : MvccMemTable := { m with data := mapValues (·.abort txnId) m.data }

def gc (minActiveTs : Nat) : MvccMemTable × Nat :=
  let (dirtyList, dirtyKeys) := m.dirtyList.advanceEpoch
  let m := { m with dirtyList := dirtyList }
  if dirtyKeys.isEmpty then (m, 0)
  else
    let (data, gcCount) := gcKeys m.data minActiveTs dirtyKeys.dedup
    ({ m with data := data }, gcCount)

/-- The first component is the table after the scan, which may have compacted its index. -/
def scanPrefix (pre : Bytes) (snapshotTs : Nat) (currentTxnId : Option Nat) :
    MvccMemTable × List Pair :=
  match m.deferredIndex, m.orderedIndex with
  | some idx, _ =>
    let (idx, keys) := idx.rangeFrom pre
    ({ m with deferredIndex := some idx },
      visible m.data id snapshotTs currentTxnId (keys.takeWhile pre.isPrefixOf))
  | none, some idx =>
    (m, visible m.data id snapshotTs currentTxnId ((idx.rangeFrom pre).takeWhile pre.isPrefixOf))
  | none, none => (m, scanAll m.data id snapshotTs currentTxnId pre.isPrefixOf)

def scanRange (start finish : Bytes) (snapshotTs : Nat) (currentTxnId : Option Nat) :
    MvccMemTable × Except Panic (List Pair) :=
  match m.deferredIndex, m.orderedIndex with
  | some idx, _ =>
    if finish.isEmpty then
      let (idx, keys) := idx.rangeFrom start
      ({ m with deferredIndex := some idx }, .ok (visible m.data id snapshotTs currentTxnId keys))
    else
      let (idx, keys) := idx.range start finish
      ({ m with deferredIndex := some idx }, keys.map (visible m.data id snapshotTs currentTxnId))
  | none, some idx =>
    let keys := if finish.isEmpty then idx.rangeFrom start else idx.range start finish
    (m, .ok (visible m.data id snapshotTs currentTxnId keys))
  | none, none => (m, .ok (scanAll m.data id snapshotTs currentTxnId (inRange start finish)))

/-- The index is compacted when the iterator is made and looked up at its first step;
    the result is everything that the iterator then yields. -/
def scanRangeIter (start finish : Bytes) (snapshotTs : Nat) (currentTxnId : Option Nat) :
    MvccMemTable × Except Panic (List Pair) :=
  let m := { m with deferredIndex := m.deferredIndex.map DeferredSortedIndex.compact }
  m.scanRange start finish snapshotTs currentTxnId

end MvccMemTable

structure ArenaMvccMemTable where
  data : Map ArenaKeyHandle VersionChain
  orderedIndex : Option (SkipMap ArenaKeyHandle)
  sizeBytes : Nat
  dirtyList : EpochDirtyList ArenaKeyHandle

namespace ArenaMvccMemTable
variable (m : ArenaMvccMemTable)

def withOrderedIndex (enableOrderedIndex : Bool) : ArenaMvccMemTable where
  data := ∅
  orderedIndex := if enableOrderedIndex then some .new else none
  sizeBytes := 0
  dirtyList := .new

/-- Mark the key dirty and put it into the index, as `write` and `write_batch` both do
    right before they touch the chain. -/
def trackKey (handle : ArenaKeyHandle) : ArenaMvccMemTable :=
  { m with
    dirtyList := m.dirtyList.recordVersion handle
    orderedIndex := m.orderedIndex.map (·.insert handle) }

def write (key : Bytes) (value : Option Bytes) (txnId : Nat) :
    ArenaMvccMemTable × Except SochDBError Unit :=
  let keyHandle := ArenaKeyHandle.new key
  let m := m.trackKey keyHandle
  match install m.data keyHandle value txnId with
  | (data, false) => ({ m with data := data }, .error writeConflict)
  | (data, true) =>
    ({ m with data := data, sizeBytes := m.sizeBytes + (key.length + valueSize value) }, .ok ())

/-- A key is marked dirty only when the loop reaches it. -/
def writeEach (m : ArenaMvccMemTable) (txnId totalSize : Nat) :
    List (Bytes × Option Bytes) → ArenaMvccMemTable × Except SochDBError Unit
  | [] => ({ m with sizeBytes := m.sizeBytes + totalSize }, .ok ())
  | (key, value) :: writes =>
    let keyHandle := ArenaKeyHandle.new key
    let m := m.trackKey keyHandle
    match install m.data keyHandle value txnId with
    | (data, false) => ({ m with data := data }, .error writeConflict)
    | (data, true) =>
      writeEach { m with data := data } txnId (totalSize + (key.length + valueSize value)) writes

def writeBatch (writes : List (Bytes × Option Bytes)) (txnId : Nat) :
    ArenaMvccMemTable × Except SochDBError Unit :=
  writeEach m txnId 0 writes

def read (key : Bytes) (snapshotTs : Nat) (currentTxnId : Option Nat) : Option Bytes :=
  readKey m.data (ArenaKeyHandle.new key) snapshotTs currentTxnId

def commit (txnId commitTs : Nat) (writeSet : List Bytes) : ArenaMvccMemTable :=
  { m with data := commitKeys m.data txnId commitTs (writeSet.map ArenaKeyHandle.new) }

def abort (txnId : Nat) : ArenaMvccMemTable := { m with data := mapValues (·.abort txnId) m.data }

def gc (minActiveTs : Nat) : ArenaMvccMemTable × Nat :=
  let (dirtyList, dirtyKeys) := m.dirtyList.advanceEpoch
  let m := { m with dirtyList := dirtyList }
  if dirtyKeys.isEmpty then (m, 0)
  else
    let (data, gcCount) := gcKeys m.data minActiveTs dirtyKeys.dedup
    ({ m with data := data }, gcCount)

def scanPrefix (pre : Bytes) (snapshotTs : Nat) (currentTxnId : Option Nat) : List Pair :=
  match m.orderedIndex with
  | some idx =>
    visible m.data ArenaKeyHandle.asBytes snapshotTs currentTxnId
      ((idx.rangeFrom (ArenaKeyHandle.new pre)).takeWhile fun key => pre.isPrefixOf key.asBytes)
  | none => scanAll m.data ArenaKeyHandle.asBytes snapshotTs currentTxnId pre.isPrefixOf

def scanRange (start finish : Bytes) (snapshotTs : Nat) (currentTxnId : Option Nat) : List Pair :=
  match m.orderedIndex with
  | some idx =>
    let startHandle := ArenaKeyHandle.new start
    let endHandle := ArenaKeyHandle.new finish
    let keys := if finish.isEmpty then idx.rangeFrom startHandle else idx.range startHandle endHandle
    visible m.data ArenaKeyHandle.asBytes snapshotTs currentTxnId keys
  | none => scanAll m.data ArenaKeyHandle.asBytes snapshotTs currentTxnId (inRange start finish)

end ArenaMvccMemTable

inductive MemTableType where
  | standard | arena
  deriving DecidableEq, Repr

inductive MemTableKind where
  | standard (m : MvccMemTable)
  | arena (m : ArenaMvccMemTable)

namespace MemTableKind

def new (kind : MemTableType) (enableOrderedIndex : Bool) : MemTableKind :=
  match kind with
  | .standard => standard (MvccMemTable.withOrderedIndex enableOrderedIndex)
  | .arena => arena (ArenaMvccMemTable.withOrderedIndex enableOrderedIndex)

def write (table : MemTableKind) (key : Bytes) (value : Option Bytes) (txnId : Nat) :
    MemTableKind × Except SochDBError Unit :=
  match table with
  | standard m => (standard (m.write key value txnId).1, (m.write key value txnId).2)
  | arena m => (arena (m.write key value txnId).1, (m.write key value txnId).2)

def writeBatch (table : MemTableKind) (writes : List (Bytes × Option Bytes)) (txnId : Nat) :
    MemTableKind × Except SochDBError Unit :=
  match table with
  | standard m => (standard (m.writeBatch writes txnId).1, (m.writeBatch writes txnId).2)
  | arena m => (arena (m.writeBatch writes txnId).1, (m.writeBatch writes txnId).2)

def read (table : MemTableKind) (key : Bytes) (snapshotTs : Nat) (currentTxnId : Option Nat) :
    Option Bytes :=
  match table with
  | standard m => m.read key snapshotTs currentTxnId
  | arena m => m.read key snapshotTs currentTxnId

def commit (table : MemTableKind) (txnId commitTs : Nat) (writeSet : List Bytes) : MemTableKind :=
  match table with
  | standard m => standard (m.commit txnId commitTs writeSet)
  | arena m => arena (m.commit txnId commitTs writeSet)

def abort (table : MemTableKind) (txnId : Nat) : MemTableKind :=
  match table with
  | standard m => standard (m.abort txnId)
  | arena m => arena (m.abort txnId)

def gc (table : MemTableKind) (minActiveTs : Nat) : MemTableKind × Nat :=
  match table with
  | standard m => (standard (m.gc minActiveTs).1, (m.gc minActiveTs).2)
  | arena m => (arena (m.gc minActiveTs).1, (m.gc minActiveTs).2)

def scanPrefix (table : MemTableKind) (pre : Bytes) (snapshotTs : Nat) (currentTxnId : Option Nat) :
    MemTableKind × List Pair :=
  match table with
  | standard m =>
    (standard (m.scanPrefix pre snapshotTs currentTxnId).1, (m.scanPrefix pre snapshotTs currentTxnId).2)
  | arena m => (table, m.scanPrefix pre snapshotTs currentTxnId)

def scanRange (table : MemTableKind) (start finish : Bytes) (snapshotTs : Nat)
    (currentTxnId : Option Nat) : MemTableKind × Except Panic (List Pair) :=
  match table with
  | standard m =>
    (standard (m.scanRange start finish snapshotTs currentTxnId).1,
      (m.scanRange start finish snapshotTs currentTxnId).2)
  | arena m => (table, .ok (m.scanRange start finish snapshotTs currentTxnId))

def scanRangeIter (table : MemTableKind) (start finish : Bytes) (snapshotTs : Nat)
    (currentTxnId : Option Nat) : MemTableKind × Except Panic (List Pair) :=
  match table with
  | standard m =>
    (standard (m.scanRangeIter start finish snapshotTs currentTxnId).1,
      (m.scanRangeIter start finish snapshotTs currentTxnId).2)
  | arena _ => table.scanRange start finish snapshotTs currentTxnId

end MemTableKind
end MemTables
