import SochDB.Library.Runs
import SochDB.Recovery

/-!
The engine with several threads inside it. A begin loads its snapshot, registers and
recomputes the watermark in three steps; a commit is admitted, recomputes the watermark
and publishes its keys one by one; the collector loads the watermark and prunes later.
Run without interruption the steps make up the operations of the engine.
-/
namespace Interleavings
open Runs KeyedMaps WalRecords TxnManager BloomFilter VersionChains MemTables ChainView List
open StorageEngine EngineSteps

/-- A commit inside the memtable's loop. `written` are the keys of which it makes a version,
    `remaining` the keys of the write set that the loop has not reached. -/
structure Publication where
  commitTs : Nat
  written : List Bytes
  remaining : List Bytes

/-- `starting` holds the begins between the load of the counter and the insertion into the
    active map, `collecting` the watermarks that collectors have loaded. -/
structure Threads (H : KeyHashes) where
  store : DurableStorage H
  starting : Map Nat (MvccTransaction H)
  publishing : Map Nat Publication
  collecting : List Nat

inductive Action where
  | beginLoad (mode : TransactionMode) (now : UInt64)
  | beginInsert (txnId : Nat)
  | recompute
  | call (op : Op)
  | commitAdmit (txnId : Nat) (shouldSync : Bool) (now : UInt64)
  | publish (txnId : Nat) (key : Bytes)
  | abortRemove (txnId : Nat) (now : UInt64)
  | gcLoad
  | gcPrune (watermark : Nat)
  deriving DecidableEq, Repr

section Manager
variable {H : KeyHashes} (m : MvccManager H)

/-- `MvccManager::commit` up to the recomputation of the watermark. -/
def decideCommit (txnId : Nat) : MvccManager H × Option (Nat × List Bytes) :=
  match get m.activeTxns txnId with
  | none => (m, none)
  | some txn =>
    if txn.mode = .readWrite && !m.validateSsi txn then (m.removeActive txnId, none)
    else
      let (commitTs, m) := m.allocCommitTs
      let m := m.removeActive txnId
      let needsSsiTracking := txn.mode = .readWrite && !txn.readSet.isEmpty && !txn.writeSet.isEmpty
      let m := if needsSsiTracking then m.trackCommitOwned txnId commitTs txn.footprint else m
      (m, some (commitTs, txn.writeSet))

theorem commit_eq_decided {txnId : Nat} {txn : MvccTransaction H} (found : m.active txnId = some txn) :
    m.commit txnId = ((decideCommit m txnId).1.updateMinActiveTs, (decideCommit m txnId).2) := by
  have known : get m.activeTxns txnId = some txn := found
  simp only [MvccManager.commit, decideCommit, known]
  split <;> rfl

theorem decided_unknown {txnId : Nat} (unknown : m.active txnId = none) : decideCommit m txnId = (m, none) := by
  have gone : get m.activeTxns txnId = none := unknown
  simp only [decideCommit, gone]

theorem decided_verdict (txnId : Nat) : (decideCommit m txnId).2 = (m.commit txnId).2 := by
  cases found : m.active txnId with
  | none => rw [decided_unknown m found, MvccManager.commit_unknown found]
  | some txn => rw [commit_eq_decided m found]

theorem active_decided (txnId other : Nat) :
    (decideCommit m txnId).1.active other = if other = txnId then none else m.active other := by
  rw [← MvccManager.active_commit]
  cases found : m.active txnId with
  | none => rw [decided_unknown m found, MvccManager.commit_unknown found]
  | some txn =>
    rw [commit_eq_decided m found]
    rfl

theorem tsCounter_decided (txnId : Nat) : (decideCommit m txnId).1.tsCounter = (m.commit txnId).1.tsCounter := by
  cases found : m.active txnId with
  | none => rw [decided_unknown m found, MvccManager.commit_unknown found]
  | some txn =>
    rw [commit_eq_decided m found]
    rfl

theorem minActiveTs_decided (txnId : Nat) : (decideCommit m txnId).1.minActiveTs = m.minActiveTs := by
  unfold decideCommit
  cases get m.activeTxns txnId with
  | none => rfl
  | some txn =>
    simp only
    split
    · rfl
    · split
      · exact MvccManager.minActiveTs_trackCommitOwned _ _ _ _
      · rfl

end Manager

section Store
variable {H : KeyHashes} (crc : Crc32fast) (s : DurableStorage H)

/-- The engine's commit up to the memtable: the buffer is flushed, the manager admits the
    transaction and the commit record is written. -/
def admitted (txnId : Nat) (shouldSync : Bool) (now : UInt64) :
    DurableStorage H × Option (Nat × List Bytes) :=
  let s := s.flushPending txnId
  match decideCommit s.mvcc txnId with
  | (mvcc, none) => ({ s with mvcc := mvcc }, none)
  | (mvcc, some outcome) =>
    let wal := s.wal.append crc (TxnWalEntry.txnCommit (UInt64.ofNat txnId) now)
    let wal := if shouldSync then wal.sync else wal
    ({ s with wal := wal, mvcc := mvcc }, some outcome)

/-- The engine's abort up to the recomputation of the watermark. -/
def removed (txnId : Nat) (now : UInt64) : DurableStorage H :=
  let hadWrites := (get s.txnWriteBuffers txnId).isSome
  let s := { s with txnWriteBuffers := s.txnWriteBuffers.erase txnId }
  let s := if hadWrites then
      { s with
        wal := s.wal.abortTransaction crc txnId now
        memtable := s.memtable.abort txnId }
    else s
  { s with mvcc := s.mvcc.removeActive txnId }

local instance bytesLawful : LawfulBEq Bytes := inferInstance

def act (c : Threads H) : Action → Threads H
  | .beginLoad mode now =>
    let (txnId, wal) := c.store.wal.beginTransaction crc now
    { c with
      store := { c.store with wal := wal }
      starting := c.starting.insert txnId (.withMode txnId c.store.mvcc.tsCounter mode) }
  | .beginInsert txnId =>
    match get c.starting txnId with
    | none => c
    | some txn =>
      { c with
        store := { c.store with
          mvcc := { c.store.mvcc with activeTxns := c.store.mvcc.activeTxns.insert txnId txn } }
        starting := c.starting.erase txnId }
  | .recompute => { c with store := { c.store with mvcc := c.store.mvcc.updateMinActiveTs } }
  -- reads and writes stay one step; the other operations come in pieces
  | .call op => if isAccess op then { c with store := step crc c.store op } else c
  | .commitAdmit txnId shouldSync now =>
    match admitted crc c.store txnId shouldSync now with
    | (store, none) => { c with store := store }
    | (store, some (commitTs, writeSet)) =>
      let written := writeSet.filter fun key => ((chainsOf c.store key).own txnId).isSome
      { c with
        store := store
        publishing := c.publishing.insert txnId ⟨commitTs, written, writeSet⟩ }
  | .publish txnId key =>
    match get c.publishing txnId with
    | none => c
    | some p =>
      if key ∈ p.remaining then
        { c with
          store := { c.store with memtable := c.store.memtable.commit txnId p.commitTs [key] }
          publishing := c.publishing.insert txnId { p with remaining := p.remaining.erase key } }
      else c
  | .abortRemove txnId now => { c with store := removed crc c.store txnId now }
  | .gcLoad => { c with collecting := c.store.mvcc.minActiveSnapshot :: c.collecting }
  | .gcPrune watermark =>
    if watermark ∈ c.collecting then
      { c with
        store := { c.store with memtable := (c.store.memtable.gc watermark).1 }
        collecting := c.collecting.erase watermark }
    else c

def idle : Threads H := ⟨s, ∅, ∅, []⟩

end Store

section Parts
variable {H : KeyHashes} (crc : Crc32fast) (c : Threads H)

def starting (txnId : Nat) : Option (MvccTransaction H) := get c.starting txnId

def publication (txnId : Nat) : Option Publication := get c.publishing txnId

def Snapshotted (txnId : Nat) (txn : MvccTransaction H) : Prop :=
  active c.store txnId = some txn ∨ starting c txnId = some txn

variable {txnId : Nat} {key : Bytes} {a : Action} {txn : MvccTransaction H} (s : DurableStorage H)

theorem admitted_cases (txnId : Nat) (shouldSync : Bool) (now : UInt64) :
    (admitted crc s txnId shouldSync now).1.memtable = s.memtable ∧
      (admitted crc s txnId shouldSync now).1.wal.nextTxnId = s.wal.nextTxnId ∧
      (admitted crc s txnId shouldSync now).1.mvcc = (decideCommit s.mvcc txnId).1 ∧
      (admitted crc s txnId shouldSync now).2 = (decideCommit s.mvcc txnId).2 := by
  have flushed : (s.flushPending txnId).wal.nextTxnId = s.wal.nextTxnId := nextTxnId_flushPending s txnId
  have same : (s.flushPending txnId).mvcc = s.mvcc := rfl
  unfold admitted
  simp only [same]
  rcases decideCommit s.mvcc txnId with ⟨mvcc, _ | outcome⟩
  · exact ⟨rfl, flushed, rfl, rfl⟩
  · refine ⟨rfl, ?_, rfl, rfl⟩
    cases shouldSync <;> exact flushed

theorem commitAdmit_store (txnId : Nat) (shouldSync : Bool) (now : UInt64) :
    (act crc c (.commitAdmit txnId shouldSync now)).store =
        (admitted crc c.store txnId shouldSync now).1 ∧
      (act crc c (.commitAdmit txnId shouldSync now)).starting = c.starting ∧
      (act crc c (.commitAdmit txnId shouldSync now)).collecting = c.collecting := by
  simp only [act]
  rcases admitted crc c.store txnId shouldSync now with ⟨store, _ | ⟨commitTs, writeSet⟩⟩ <;>
    exact ⟨rfl, rfl, rfl⟩

theorem removed_parts (txnId : Nat) (now : UInt64) :
    (removed crc s txnId now).mvcc = s.mvcc.removeActive txnId ∧
      (removed crc s txnId now).wal.nextTxnId = s.wal.nextTxnId ∧
      chainsOf (removed crc s txnId now) =
        if (pendingBuffer s txnId).isSome then rollback (chainsOf s) txnId else chainsOf s := by
  unfold removed pendingBuffer
  cases get s.txnWriteBuffers txnId with
  | none => exact ⟨rfl, rfl, rfl⟩
  | some buffer => exact ⟨rfl, rfl, ChainView.chains_abort s.memtable txnId⟩

theorem begins_of_access {op : Op} (access : isAccess op = true) : begins op = false := by
  cases op <;> first | rfl | cases access

theorem holder_access {op : Op} (access : isAccess op = true) (held : holder s key = some txnId) :
    holder (step crc s op) key = some txnId := by
  have written : ∀ writer now k logged value,
      holder (s.writeKey crc writer now k logged value).1 key = some txnId := by
    intro writer now k logged value
    rw [holder_writeKey]
    split
    · rename_i taken
      obtain ⟨rfl, free⟩ := taken
      by_contra different
      exact free ⟨txnId, held, fun same => different (by rw [same])⟩
    · exact held
  cases op with
  | read reader k =>
    show holder (s.read reader k).1 key = some txnId
    rw [holder, chains_read]
    exact held
  | writeRefs writer now k | delete writer now k => exact written writer now k _ _
  | writeBatchRefs writer writes =>
    show holder (s.writeBatchRefs crc writer writes).1 key = some txnId
    rw [holder, (chains_batch crc s writer writes).1]
    exact owner_putAll_kept _ _ _ _ held
  | beginWithMode | beginReadOnlyFast | abortReadOnlyFast | commit | abort | gc => cases access

theorem active_of_act (running : active (act crc c a).store txnId = some txn) :
    (∃ before, active c.store txnId = some before ∧ txn.snapshotTs = before.snapshotTs ∧
        (∀ key ∈ before.writeSet, key ∈ txn.writeSet) ∧
        ∀ op, a = .call op → isAccess op = true → ∀ key ∈ writesOf op txnId, key ∈ txn.writeSet) ∨
      a = .beginInsert txnId ∧ starting c txnId = some txn := by
  have unchanged : (∀ op, a = .call op → isAccess op = false) → active c.store txnId = some txn →
      ∃ before, active c.store txnId = some before ∧ txn.snapshotTs = before.snapshotTs ∧
        (∀ key ∈ before.writeSet, key ∈ txn.writeSet) ∧
        ∀ op, a = .call op → isAccess op = true → ∀ key ∈ writesOf op txnId, key ∈ txn.writeSet := by
    refine fun other found => ⟨txn, found, rfl, fun _ member => member, fun op same access => ?_⟩
    rw [other op same] at access
    cases access
  cases a with
  | beginLoad | recompute | gcLoad => exact .inl (unchanged (by simp) running)
  | beginInsert new =>
    simp only [act] at running
    cases found : get c.starting new with
    | none =>
      rw [found] at running
      exact .inl (unchanged (by simp) running)
    | some loaded =>
      rw [found] at running
      have inserted : get (c.store.mvcc.activeTxns.insert new loaded) txnId = some txn := running
      rw [get_insert] at inserted
      split at inserted
      · rename_i same
        cases inserted
        subst same
        exact .inr ⟨rfl, found⟩
      · exact .inl (unchanged (by simp) inserted)
  | call op =>
    simp only [act] at running
    split at running
    · rename_i access
      refine .inl ?_
      rcases active_of_step crc c.store running with ⟨before, found, goesOn⟩ | ⟨beginning, _⟩
      · refine ⟨before, found, goesOn.snapshotTs, fun key old => (goesOn.writeSet key).mpr (.inl old),
          fun op' same _ key written => ?_⟩
        cases same
        exact (goesOn.writeSet key).mpr (.inr written)
      · rw [begins_of_access access] at beginning
        cases beginning
    · rename_i other
      refine .inl (unchanged (fun op' same => ?_) running)
      cases same
      simpa using other
  | commitAdmit ended shouldSync now =>
    rw [(commitAdmit_store crc c ended shouldSync now).1, active,
      (admitted_cases crc c.store ended shouldSync now).2.2.1, active_decided] at running
    split at running
    · cases running
    · exact .inl (unchanged (by simp) running)
  | publish ended key =>
    simp only [act] at running
    split at running
    · exact .inl (unchanged (by simp) running)
    · split at running <;> exact .inl (unchanged (by simp) running)
  | abortRemove ended now =>
    change active (removed crc c.store ended now) txnId = some txn at running
    rw [active, (removed_parts crc c.store ended now).1, MvccManager.active_removeActive] at running
    split at running
    · cases running
    · exact .inl (unchanged (by simp) running)
  | gcPrune watermark =>
    simp only [act] at running
    split at running <;> exact .inl (unchanged (by simp) running)

theorem starting_of_act (loaded : starting (act crc c a) txnId = some txn) :
    starting c txnId = some txn ∧ a ≠ .beginInsert txnId ∨
      ∃ mode now, a = .beginLoad mode now ∧ txnId = c.store.wal.nextTxnId ∧
        txn.snapshotTs = c.store.mvcc.tsCounter := by
  cases a with
  | beginLoad mode now =>
    have after : starting (act crc c (.beginLoad mode now)) txnId = _ :=
      get_insert c.starting c.store.wal.nextTxnId txnId _
    rw [after] at loaded
    split at loaded
    · rename_i same
      cases loaded
      exact .inr ⟨mode, now, rfl, same, rfl⟩
    · exact .inl ⟨loaded, by simp⟩
  | beginInsert new =>
    refine .inl ?_
    simp only [starting, act] at loaded
    cases found : get c.starting new with
    | none =>
      rw [found] at loaded
      refine ⟨loaded, fun same => ?_⟩
      cases same
      exact absurd (found.symm.trans loaded) (by simp)
    | some txn' =>
      rw [found] at loaded
      simp only [get_erase] at loaded
      split at loaded
      · cases loaded
      · rename_i different
        exact ⟨loaded, fun same => by cases same; exact different rfl⟩
  | commitAdmit ended shouldSync now =>
    rw [starting, (commitAdmit_store crc c ended shouldSync now).2.1] at loaded
    exact .inl ⟨loaded, by simp⟩
  | call | gcPrune =>
    simp only [starting, act] at loaded
    split at loaded <;> exact .inl ⟨loaded, by simp⟩
  | publish ended key =>
    simp only [starting, act] at loaded
    split at loaded
    · exact .inl ⟨loaded, by simp⟩
    · split at loaded <;> exact .inl ⟨loaded, by simp⟩
  | recompute | abortRemove | gcLoad => exact .inl ⟨loaded, by simp⟩

theorem snapshotted_of_act (taken : Snapshotted (act crc c a) txnId txn) :
    (∃ before, Snapshotted c txnId before ∧ txn.snapshotTs = before.snapshotTs) ∨
      ∃ mode now, a = .beginLoad mode now ∧ txn.snapshotTs = c.store.mvcc.tsCounter := by
  rcases taken with running | loaded
  · rcases active_of_act crc c running with ⟨before, found, same, _⟩ | ⟨_, loaded⟩
    · exact .inl ⟨before, .inl found, same⟩
    · exact .inl ⟨txn, .inr loaded, rfl⟩
  · rcases starting_of_act crc c loaded with ⟨old, _⟩ | ⟨mode, now, same, _, stamp⟩
    · exact .inl ⟨txn, .inr old, rfl⟩
    · exact .inr ⟨mode, now, same, stamp⟩

theorem publication_of_act {p : Publication} (going : publication (act crc c a) txnId = some p) :
    (∃ before, publication c txnId = some before ∧ p.commitTs = before.commitTs ∧
        p.written = before.written ∧ p.remaining.Sublist before.remaining ∧
        ∀ key ∈ before.remaining, key ∈ p.remaining ∨ a = .publish txnId key) ∨
      ∃ shouldSync now txn, a = .commitAdmit txnId shouldSync now ∧
        active c.store txnId = some txn ∧ c.store.mvcc.refuses txn = false ∧
        p = ⟨c.store.mvcc.tsCounter, published c.store txnId txn, txn.writeSet⟩ := by
  have unchanged : publication c txnId = some p → ∃ before, publication c txnId = some before ∧
      p.commitTs = before.commitTs ∧ p.written = before.written ∧
      p.remaining.Sublist before.remaining ∧
      ∀ key ∈ before.remaining, key ∈ p.remaining ∨ a = .publish txnId key :=
    fun found => ⟨p, found, rfl, rfl, .refl _, fun _ member => .inl member⟩
  cases a with
  | commitAdmit ended shouldSync now =>
    have outcome := (admitted_cases crc c.store ended shouldSync now).2.2.2
    rw [decided_verdict] at outcome
    simp only [publication, act] at going
    rcases result : admitted crc c.store ended shouldSync now with ⟨store, _ | ⟨commitTs, writeSet⟩⟩
    · rw [result] at going
      exact .inl (unchanged going)
    · rw [result] at going outcome
      simp only [get_insert] at going
      split at going
      · rename_i same
        subst same
        cases going
        cases found : active c.store txnId with
        | none =>
          rw [MvccManager.commit_unknown found] at outcome
          cases outcome
        | some txn =>
          cases verdict : c.store.mvcc.refuses txn with
          | true =>
            rw [MvccManager.commit_refused found verdict] at outcome
            cases outcome
          | false =>
            rw [(MvccManager.commit_accepted found verdict).1] at outcome
            cases outcome
            exact .inr ⟨shouldSync, now, txn, rfl, rfl, verdict, rfl⟩
      · exact .inl (unchanged going)
  | publish ended key =>
    simp only [publication, act] at going
    cases found : get c.publishing ended with
    | none =>
      rw [found] at going
      exact .inl (unchanged going)
    | some before =>
      rw [found] at going
      simp only at going
      split at going
      · rw [get_insert] at going
        split at going
        · rename_i same
          subst same
          cases going
          refine .inl ⟨before, found, rfl, rfl, erase_sublist, fun k member => ?_⟩
          rcases eq_or_ne k key with rfl | other
          · exact .inr rfl
          · exact .inl ((mem_erase_of_ne other).mpr member)
        · exact .inl (unchanged going)
      · exact .inl (unchanged going)
  | beginInsert | call | gcPrune =>
    simp only [publication, act] at going
    split at going <;> exact .inl (unchanged going)
  | beginLoad | recompute | abortRemove | gcLoad => exact .inl (unchanged going)

theorem counters_act (a : Action) :
    (c.store.mvcc.tsCounter ≤ (act crc c a).store.mvcc.tsCounter ∧
      c.store.wal.nextTxnId ≤ (act crc c a).store.wal.nextTxnId) ∧
    (a ≠ .recompute → (act crc c a).store.mvcc.minActiveTs = c.store.mvcc.minActiveTs) := by
  have same : ∀ other : Prop, (c.store.mvcc.tsCounter ≤ c.store.mvcc.tsCounter ∧
      c.store.wal.nextTxnId ≤ c.store.wal.nextTxnId) ∧
      (other → c.store.mvcc.minActiveTs = c.store.mvcc.minActiveTs) :=
    fun _ => ⟨⟨le_rfl, le_rfl⟩, fun _ => rfl⟩
  cases a with
  | beginLoad mode now => exact ⟨⟨le_rfl, Nat.le_succ _⟩, fun _ => rfl⟩
  | beginInsert | gcPrune =>
    simp only [act]
    split <;> exact same _
  | call op =>
    simp only [act]
    split
    · rename_i access
      have quiet : ∀ txnId shouldSync now, op ≠ .commit txnId shouldSync now := by
        rintro txnId shouldSync now rfl
        cases access
      refine ⟨⟨Nat.le_of_eq (tsCounter_quiet crc c.store quiet).symm, ?_⟩,
        fun _ => minActiveTs_access crc c.store access⟩
      rw [nextTxnId_step, begins_of_access access]
      exact le_rfl
    · exact same _
  | commitAdmit ended shouldSync now =>
    obtain ⟨_, sameNext, manager, _⟩ := admitted_cases crc c.store ended shouldSync now
    rw [(commitAdmit_store crc c ended shouldSync now).1, sameNext, manager, tsCounter_decided, minActiveTs_decided]
    refine ⟨⟨?_, le_rfl⟩, fun _ => rfl⟩
    have counter := tsCounter_commit crc c.store ended shouldSync now
    rw [commit_mvcc] at counter
    rw [counter]
    split <;> omega
  | publish ended key =>
    simp only [act]
    split
    · exact same _
    · split <;> exact same _
  | abortRemove ended now =>
    obtain ⟨manager, sameNext, _⟩ := removed_parts crc c.store ended now
    have store : (act crc c (.abortRemove ended now)).store = removed crc c.store ended now := rfl
    rw [store, manager, sameNext]
    exact same _
  | recompute => exact ⟨(same True).1, absurd rfl⟩
  | gcLoad => exact same _

theorem chains_publish {p : Publication} (going : publication c txnId = some p)
    (waiting : key ∈ p.remaining) :
    chainsOf (act crc c (.publish txnId key)).store =
      publish (chainsOf c.store) txnId p.commitTs [key] := by
  have found : get c.publishing txnId = some p := going
  simp only [act, found, if_pos waiting]
  exact chains_commit c.store.memtable txnId p.commitTs [key]

theorem publish_cases (txnId : Nat) (key : Bytes) :
    (∃ p, publication c txnId = some p ∧ key ∈ p.remaining) ∨ act crc c (.publish txnId key) = c := by
  simp only [act, publication]
  cases get c.publishing txnId with
  | none => exact .inr rfl
  | some p =>
    simp only
    split
    · exact .inl ⟨p, rfl, by assumption⟩
    · exact .inr rfl

theorem chains_commitAdmit (txnId : Nat) (shouldSync : Bool) (now : UInt64) :
    chainsOf (act crc c (.commitAdmit txnId shouldSync now)).store = chainsOf c.store := by
  rw [(commitAdmit_store crc c txnId shouldSync now).1, chainsOf,
    (admitted_cases crc c.store txnId shouldSync now).1]
  rfl

theorem chains_abortRemove (txnId : Nat) (now : UInt64) :
    chainsOf (act crc c (.abortRemove txnId now)).store =
      if (pendingBuffer c.store txnId).isSome then rollback (chainsOf c.store) txnId
      else chainsOf c.store :=
  (removed_parts crc c.store txnId now).2.2

theorem chains_beginInsert (txnId : Nat) :
    chainsOf (act crc c (.beginInsert txnId)).store = chainsOf c.store := by
  simp only [act]
  split <;> rfl

theorem chains_gcPrune (watermark : Nat) :
    chainsOf (act crc c (.gcPrune watermark)).store =
      if watermark ∈ c.collecting then
        collect (chainsOf c.store) watermark (dirtyKeys c.store.memtable) else chainsOf c.store := by
  simp only [act]
  split
  · exact chains_gc c.store.memtable watermark
  · rfl

theorem collecting_of_act {watermark : Nat} (loaded : watermark ∈ (act crc c a).collecting) :
    watermark ∈ c.collecting ∨ a = .gcLoad ∧ watermark = c.store.mvcc.minActiveTs := by
  cases a with
  | gcLoad => exact (mem_cons.mp loaded).symm.imp_right fun same => ⟨rfl, same⟩
  | beginInsert | call =>
    simp only [act] at loaded
    split at loaded <;> exact .inl loaded
  | commitAdmit ended shouldSync now =>
    rw [(commitAdmit_store crc c ended shouldSync now).2.2] at loaded
    exact .inl loaded
  | publish ended key =>
    simp only [act] at loaded
    split at loaded
    · exact .inl loaded
    · split at loaded <;> exact .inl loaded
  | gcPrune pruned =>
    simp only [act] at loaded
    split at loaded
    · exact .inl (mem_of_mem_erase loaded)
    · exact .inl loaded
  | beginLoad | recompute | abortRemove => exact .inl loaded

theorem committed_act (a : Action) (key : Bytes) :
    (chainsOf (act crc c a).store key).committed = (chainsOf c.store key).committed ∨
      (∃ watermark, a = .gcPrune watermark) ∨
      ∃ txnId p value, a = .publish txnId key ∧ publication c txnId = some p ∧ key ∈ p.remaining ∧
        (chainsOf c.store key).own txnId = some value ∧
        (chainsOf (act crc c a).store key).committed =
          Timeline.place Version.commitTs ⟨value, txnId, p.commitTs⟩ (chainsOf c.store key).committed := by
  cases a with
  | publish txnId k =>
    rcases publish_cases crc c txnId k with ⟨p, found, member⟩ | same
    · rw [chains_publish crc c found member]
      rcases eq_or_ne key k with rfl | other
      · cases mine : (chainsOf c.store key).own txnId with
        | none =>
          rw [publish_other (.inr mine)]
          exact .inl rfl
        | some value =>
          exact .inr (.inr ⟨txnId, p, value, rfl, found, member, mine,
            (publish_own (by simp) mine p.commitTs).1⟩)
      · rw [publish_other (.inl (by simpa using other))]
        exact .inl rfl
    · rw [same]
      exact .inl rfl
  | call op =>
    refine .inl ?_
    simp only [act]
    split
    · rename_i access
      refine committed_step crc c.store ?_ ?_ key
      · rintro txnId shouldSync now rfl
        cases access
      · rintro rfl
        cases access
    · rfl
  | commitAdmit ended shouldSync now =>
    rw [chains_commitAdmit]
    exact .inl rfl
  | abortRemove ended now =>
    rw [chains_abortRemove]
    refine .inl ?_
    split
    · exact VersionChain.committed_abort _ _
    · rfl
  | beginInsert new =>
    rw [chains_beginInsert]
    exact .inl rfl
  | gcPrune watermark => exact .inr (.inl ⟨watermark, rfl⟩)
  | beginLoad | recompute | gcLoad => exact .inl rfl

/-- A key changes its holder by a write, or loses it as the holder publishes or aborts. -/
theorem holder_act (a : Action) (key : Bytes) :
    holder (act crc c a).store key = holder c.store key ∨
    (∃ op, a = .call op ∧ isAccess op = true ∧
      holder (act crc c a).store key = holder (step crc c.store op) key) ∨
    ∃ txnId, holder c.store key = some txnId ∧ holder (act crc c a).store key = none ∧
      (a = .publish txnId key ∨ ∃ now, a = .abortRemove txnId now) := by
  cases a with
  | publish ended k =>
    rcases publish_cases crc c ended k with ⟨p, found, member⟩ | same
    · rw [holder, chains_publish crc c found member, owner_publish]
      split
      · rename_i lost
        obtain rfl := mem_singleton.mp lost.1
        exact .inr (.inr ⟨ended, lost.2, rfl, .inl rfl⟩)
      · exact .inl rfl
    · rw [same]
      exact .inl rfl
  | call op =>
    simp only [act]
    split
    · exact .inr (.inl ⟨op, rfl, by assumption, rfl⟩)
    · exact .inl rfl
  | commitAdmit ended shouldSync now =>
    rw [holder, chains_commitAdmit]
    exact .inl rfl
  | abortRemove ended now =>
    rw [holder, chains_abortRemove]
    split
    · rw [owner_rollback]
      split
      · rename_i mine
        exact .inr (.inr ⟨ended, mine, rfl, .inr ⟨now, rfl⟩⟩)
      · exact .inl rfl
    · exact .inl rfl
  | beginInsert new =>
    rw [holder, chains_beginInsert]
    exact .inl rfl
  | gcPrune watermark =>
    rw [holder, chains_gcPrune]
    split
    · rw [owner_collect]
      exact .inl rfl
    · exact .inl rfl
  | beginLoad | recompute | gcLoad => exact .inl rfl

theorem holder_of_act (held : holder (act crc c a).store key = some txnId) :
    holder c.store key = some txnId ∨ ∃ op, a = .call op ∧ isAccess op = true ∧ key ∈ writesOf op txnId := by
  rcases holder_act crc c a key with same | ⟨op, isCall, access, after⟩ | ⟨_, _, gone, _⟩
  · exact .inl (same ▸ held)
  · rcases holder_of_step crc c.store (after ▸ held) with before | ⟨written, _⟩
    · exact .inl before
    · exact .inr ⟨op, isCall, access, written⟩
  · cases gone.symm.trans held

theorem holder_kept (held : holder c.store key = some txnId) (stays : ∀ now, a ≠ .abortRemove txnId now)
    (unpublished : a ≠ .publish txnId key) :
    holder (act crc c a).store key = some txnId := by
  rcases holder_act crc c a key with same | ⟨op, _, access, after⟩ | ⟨other, before, _, lost⟩
  · exact same.trans held
  · exact after.trans (holder_access crc c.store access held)
  · obtain rfl := Option.some.inj (held.symm.trans before)
    rcases lost with publishes | ⟨now, aborts⟩
    · exact absurd publishes unpublished
    · exact absurd aborts (stays now)

end Parts

section Uninterrupted
variable {H : KeyHashes} (crc : Crc32fast) (c : Threads H)

theorem begin_in_steps (mode : TransactionMode) (now : UInt64) :
    (run (act crc) c [.beginLoad mode now, .beginInsert c.store.wal.nextTxnId, .recompute]).store =
      (c.store.beginWithMode crc mode now).1 := by
  have loaded : get (act crc c (.beginLoad mode now)).starting c.store.wal.nextTxnId =
      some (.withMode c.store.wal.nextTxnId c.store.mvcc.tsCounter mode) :=
    (get_insert _ _ _ _).trans (if_pos rfl)
  simp only [run_cons, run_nil]
  rw [act.eq_def crc (act crc c (.beginLoad mode now))]
  simp only [loaded]
  rfl

theorem commit_nil (table : MemTableKind) (txnId commitTs : Nat) :
    table.commit txnId commitTs [] = table := by
  cases table <;> rfl

theorem commit_cons (table : MemTableKind) (txnId commitTs : Nat) (key : Bytes) (keys : List Bytes) :
    table.commit txnId commitTs (key :: keys) =
      (table.commit txnId commitTs [key]).commit txnId commitTs keys := by
  cases table <;> rfl

theorem publish_each {txnId commitTs : Nat} {written remaining : List Bytes}
    (going : publication c txnId = some ⟨commitTs, written, remaining⟩) :
    (run (act crc) c (remaining.map (.publish txnId))).store =
      { c.store with memtable := c.store.memtable.commit txnId commitTs remaining } := by
  induction remaining generalizing c with
  | nil => rw [commit_nil, map_nil, run_nil]
  | cons key keys ih =>
    have found : get c.publishing txnId = some ⟨commitTs, written, key :: keys⟩ := going
    have first : act crc c (.publish txnId key) =
        { c with
          store := { c.store with memtable := c.store.memtable.commit txnId commitTs [key] }
          publishing := c.publishing.insert txnId ⟨commitTs, written, keys⟩ } := by
      simp [act, found]
    rw [map_cons, run_cons, commit_cons, ih, first]
    rw [first]
    exact (get_insert _ _ _ _).trans (if_pos rfl)

theorem commit_in_steps {txnId : Nat} {txn : MvccTransaction H} (found : active c.store txnId = some txn)
    (accepted : c.store.mvcc.refuses txn = false) (shouldSync : Bool) (now : UInt64) :
    (run (act crc) c (.commitAdmit txnId shouldSync now :: .recompute ::
        txn.writeSet.map (.publish txnId))).store = (c.store.commit crc txnId shouldSync now).1 := by
  have verdict : (decideCommit c.store.mvcc txnId).2 = some (c.store.mvcc.tsCounter, txn.writeSet) :=
    (decided_verdict _ txnId).trans (MvccManager.commit_accepted found accepted).1
  have manager := commit_eq_decided c.store.mvcc found
  have outcome : decideCommit (c.store.flushPending txnId).mvcc txnId =
      ((decideCommit c.store.mvcc txnId).1, some (c.store.mvcc.tsCounter, txn.writeSet)) := Prod.ext rfl verdict
  have going : publication (act crc (act crc c (.commitAdmit txnId shouldSync now)) .recompute) txnId =
      some ⟨c.store.mvcc.tsCounter, published c.store txnId txn, txn.writeSet⟩ := by
    simp only [publication, act, admitted, outcome]
    exact (get_insert _ _ _ _).trans (if_pos rfl)
  rw [run_cons, run_cons, publish_each crc _ going, commit_succeeded crc c.store found accepted, manager]
  simp only [act, admitted, outcome]
  rfl

theorem write_committed_in_steps :
    let c : Threads lengthHashes := run (act ieee) (idle (.openWith ieee 0 [] .standard true))
      [.beginLoad .readWrite 0, .beginInsert 1, .call (.writeRefs 1 0 [1] [2])]
    (run (act ieee) c [.commitAdmit 1 true 0, .recompute, .publish 1 [1]]).store = (c.store.commit ieee 1 true 0).1 := by
  intro c
  exact @commit_in_steps _ ieee c 1 _ rfl (by decide) true 0

theorem abort_in_steps (txnId : Nat) (now : UInt64) :
    (run (act crc) c [.abortRemove txnId now, .recompute]).store = c.store.abort crc txnId now := by
  show { removed crc c.store txnId now with
    mvcc := (removed crc c.store txnId now).mvcc.updateMinActiveTs } = _
  cases get c.store.txnWriteBuffers txnId <;> rfl

theorem gc_in_steps :
    (run (act crc) c [.gcLoad, .gcPrune c.store.mvcc.minActiveSnapshot]).store = c.store.gc.1 := by
  simp only [run_cons, run_nil, act, mem_cons, true_or, if_true]
  rfl

end Uninterrupted
end Interleavings
