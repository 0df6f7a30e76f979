import SochDB.Histories

/-!
Read-write transactions under point accesses. Every read is answered from the state that
the commits before the snapshot left, with the transaction's own writes on top, and the
tracked key sets cover what was read and written.
-/
namespace SnapshotReads
open Serialization WalRecords TxnManager BloomFilter VersionChains List
open ChainView StorageEngine EngineSteps Recovery Histories

abbrev Transactions := List (Txn Bytes (Option Bytes))

def txnOf (c : Committed) : Txn Bytes (Option Bytes) := ⟨c.snapshotTs, c.commitTs, c.accesses⟩

structure Recorded (base : Bytes → Option Bytes) (readSet writeSet : List Bytes)
    (accesses : Accesses) : Prop where
  reads : ∀ key, readsOutside accesses key → key ∈ readSet
  writes : ∀ key, writes accesses key = true → key ∈ writeSet
  answered : (perform base accesses).isSome

theorem Recorded.nothing (base : Bytes → Option Bytes) (readSet writeSet : List Bytes) :
    Recorded base readSet writeSet [] :=
  ⟨fun _ outside => (by cases outside), fun _ written => (by cases written), rfl⟩

variable {base : Bytes → Option Bytes} {readSet writeSet : List Bytes} {accesses : Accesses}
  {more : List Bytes} {key : Bytes}

theorem Recorded.read (recorded : Recorded base readSet writeSet accesses)
    (tracked : ∀ k, k = key ∨ k ∈ readSet → k ∈ more) :
    Recorded base more writeSet
      (accesses ++ [.read key ((lastWrite accesses key).getD (base key))]) := by
  refine ⟨fun k outside => ?_, fun k written => ?_, ?_⟩
  · rcases readsOutside_append outside with before | ⟨_, same⟩
    · exact tracked k (.inr (recorded.reads k before))
    · cases same
      exact tracked _ (.inl rfl)
  · rw [writes_iff_lastWrite, lastWrite_append, lastWrite, lastWrite, Option.none_or,
      ← writes_iff_lastWrite] at written
    exact recorded.writes k written
  · refine perform_append_one _ recorded.answered fun k v same => ?_
    cases same
    rfl

theorem Recorded.write (recorded : Recorded base readSet writeSet accesses)
    (tracked : ∀ k, k = key ∨ k ∈ writeSet → k ∈ more) (value : Option Bytes) :
    Recorded base readSet more (accesses ++ [.write key value]) := by
  refine ⟨fun k outside => ?_, fun k written => ?_, ?_⟩
  · rcases readsOutside_append outside with before | ⟨_, same⟩
    · exact recorded.reads k before
    · cases same
  · simp only [Serialization.writes, any_append, Bool.or_eq_true, any_cons, any_nil,
      Bool.or_false, decide_eq_true_eq] at written
    rcases written with before | rfl
    · exact tracked k (.inr (recorded.writes k before))
    · exact tracked _ (.inl rfl)
  · exact perform_append_one _ recorded.answered fun k v same => by cases same

section
variable {H : KeyHashes} (crc : Crc32fast)

def transactions (o : Observed H) : Transactions := o.history.map txnOf

/-- A call of a read-write transaction that accesses single keys, with its reads tracked. -/
def PointAccess (s : DurableStorage H) : Op → Prop
  | .beginWithMode mode _ => mode = .readWrite
  | .read txnId _ => ∃ txn ∈ active s txnId, txn.readSet.length < 10000
  | .writeRefs txnId _ _ _ | .delete txnId _ _ => (active s txnId).isSome
  | .commit _ _ _ | .abort _ _ => True
  | .beginReadOnlyFast | .abortReadOnlyFast _ | .writeBatchRefs _ _ | .gc => False

instance (s : DurableStorage H) : (op : Op) → Decidable (PointAccess s op)
  | .beginWithMode mode _ => inferInstanceAs (Decidable (mode = .readWrite))
  | .read txnId _ => inferInstanceAs (Decidable (∃ txn ∈ active s txnId, txn.readSet.length < 10000))
  | .writeRefs txnId _ _ _ | .delete txnId _ _ => inferInstanceAs (Decidable ((active s txnId).isSome))
  | .commit _ _ _ | .abort _ _ => inferInstanceAs (Decidable True)
  | .beginReadOnlyFast | .abortReadOnlyFast _ | .writeBatchRefs _ _ | .gc =>
    inferInstanceAs (Decidable False)

structure Sound (init : Bytes → Option Bytes) (h : Transactions) (s : DurableStorage H) (txnId : Nat)
    (txn : MvccTransaction H) (accesses : Accesses) : Prop where
  mode : txn.mode = .readWrite
  slots : ∀ key, (chainsOf s key).own txnId = lastWrite accesses key
  recorded : Recorded (snapshot init h txn.snapshotTs) txn.readSet txn.writeSet accesses

structure Faithful (first : Nat) (init : Bytes → Option Bytes) (o : Observed H) : Prop where
  holders : ∀ key txnId, holder o.store key = some txnId → txnId < o.store.wal.nextTxnId
  running : ∀ txnId txn, active o.store txnId = some txn →
    Sound init (transactions o) o.store txnId txn (o.accesses txnId)
  ended : ∀ c ∈ o.history,
    Recorded (snapshot init (transactions o) c.snapshotTs) c.readSet c.writeSet c.accesses
  values : ∀ ts, first ≤ ts → ∀ key,
    (chainsOf o.store key).snapshotValue ts = snapshot init (transactions o) ts key

theorem fresh_faithful {s : DurableStorage H} (fresh : Fresh s) :
    Faithful s.mvcc.tsCounter (committedValues s) (unobserved s) where
  holders key txnId held := by
    have free : holder s key = none := by rw [holder, VersionChain.owner, fresh.slots_free]; rfl
    exact absurd (free.symm.trans held) (by simp)
  running txnId txn found := by
    have none : active s txnId = none := fresh.none_active txnId
    exact absurd (none.symm.trans found) (by simp)
  ended := by simp [unobserved]
  values ts late key := VersionChain.snapshotValue_of_past fun v member =>
    Nat.lt_of_lt_of_le (fresh.stamps_past key v member) late

section Steps
variable {first : Nat} {init : Bytes → Option Bytes} {h : Transactions} {s : DurableStorage H}
variable {o : Observed H} {txnId : Nat} {txn : MvccTransaction H} {accesses : Accesses}

theorem Sound.elsewhere (sound : Sound init h s txnId txn accesses) {after : DurableStorage H}
    (same : ∀ key, (chainsOf after key).own txnId = (chainsOf s key).own txnId) :
    Sound init h after txnId txn accesses :=
  ⟨sound.mode, fun key => (same key).trans (sound.slots key), sound.recorded⟩

variable {op : Op}

theorem accesses_observe (old : begins op = false) :
    (observe crc o op).accesses txnId =
      o.accesses txnId ++ noted op (exec crc o.store op).2 txnId :=
  if_neg fun new => by simp [old] at new

theorem Sound.read (sound : Sound init h s txnId txn accesses) (room : txn.readSet.length < 10000)
    {key : Bytes} (value : (chainsOf s key).snapshotValue txn.snapshotTs =
      snapshot init h txn.snapshotTs key) :
    Sound init h (s.read txnId key).1 txnId (txn.recordRead key)
      (accesses ++ [.read key (((chainsOf s key).own txnId).getD
        ((chainsOf s key).snapshotValue txn.snapshotTs))]) := by
  obtain ⟨sameSnapshot, sameMode⟩ := txn.recordRead_kept key
  refine ⟨sameMode.trans sound.mode, fun k => ?_, ?_⟩
  · rw [chains_read, lastWrite_append, sound.slots]
    rfl
  · rw [sameSnapshot, txn.writeSet_recordRead, value, sound.slots]
    exact sound.recorded.read fun k tracked => (MvccTransaction.mem_recordRead sound.mode room).mpr tracked

theorem Sound.write (sound : Sound init h s txnId txn accesses) (now : UInt64) (key logged : Bytes)
    (value : Option Bytes) :
    Sound init h (s.writeKey crc txnId now key logged value).1 txnId (txn.recordWrite key)
      (accesses ++ if (put (chainsOf s) key value txnId).2 then [.write key value] else []) := by
  refine ⟨sound.mode, fun k => ?_, ?_⟩
  · rw [(chains_writeKey crc s txnId now key logged value).1, own_put, lastWrite_append, sound.slots]
    cases (put (chainsOf s) key value txnId).2 with
    | false => simp [lastWrite]
    | true => rcases eq_or_ne k key with rfl | other <;> simp [lastWrite, *, Ne.symm]
  · have grown : ∀ k, k = key ∨ k ∈ txn.writeSet → k ∈ (txn.recordWrite key).writeSet :=
      fun k => MvccTransaction.mem_recordWrite.mpr
    split
    · exact sound.recorded.write grown value
    · rw [append_nil]
      exact ⟨sound.recorded.reads, fun k written => grown k (.inr (sound.recorded.writes k written)),
        sound.recorded.answered⟩

theorem noted_taken (s : DurableStorage H) (writer : Nat) (now : UInt64) (key value : Bytes) :
    noted (.writeRefs writer now key value) (exec crc s (.writeRefs writer now key value)).2 txnId =
        (if txnId = writer then if (put (chainsOf s) key (some value) writer).2 then
          [.write key (some value)] else [] else []) ∧
      noted (.delete writer now key) (exec crc s (.delete writer now key)).2 txnId =
        if txnId = writer then if (put (chainsOf s) key none writer).2 then
          [.write key none] else [] else [] := by
  have written : (exec crc s (.writeRefs writer now key value)).2 = .written _ :=
    congrArg Reply.written (chains_writeKey crc s writer now key value (some value)).2
  have deleted : (exec crc s (.delete writer now key)).2 = .written _ :=
    congrArg Reply.written (chains_writeKey crc s writer now key [] none).2
  rw [written, deleted]
  constructor
  · cases (put (chainsOf s) key (some value) writer).2 <;> simp [noted, reply, eq_comm]
  · cases (put (chainsOf s) key none writer).2 <;> simp [noted, reply, eq_comm]

theorem Faithful.sound_write (faithful : Faithful first init o) {writer : Nat} {now : UInt64}
    {key logged : Bytes} {value : Option Bytes}
    (running : active (o.store.writeKey crc writer now key logged value).1 txnId = some txn) :
    Sound init (transactions o) (o.store.writeKey crc writer now key logged value).1 txnId txn
      (o.accesses txnId ++ if txnId = writer then if (put (chainsOf o.store) key value writer).2 then
        [.write key value] else [] else []) := by
  rw [active_writeKey] at running
  split at running
  · rename_i same
    subst same
    obtain ⟨before, found, rfl⟩ := Option.map_eq_some_iff.mp running
    rw [if_pos rfl]
    exact (faithful.running txnId before found).write crc now key logged value
  · rename_i different
    rw [if_neg different, append_nil]
    refine (faithful.running txnId txn running).elsewhere fun k => ?_
    rw [(chains_writeKey crc o.store writer now key logged value).1, own_put,
      if_neg fun taken => different taken.2.1]

theorem Faithful.sound_after (faithful : Faithful first init o) (ordered : Ordered first o)
    (scope : PointAccess o.store op) (running : active (observe crc o op).store txnId = some txn) :
    Sound init (transactions o) (observe crc o op).store txnId txn ((observe crc o op).accesses txnId) := by
  cases op with
  | beginWithMode mode now =>
    have after : active (observe crc o (.beginWithMode mode now)).store txnId = _ :=
      o.store.mvcc.active_beginWithMode o.store.wal.nextTxnId mode txnId
    rw [after] at running
    split at running
    · rename_i new
      cases running
      have blank : (observe crc o (.beginWithMode mode now)).accesses txnId = [] :=
        if_pos ⟨rfl, new⟩
      rw [blank]
      refine ⟨scope, fun key => ?_, Recorded.nothing _ _ _⟩
      rw [lastWrite, ← Option.not_isSome_iff_eq_none, VersionChain.own_isSome]
      intro held
      have issued := faithful.holders key txnId held
      omega
    · rename_i old
      have same : (observe crc o (.beginWithMode mode now)).accesses txnId = o.accesses txnId :=
        (if_neg fun new => old new.2).trans (append_nil _)
      rw [same]
      exact (faithful.running txnId txn running).elsewhere fun _ => rfl
  | read reader key =>
    obtain ⟨reading, found, room⟩ := scope
    have after : active (observe crc o (.read reader key)).store txnId = _ :=
      active_read o.store reader key txnId
    have answer : (exec crc o.store (.read reader key)).2 = .value _ := congrArg Reply.value (read_reply found key)
    rw [after] at running
    split at running
    · rename_i same
      subst same
      rw [found] at running
      cases running
      rw [accesses_observe crc rfl, answer]
      simp only [noted, if_true]
      exact (faithful.running txnId reading found).read room
        (faithful.values _ (ordered.stamps_active txnId reading found).1 key)
    · rename_i different
      rw [accesses_observe crc rfl, answer]
      simp only [noted, Ne.symm different, if_false, append_nil]
      refine (faithful.running txnId txn running).elsewhere fun k => ?_
      exact congrArg (fun c : Chains => (c k).own txnId) (chains_read o.store reader key)
  | writeRefs writer now key value =>
    rw [accesses_observe crc rfl, (noted_taken crc o.store writer now key value).1]
    exact faithful.sound_write crc running
  | delete writer now key =>
    rw [accesses_observe crc rfl, (noted_taken crc o.store writer now key []).2]
    exact faithful.sound_write crc running
  | commit ended shouldSync now =>
    have after : active (observe crc o (.commit ended shouldSync now)).store txnId = _ :=
      active_commit crc o.store ended shouldSync now txnId
    rw [accesses_observe crc rfl, show noted _ _ txnId = [] from rfl, append_nil]
    rw [after] at running
    split at running
    · cases running
    · rename_i different
      refine (faithful.running txnId txn running).elsewhere fun key => ?_
      change (chainsOf (o.store.commit crc ended shouldSync now).1 key).own txnId = _
      cases verdict : commits o.store ended with
      | false => rw [chains_commit_failed crc o.store verdict]
      | true =>
        obtain ⟨_, found, accepted⟩ := commits_iff.mp verdict
        rw [chains_commit_succeeded crc o.store found accepted, own_publish _ _ _ _ _ different]
  | abort ended now =>
    have after : active (observe crc o (.abort ended now)).store txnId = _ :=
      active_abort crc o.store ended now txnId
    rw [accesses_observe crc rfl, show noted _ _ txnId = [] from rfl, append_nil]
    rw [after] at running
    split at running
    · cases running
    · rename_i different
      refine (faithful.running txnId txn running).elsewhere fun key => ?_
      change (chainsOf (o.store.abort crc ended now) key).own txnId = _
      rw [EngineSteps.chains_abort]
      split
      · exact own_rollback _ _ _ different
      · rfl
  | beginReadOnlyFast | abortReadOnlyFast | writeBatchRefs | gc => exact absurd scope id

theorem holders_issued (faithful : Faithful first init o) (ordered : Ordered first o)
    (scope : PointAccess o.store op) {key : Bytes} (held : holder (observe crc o op).store key = some txnId) :
    txnId < (observe crc o op).store.wal.nextTxnId := by
  have issued := nextTxnId_observe crc o op
  have writer : ∀ {other}, (active o.store other).isSome = true → other = txnId →
      txnId < o.store.wal.nextTxnId := by
    rintro other running rfl
    exact ordered.ids_active other running
  refine Nat.lt_of_lt_of_le ?_ issued
  rcases holder_of_step crc o.store held with before | ⟨written, _⟩
  · exact faithful.holders key txnId before
  · cases op with
    | writeRefs other now k value | delete other now k =>
      simp only [writesOf, mem_ite_nil_right] at written
      exact writer scope written.1
    | beginReadOnlyFast | abortReadOnlyFast | writeBatchRefs | gc => exact absurd scope id
    | beginWithMode | read | commit | abort => cases written

theorem committed_without_commit (scope : PointAccess s op)
    (refused : ∀ ended shouldSync now, op = .commit ended shouldSync now → commits s ended = false)
    (key : Bytes) : (chainsOf (step crc s op) key).committed = (chainsOf s key).committed := by
  by_cases quiet : ∀ ended shouldSync now, op ≠ .commit ended shouldSync now
  · refine committed_step crc s quiet ?_ key
    rintro rfl
    exact scope
  · simp only [not_forall, not_not] at quiet
    obtain ⟨ended, shouldSync, now, rfl⟩ := quiet
    show (chainsOf (s.commit crc ended shouldSync now).1 key).committed = _
    rw [chains_commit_failed crc s (refused ended shouldSync now rfl)]

variable (faithful : Faithful first init o)
include faithful

theorem Faithful.values_commit (versioned : Versioned first o) (found : active o.store txnId = some txn)
    (accepted : o.store.mvcc.refuses txn = false) (shouldSync : Bool) (now : UInt64) {ts : Nat}
    (late : first ≤ ts) (key : Bytes) :
    (chainsOf (o.store.commit crc txnId shouldSync now).1 key).snapshotValue ts =
      snapshot init (transactions o ++ [txnOf (entry o txnId txn)]) ts key := by
  have sound := faithful.running txnId txn found
  have before := faithful.values ts late key
  have ended : (txnOf (entry o txnId txn)).ended = o.store.mvcc.tsCounter := rfl
  have after : (chainsOf (o.store.commit crc txnId shouldSync now).1 key).snapshotValue ts =
      if o.store.mvcc.tsCounter < ts then
        (lastWrite (o.accesses txnId) key).getD (snapshot init (transactions o) ts key)
      else snapshot init (transactions o) ts key := by
    rw [chains_commit_succeeded crc o.store found accepted, ← sound.slots, ← before]
    cases mine : (chainsOf o.store key).own txnId with
    | none =>
      rw [publish_other (.inr mine)]
      simp
    | some value =>
      have member : key ∈ txn.writeSet := by
        refine sound.recorded.writes key (writes_iff_lastWrite.mpr ?_)
        rw [← sound.slots, mine]
        rfl
      rw [publish, if_pos member, VersionChain.snapshotValue_commit mine fun v old =>
        Nat.le_of_lt (versioned.stamps key v old)]
      rfl
  rw [after]
  split
  · rename_i seen
    rw [snapshot_append_seen (by rw [ended]; exact seen), effect_eq]
    rfl
  · rename_i unseen
    rw [snapshot_append_unseen (by rw [ended]; exact Nat.le_of_not_lt unseen)]

theorem Faithful.step (ordered : Ordered first o) (versioned : Versioned first o)
    (scope : PointAccess o.store op) :
    Faithful first init (observe crc o op) := by
  rcases observe_cases crc o op with ⟨txnId, shouldSync, now, txn, rfl, found, accepted, grown, _⟩ |
    ⟨refused, _, sameHistory, _⟩
  · have whole : transactions (observe crc o (.commit txnId shouldSync now)) =
        transactions o ++ [txnOf (entry o txnId txn)] := by
      rw [transactions, grown, map_append]
      rfl
    -- nobody who began up to now sees the new entry
    have unseen : ∀ {ts}, ts ≤ o.store.mvcc.tsCounter →
        snapshot init (transactions (observe crc o (.commit txnId shouldSync now))) ts =
          snapshot init (transactions o) ts := by
      intro ts early
      rw [whole]
      exact snapshot_append_unseen early
    refine ⟨fun key other held => holders_issued crc faithful ordered scope held, ?_, ?_, ?_⟩
    · intro other txn' running
      have sound := faithful.sound_after crc ordered scope running
      have early : txn'.snapshotTs ≤ o.store.mvcc.tsCounter := by
        rcases ordered.active_after crc running with ⟨before, known, same, _⟩ | ⟨beginning, _⟩
        · rw [same]
          exact (ordered.stamps_active other before known).2
        · cases beginning
      refine ⟨sound.mode, sound.slots, ?_⟩
      rw [unseen early]
      exact sound.recorded
    · intro c member
      rw [grown, mem_append, mem_singleton] at member
      rcases member with old | rfl
      · have stamps := ordered.stamps_history c old
        rw [unseen (by omega)]
        exact faithful.ended c old
      · have early := (ordered.stamps_active txnId txn found).2
        rw [show (entry o txnId txn).snapshotTs = txn.snapshotTs from rfl, unseen early]
        exact (faithful.running txnId txn found).recorded
    · intro ts late key
      rw [whole]
      exact faithful.values_commit crc versioned found accepted shouldSync now late key
  · have whole : transactions (observe crc o op) = transactions o := by
      rw [transactions, sameHistory]
      rfl
    refine ⟨fun key other held => holders_issued crc faithful ordered scope held, ?_, ?_, ?_⟩
    · intro txnId txn running
      rw [whole]
      exact faithful.sound_after crc ordered scope running
    · intro c member
      rw [sameHistory] at member
      rw [whole]
      exact faithful.ended c member
    · intro ts late key
      have same : (chainsOf (observe crc o op).store key).committed = _ :=
        committed_without_commit crc scope refused key
      rw [whole, ← faithful.values ts late key, VersionChain.snapshotValue, same]
      rfl

theorem Faithful.final (ordered : Ordered first o) (versioned : Versioned first o) :
    committedValues o.store = settle init (transactions o) := by
  have past : ∀ t ∈ transactions o, t.ended < o.store.mvcc.tsCounter := by
    intro t member
    obtain ⟨c, known, rfl⟩ := mem_map.mp member
    exact (ordered.stamps_history c known).2.2
  funext key
  rw [committedValues, ← VersionChain.snapshotValue_of_past (versioned.stamps key),
    faithful.values _ ordered.counter_first key, snapshot_all past]

end Steps
end
end SnapshotReads
