import SochDB.Library.Runs
import SochDB.Library.Serialization
import SochDB.Recovery

/-!
A run with an observer beside the store. The observer notes at which step each transaction
began, what its reads returned and which of its writes were taken, and makes an entry for
every commit that succeeds. The order of the entries and the stamps of the store tell the
same story.
-/
namespace Histories
open Serialization WalRecords TxnManager BloomFilter List
open ChainView StorageEngine EngineSteps Recovery

abbrev Accesses := List (Access Bytes (Option Bytes))

structure Committed where
  txnId : Nat
  snapshotTs : Nat
  commitTs : Nat
  beganAt : Nat
  committedAt : Nat
  readSet : List Bytes
  writeSet : List Bytes
  published : List Bytes
  accesses : Accesses

/-- `clock` counts the steps taken so far. -/
structure Observed (H : KeyHashes) where
  store : DurableStorage H
  clock : Nat
  beganAt : Nat → Nat
  accesses : Nat → Accesses
  history : List Committed

/-- What the reply to a call tells about the accesses of a transaction. -/
def noted (op : Op) (reply : Reply) (txnId : Nat) : Accesses :=
  match op, reply with
  | .read reader key, .value (.ok value) => if reader = txnId then [.read key value] else []
  | .writeRefs writer _ key value, .written (.ok ()) =>
    if writer = txnId then [.write key (some value)] else []
  | .delete writer _ key, .written (.ok ()) => if writer = txnId then [.write key none] else []
  | .writeBatchRefs writer rows, .written (.ok ()) =>
    if writer = txnId then rows.map fun w => .write w.2.1 (some w.2.2) else []
  | _, _ => []

section
variable {H : KeyHashes} (crc : Crc32fast)

def unobserved (store : DurableStorage H) : Observed H := ⟨store, 0, fun _ => 0, fun _ => [], []⟩

def entry (o : Observed H) (txnId : Nat) (txn : MvccTransaction H) : Committed where
  txnId := txnId
  snapshotTs := txn.snapshotTs
  commitTs := o.store.mvcc.tsCounter
  beganAt := o.beganAt txnId
  committedAt := o.clock
  readSet := txn.readSet
  writeSet := txn.writeSet
  published := published o.store txnId txn
  accesses := o.accesses txnId

def committedBy (o : Observed H) : Op → List Committed
  | .commit txnId _ _ =>
    match active o.store txnId with
    | some txn => if o.store.mvcc.refuses txn then [] else [entry o txnId txn]
    | none => []
  | _ => []

def observe (o : Observed H) (op : Op) : Observed H where
  store := step crc o.store op
  clock := o.clock + 1
  beganAt := if begins op then Function.update o.beganAt o.store.wal.nextTxnId o.clock else o.beganAt
  accesses := fun txnId =>
    if begins op ∧ txnId = o.store.wal.nextTxnId then []
    else o.accesses txnId ++ noted op (exec crc o.store op).2 txnId
  history := o.history ++ committedBy o op

theorem observe_cases (o : Observed H) (op : Op) :
    (∃ txnId shouldSync now txn, op = .commit txnId shouldSync now ∧
        active o.store txnId = some txn ∧ o.store.mvcc.refuses txn = false ∧
        (observe crc o op).history = o.history ++ [entry o txnId txn] ∧
        (observe crc o op).store.mvcc.tsCounter = o.store.mvcc.tsCounter + 1) ∨
      (∀ txnId shouldSync now, op = .commit txnId shouldSync now → commits o.store txnId = false) ∧
        (∀ key, (chainsOf (observe crc o op).store key).committed.Sublist
            (chainsOf o.store key).committed ∧
          (chainsOf (observe crc o op).store key).committed.head? =
            (chainsOf o.store key).committed.head?) ∧
        (observe crc o op).history = o.history ∧
        (observe crc o op).store.mvcc.tsCounter = o.store.mvcc.tsCounter := by
  by_cases quiet : ∀ txnId shouldSync now, op ≠ .commit txnId shouldSync now
  · refine .inr ⟨fun txnId shouldSync now same => absurd same (quiet txnId shouldSync now),
      committed_quiet crc o.store quiet, ?_, tsCounter_quiet crc o.store quiet⟩
    have none : committedBy o op = [] := by
      cases op with
      | commit txnId shouldSync now => exact absurd rfl (quiet txnId shouldSync now)
      | beginWithMode | beginReadOnlyFast | abortReadOnlyFast | read | writeRefs | delete
      | writeBatchRefs | abort | gc => rfl
    rw [observe, none, append_nil]
  · simp only [not_forall, not_not] at quiet
    obtain ⟨txnId, shouldSync, now, rfl⟩ := quiet
    have counter : (observe crc o (.commit txnId shouldSync now)).store.mvcc.tsCounter = _ :=
      tsCounter_commit crc o.store txnId shouldSync now
    cases verdict : commits o.store txnId with
    | true =>
      obtain ⟨txn, found, accepted⟩ := commits_iff.mp verdict
      refine .inl ⟨txnId, shouldSync, now, txn, rfl, found, accepted, ?_, ?_⟩
      · simp [observe, committedBy, found, accepted]
      · rw [counter, verdict]
        rfl
    | false =>
      have same : chainsOf (observe crc o (.commit txnId shouldSync now)).store = chainsOf o.store :=
        chains_commit_failed crc o.store verdict shouldSync now
      refine .inr ⟨fun _ _ _ again => by cases again; exact verdict,
        fun key => by rw [same]; exact ⟨.refl _, rfl⟩, ?_, ?_⟩
      · unfold commits at verdict
        rw [observe, committedBy]
        cases found : active o.store txnId with
        | none => simp
        | some txn =>
          simp only [found, Bool.not_eq_false'] at verdict
          simp [verdict]
      · rw [counter, verdict]
        rfl

structure Ordered (first : Nat) (o : Observed H) : Prop where
  counter_first : first ≤ o.store.mvcc.tsCounter
  ids_active : ∀ txnId, (active o.store txnId).isSome → txnId < o.store.wal.nextTxnId
  ids_history : ∀ c ∈ o.history, c.txnId < o.store.wal.nextTxnId ∧ active o.store c.txnId = none
  clock_active : ∀ txnId, (active o.store txnId).isSome → o.beganAt txnId < o.clock
  clock_history : ∀ c ∈ o.history, c.beganAt < c.committedAt ∧ c.committedAt < o.clock
  stamps_active : ∀ txnId txn, active o.store txnId = some txn →
    first ≤ txn.snapshotTs ∧ txn.snapshotTs ≤ o.store.mvcc.tsCounter
  stamps_history : ∀ c ∈ o.history,
    first ≤ c.snapshotTs ∧ c.snapshotTs ≤ c.commitTs ∧ c.commitTs < o.store.mvcc.tsCounter
  order_active : ∀ txnId txn, active o.store txnId = some txn → ∀ c ∈ o.history,
    (o.beganAt txnId < c.committedAt ↔ txn.snapshotTs ≤ c.commitTs)
  order_history : ∀ b ∈ o.history, ∀ c ∈ o.history,
    (b.beganAt < c.committedAt ↔ b.snapshotTs ≤ c.commitTs)
  sorted : o.history.Pairwise fun b c => b.commitTs < c.commitTs

structure Versioned (first : Nat) (o : Observed H) : Prop where
  stamps : ∀ key, ∀ v ∈ (chainsOf o.store key).committed, v.commitTs < o.store.mvcc.tsCounter
  sources : ∀ key, ∀ v ∈ (chainsOf o.store key).committed,
    v.commitTs < first ∨ ∃ c ∈ o.history, c.commitTs = v.commitTs ∧ key ∈ c.published
  newest : ∀ c ∈ o.history, ∀ key ∈ c.published,
    ∃ v ∈ (chainsOf o.store key).committed.head?, c.commitTs ≤ v.commitTs

theorem fresh_ordered {s : DurableStorage H} (fresh : Fresh s) :
    Ordered s.mvcc.tsCounter (unobserved s) := by
  have idle : ∀ {txnId txn}, active (unobserved s).store txnId ≠ some txn := by
    intro txnId txn found
    rw [show active (unobserved s).store txnId = none from fresh.none_active txnId] at found
    cases found
  have nobody : ∀ {txnId}, ¬ (active (unobserved s).store txnId).isSome := by
    intro txnId running
    obtain ⟨txn, found⟩ := Option.isSome_iff_exists.mp running
    exact idle found
  exact
    { counter_first := le_rfl
      ids_active := fun _ running => absurd running nobody
      ids_history := by simp [unobserved]
      clock_active := fun _ running => absurd running nobody
      clock_history := by simp [unobserved]
      stamps_active := fun _ _ found => absurd found idle
      stamps_history := by simp [unobserved]
      order_active := fun _ _ found => absurd found idle
      order_history := by simp [unobserved]
      sorted := List.Pairwise.nil }

theorem fresh_versioned {s : DurableStorage H} (fresh : Fresh s) :
    Versioned s.mvcc.tsCounter (unobserved s) :=
  { stamps := fresh.stamps_past
    sources := fun key v member => .inl (fresh.stamps_past key v member)
    newest := by simp [unobserved] }

section Steps
variable {first : Nat} {o : Observed H}

theorem Ordered.active_after (ordered : Ordered first o) {op : Op} {txnId : Nat}
    {txn : MvccTransaction H} (running : active (observe crc o op).store txnId = some txn) :
    (∃ before, active o.store txnId = some before ∧ txn.snapshotTs = before.snapshotTs ∧
        (observe crc o op).beganAt txnId = o.beganAt txnId) ∨
      begins op = true ∧ txnId = o.store.wal.nextTxnId ∧ txn.snapshotTs = o.store.mvcc.tsCounter ∧
        (observe crc o op).beganAt txnId = o.clock := by
  rcases active_of_step crc o.store running with ⟨before, found, goesOn⟩ | ⟨beginning, rfl, stamp, _⟩
  · refine .inl ⟨before, found, goesOn.snapshotTs, ?_⟩
    have old : txnId ≠ o.store.wal.nextTxnId :=
      Nat.ne_of_lt (ordered.ids_active txnId (by rw [found]; rfl))
    simp only [observe]
    split
    · exact Function.update_of_ne old _ _
    · rfl
  · exact .inr ⟨beginning, rfl, stamp, by simp [observe, beginning]⟩

theorem nextTxnId_observe (o : Observed H) (op : Op) :
    o.store.wal.nextTxnId ≤ (observe crc o op).store.wal.nextTxnId := by
  show _ ≤ (step crc o.store op).wal.nextTxnId
  rw [nextTxnId_step]
  split <;> omega

theorem Ordered.actives (ordered : Ordered first o) (op : Op)
    (counter : o.store.mvcc.tsCounter ≤ (observe crc o op).store.mvcc.tsCounter) (txnId : Nat) (txn : MvccTransaction H)
    (known : active (observe crc o op).store txnId = some txn) :
    (observe crc o op).beganAt txnId < (observe crc o op).clock ∧
      (first ≤ txn.snapshotTs ∧ txn.snapshotTs ≤ (observe crc o op).store.mvcc.tsCounter) ∧
      ∀ c ∈ o.history, txnId ≠ c.txnId ∧
        ((observe crc o op).beganAt txnId < c.committedAt ↔ txn.snapshotTs ≤ c.commitTs) := by
  have tick : (observe crc o op).clock = o.clock + 1 := rfl
  rcases ordered.active_after crc known with ⟨before, found, same, began⟩ | ⟨_, new, stamp, began⟩
  · have clock := ordered.clock_active txnId (by rw [found]; rfl)
    have stamps := ordered.stamps_active txnId before found
    refine ⟨by omega, by omega, fun c member => ⟨?_, ?_⟩⟩
    · rintro rfl
      rw [(ordered.ids_history c member).2] at found
      cases found
    · rw [same, began]
      exact ordered.order_active txnId before found c member
  · have least := ordered.counter_first
    refine ⟨by omega, by omega, fun c member => ?_⟩
    have issued := (ordered.ids_history c member).1
    have clock := ordered.clock_history c member
    have stamps := ordered.stamps_history c member
    omega

theorem Ordered.step (ordered : Ordered first o) (op : Op) : Ordered first (observe crc o op) := by
  have tick : (observe crc o op).clock = o.clock + 1 := rfl
  have next := nextTxnId_observe crc o op
  have counter : o.store.mvcc.tsCounter ≤ (observe crc o op).store.mvcc.tsCounter := by
    rcases observe_cases crc o op with ⟨_, _, _, _, _, _, _, _, more⟩ | ⟨_, _, _, same⟩ <;> omega
  have live := ordered.actives crc op counter
  have issued := issued_step crc ordered.ids_active op
  have clock_active : ∀ txnId, (active (observe crc o op).store txnId).isSome →
      (observe crc o op).beganAt txnId < (observe crc o op).clock := by
    intro txnId running
    obtain ⟨txn, known⟩ := Option.isSome_iff_exists.mp running
    exact (live txnId txn known).1
  -- what the entries made so far have to satisfy in the new state
  have ids_history : ∀ c ∈ o.history, c.txnId < (observe crc o op).store.wal.nextTxnId ∧
      active (observe crc o op).store c.txnId = none :=
    fun c member => ⟨(ordered.ids_history c member).1.trans_le next,
      Option.eq_none_iff_forall_ne_some.mpr fun txn known => ((live _ txn known).2.2 c member).1 rfl⟩
  have clock_history : ∀ c ∈ o.history, c.beganAt < c.committedAt ∧ c.committedAt < (observe crc o op).clock := by
    intro c member
    have := ordered.clock_history c member
    omega
  have stamps_history : ∀ c ∈ o.history, first ≤ c.snapshotTs ∧ c.snapshotTs ≤ c.commitTs ∧
      c.commitTs < (observe crc o op).store.mvcc.tsCounter := by
    intro c member
    have := ordered.stamps_history c member
    omega
  rcases observe_cases crc o op with ⟨txnId, shouldSync, now, txn, rfl, found, _, grown, more⟩ | ⟨_, _, sameHistory, _⟩
  · have running : (active o.store txnId).isSome := by rw [found]; rfl
    have clock := ordered.clock_active txnId running
    have stamps := ordered.stamps_active txnId txn found
    have left : ∀ other, active (observe crc o (.commit txnId shouldSync now)).store other = _ :=
      active_commit crc o.store txnId shouldSync now
    refine ⟨ordered.counter_first.trans counter, issued, ?_, clock_active, ?_,
      fun _ _ known => (live _ _ known).2.1, ?_, ?_, ?_, ?_⟩ <;> rw [grown]
    · exact forall_mem_append.mpr ⟨ids_history, forall_mem_singleton.mpr
        ⟨(ordered.ids_active txnId running).trans_le next, (left txnId).trans (if_pos rfl)⟩⟩
    · exact forall_mem_append.mpr ⟨clock_history, forall_mem_singleton.mpr ⟨clock, Nat.lt_succ_self _⟩⟩
    · exact forall_mem_append.mpr ⟨stamps_history, forall_mem_singleton.mpr
        ⟨stamps.1, stamps.2, by simp only [entry]; omega⟩⟩
    · intro other txn' known
      refine forall_mem_append.mpr
        ⟨fun c member => ((live other txn' known).2.2 c member).2, forall_mem_singleton.mpr ?_⟩
      rw [left] at known
      split at known
      · cases known
      · exact iff_of_true (ordered.clock_active other (by rw [known]; rfl))
          (ordered.stamps_active other txn' known).2
    · refine forall_mem_append.mpr ⟨fun b old => forall_mem_append.mpr
        ⟨ordered.order_history b old, forall_mem_singleton.mpr ?_⟩, forall_mem_singleton.mpr
        (forall_mem_append.mpr ⟨ordered.order_active txnId txn found,
          forall_mem_singleton.mpr (iff_of_true clock stamps.2)⟩)⟩
      have before := ordered.clock_history b old
      have seen := ordered.stamps_history b old
      simp only [entry]
      omega
    · refine pairwise_append.mpr ⟨ordered.sorted, pairwise_singleton _ _, fun b old => ?_⟩
      exact forall_mem_singleton.mpr (ordered.stamps_history b old).2.2
  · refine ⟨ordered.counter_first.trans counter, issued, ?_, clock_active, ?_,
      fun _ _ known => (live _ _ known).2.1, ?_, ?_, ?_, ?_⟩ <;> rw [sameHistory]
    · exact ids_history
    · exact clock_history
    · exact stamps_history
    · exact fun txnId txn known c member => ((live txnId txn known).2.2 c member).2
    · exact ordered.order_history
    · exact ordered.sorted

theorem Versioned.step (versioned : Versioned first o) (op : Op) : Versioned first (observe crc o op) := by
  rcases observe_cases crc o op with ⟨txnId, shouldSync, now, txn, rfl, found, accepted, grown, counter⟩ |
    ⟨_, sameVersions, sameHistory, sameCounter⟩
  · have after := committed_commit crc o.store found accepted shouldSync now
    refine ⟨?_, ?_, ?_⟩
    · intro key v member
      rw [counter]
      rcases mem_committed_commit crc o.store member with old | ⟨_, _, _, stamp, _⟩
      · have := versioned.stamps key v old
        omega
      · omega
    · intro key v member
      rw [grown]
      rcases mem_committed_commit crc o.store member with old | ⟨txn', known, _, stamp, inside⟩
      · rcases versioned.sources key v old with before | ⟨c, known, same, inside⟩
        · exact .inl before
        · exact .inr ⟨c, mem_append_left _ known, same, inside⟩
      · obtain rfl : txn = txn' := Option.some.inj (found.symm.trans known)
        exact .inr ⟨entry o txnId txn, by simp, stamp.symm, inside⟩
    · intro c member key inside
      have newest : ∀ v ∈ (chainsOf o.store key).committed, v.commitTs ≤ o.store.mvcc.tsCounter :=
        fun v old => Nat.le_of_lt (versioned.stamps key v old)
      rw [grown, mem_append, mem_singleton] at member
      rcases after key with ⟨_, value, _, placed⟩ | ⟨outside, same⟩
      · have top : (chainsOf (observe crc o (.commit txnId shouldSync now)).store key).committed = _ :=
          placed
        refine ⟨⟨value, txnId, o.store.mvcc.tsCounter⟩, by rw [top, Timeline.place_newest newest]; rfl, ?_⟩
        rcases member with old | rfl
        · obtain ⟨v, head, before⟩ := versioned.newest c old key inside
          exact Nat.le_trans before (newest v (mem_of_head? head))
        · exact le_rfl
      · have top : (chainsOf (observe crc o (.commit txnId shouldSync now)).store key).committed = _ :=
          same
        rw [top]
        rcases member with old | rfl
        · exact versioned.newest c old key inside
        · exact absurd inside outside
  · refine ⟨?_, ?_, ?_⟩
    · intro key v member
      rw [sameCounter]
      exact versioned.stamps key v ((sameVersions key).1.subset member)
    · intro key v member
      rw [sameHistory]
      exact versioned.sources key v ((sameVersions key).1.subset member)
    · intro c member key inside
      rw [sameHistory] at member
      rw [(sameVersions key).2]
      exact versioned.newest c member key inside

end Steps
end
end Histories
