import SochDB.VersionedStore

/-!
What a query as of a system time should find, told by the puts and deletes alone. The store
looks at the last version of each object only, so that an answer about the past is right
just as long as the objects in it are left alone.
-/
namespace BitemporalQueries
open KeyedMaps EpochSnapshots VersionedStore Runs List

/-- A version that was put, with its system time; a delete, with the time of the clock. -/
inductive Event (C : Type) where
  | put (ko : KnowledgeObject C)
  | delete (time : Nat)
  deriving DecidableEq

variable {C : Type}

def Event.time : Event C → Nat
  | .put ko => ko.temporal.systemTime
  | .delete time => time

def Event.object : Event C → Option (KnowledgeObject C)
  | .put ko => some ko
  | .delete _ => none

abbrev History (C : Type) := List (Key × Event C)

namespace History

def current (h : History C) (oid : Key) : Option (KnowledgeObject C) := (lastValue h oid).bind Event.object

/-- The latest version put by the time, unless a delete followed it by then. -/
def asOf (h : History C) (systemTime : Nat) (oid : Key) : Option (KnowledgeObject C) :=
  History.current (h.filter fun e => e.2.time ≤ systemTime) oid

/-- The result lists each version that is valid as of the time, once for each id. -/
def Answers (h : History C) (systemTime validTime : Nat) (result : List (KnowledgeObject C)) : Prop :=
  (result.map KnowledgeObject.oid).Nodup ∧ ∀ ko, ko ∈ result ↔
    h.asOf systemTime ko.oid = some ko ∧ ko.temporal.validAt validTime = true

/-- The last thing that happened to an object in the answer happened by the time. -/
def LeftAlone (h : History C) (systemTime validTime : Nat) : Prop :=
  ∀ oid ko, h.asOf systemTime oid = some ko → ko.temporal.validAt validTime = true →
    ∀ event ∈ lastValue h oid, event.time ≤ systemTime

/-- Every version that was put can be read back from its bytes. -/
def Readable (codec : Codec C) (h : History C) : Prop :=
  ∀ oid ko, (oid, Event.put ko) ∈ h → ∀ bytes, codec.toCompressedBytes ko = .ok bytes →
    codec.fromCompressedBytes bytes = .ok ko

theorem current_append (before after : History C) (oid : Key) :
    History.current (before ++ after) oid =
      ((lastValue after oid).map Event.object).getD (current before oid) := by
  unfold current
  rw [lastValue_append]
  cases lastValue after oid <;> rfl

/-- What happened last by now is also the last of what happened by an earlier time, if it
    happened by then. -/
theorem lastValue_by {h : History C} {oid : Key} {event : Event C} {systemTime : Nat}
    (last : lastValue h oid = some event) (early : event.time ≤ systemTime) :
    lastValue (h.filter fun e => e.2.time ≤ systemTime) oid = some event := by
  induction h using List.reverseRecOn with
  | nil => cases last
  | append_singleton h e ih =>
    rw [lastValue_append, lastValue_cons, lastValue_nil, Option.none_or] at last
    rw [filter_append, lastValue_append]
    by_cases mine : e.1 = oid
    · rw [if_pos mine, Option.some_or] at last
      cases last
      rw [filter_cons_of_pos (by simpa using early), lastValue_cons, if_pos mine]
      rfl
    · rw [if_neg mine, Option.none_or] at last
      have silent : lastValue ([e].filter fun e => e.2.time ≤ systemTime) oid = none := by
        rw [← Option.not_isSome_iff_eq_none, lastValue_isSome]
        intro member
        obtain ⟨other, kept, same⟩ := mem_map.mp member
        rw [mem_singleton.mp (mem_of_mem_filter kept)] at same
        exact mine same
      rw [silent, ih last]
      rfl

end History

section Chains
variable {store : EpochMvccStore Bytes}

def UpTo (store : EpochMvccStore Bytes) (epoch : Nat) : Prop :=
  ∀ key chain, get store.data key = some chain → chain.latestEpoch ≤ epoch

theorem readAtEpoch_late {epoch : Nat} (upTo : UpTo store epoch) {later : Nat} (le : epoch ≤ later)
    (key : Key) : store.readAtEpoch key later = store.readAtEpoch key epoch := by
  unfold EpochMvccStore.readAtEpoch
  cases found : get store.data key with
  | none => rfl
  | some chain =>
    have latest := upTo key chain found
    simp only [Option.bind_some, EpochVersionChain.readAtEpoch, EpochVersionChain.entryAt]
    rw [if_pos latest, if_pos (Nat.le_trans latest le)]

def entryOf : WriteOp Bytes → Key × Option Bytes
  | .put key value => (key, some value)
  | .delete key => (key, none)

theorem apply_late {epoch : Nat} (upTo : UpTo store epoch) (txnId : Nat) (op : WriteOp Bytes) :
    UpTo (store.apply epoch txnId op) epoch ∧ ∀ key,
      (store.apply epoch txnId op).readAtEpoch key epoch =
        if (entryOf op).1 = key then (entryOf op).2 else store.readAtEpoch key epoch := by
  have names : op.key = (entryOf op).1 := by cases op <;> rfl
  have old : ((get store.data op.key).getD .new).latestEpoch ≤ epoch := by
    cases found : get store.data op.key with
    | none => exact Nat.zero_le epoch
    | some chain => exact upTo op.key chain found
  have latest : ∀ entry, (((get store.data op.key).getD .new).addVersion epoch entry).latestEpoch = epoch := by
    intro entry
    unfold EpochVersionChain.addVersion
    dsimp only
    split <;> omega
  constructor
  · exact forall_insert upTo (Nat.le_of_eq (latest _))
  · intro key
    simp only [EpochMvccStore.readAtEpoch, EpochMvccStore.apply, upsert, get_insert, ← names]
    by_cases mine : key = op.key
    · rw [if_pos mine, if_pos mine.symm, Option.bind_some, EpochVersionChain.readAtEpoch,
        EpochVersionChain.entryAt, latest, if_pos (Nat.le_refl epoch)]
      simp only [EpochVersionChain.addVersion, get_insert, if_true, Option.bind_some]
      cases op <;> rfl
    · rw [if_neg mine, if_neg (Ne.symm mine)]

theorem transact_late (upTo : UpTo store store.manager.currentEpoch) (writes : List (WriteOp Bytes)) :
    UpTo (transact store writes) store.manager.currentEpoch ∧ ∀ key,
      (transact store writes).readAtEpoch key store.manager.currentEpoch =
        (lastValue (writes.map entryOf) key).getD (store.readAtEpoch key store.manager.currentEpoch) := by
  have loop : ∀ (begun : EpochMvccStore Bytes) (epoch txnId : Nat), UpTo begun epoch →
      let written := writes.foldl (fun s op => s.apply epoch txnId op) begun
      UpTo written epoch ∧ ∀ key, written.readAtEpoch key epoch =
        (lastValue (writes.map entryOf) key).getD (begun.readAtEpoch key epoch) := by
    induction writes with
    | nil => exact fun begun epoch txnId held => ⟨held, fun _ => rfl⟩
    | cons op writes ih =>
      intro begun epoch txnId held
      obtain ⟨kept, reads⟩ := apply_late held txnId op
      obtain ⟨keptAll, readsAll⟩ := ih _ epoch txnId kept
      refine ⟨keptAll, ?_⟩
      intro key
      rw [foldl_cons, readsAll, reads, map_cons, lastValue_cons]
      cases lastValue (writes.map entryOf) key with
      | some value => rfl
      | none =>
        rw [Option.none_or]
        split <;> rfl
  exact loop { store with manager := _, nextTxnId := store.nextTxnId + 1 } _ _ upTo

theorem transact_epoch (store : EpochMvccStore Bytes) (writes : List (WriteOp Bytes)) :
    (transact store writes).manager.currentEpoch = store.manager.currentEpoch := by
  have loop : ∀ (begun : EpochMvccStore Bytes) (epoch txnId : Nat),
      (writes.foldl (fun s op => s.apply epoch txnId op) begun).manager = begun.manager := by
    induction writes with
    | nil => exact fun _ _ _ => rfl
    | cons op writes ih => exact fun begun epoch txnId => ih _ epoch txnId
  unfold transact EpochManager.unregisterReader
  dsimp only
  rw [loop]
  split
  · rfl
  · split <;> rfl

end Chains

section Stores
variable {codec : Codec C} {store : VersionedObjectStore} {h : History C}

/-- The chains and the index hold the last version of each object, and no more than that is
    asked of them. -/
structure Follows (codec : Codec C) (store : VersionedObjectStore) (h : History C) : Prop where
  late : UpTo store.mvcc store.mvcc.manager.currentEpoch
  read : ∀ oid, (store.mvcc.readAtEpoch oid store.mvcc.manager.currentEpoch).map .ok =
    (h.current oid).map codec.toCompressedBytes
  index : ∀ oid, store.contains oid = (h.current oid).isSome
  named : ∀ oid ko, (oid, Event.put ko) ∈ h → ko.oid = oid

theorem follows_new (codec : Codec C) (hlc : HybridLogicalClock) : Follows codec (.withHlc hlc) [] where
  late _ _ found := by cases found
  read _ := rfl
  index _ := rfl
  named _ _ member := by cases member

theorem follows_advance (follows : Follows codec store h) (due : Bool) :
    Follows codec { store with mvcc := maybeAdvanceEpoch store.mvcc due } h := by
  cases due with
  | false => exact follows
  | true =>
    have next : store.mvcc.manager.currentEpoch ≤ store.mvcc.manager.currentEpoch + 1 := Nat.le_succ _
    refine ⟨?_, ?_, follows.index, follows.named⟩
    · exact fun key chain found => Nat.le_trans (follows.late key chain found) next
    · intro oid
      rw [← follows.read oid]
      exact congrArg _ (readAtEpoch_late follows.late next oid)

theorem follows_transact (follows : Follows codec store h) (changes : List (Key × Event C × Option Bytes))
    (encoded : ∀ c ∈ changes, c.2.2.map .ok = c.2.1.object.map codec.toCompressedBytes ∧
      ∀ ko ∈ c.2.1.object, ko.oid = c.1)
    {writes : List (WriteOp Bytes)} (written : writes.map entryOf = changes.map fun c => (c.1, c.2.2))
    {index : Map Key Nat} (indexed : ∀ oid, (get index oid).isSome =
      ((lastValue changes oid).map fun c => c.1.object.isSome).getD (store.contains oid))
    (hlc : HybridLogicalClock) (due : Bool) :
    Follows codec ⟨maybeAdvanceEpoch (transact store.mvcc writes) due, hlc, index⟩
      (h ++ changes.map fun c => (c.1, c.2.1)) := by
  obtain ⟨late, reads⟩ := transact_late follows.late writes
  have last : ∀ oid, lastValue (changes.map fun c => (c.1, c.2.1)) oid = (lastValue changes oid).map Prod.fst :=
    fun oid => lastValue_map oid Prod.fst changes
  have made : Follows codec ⟨transact store.mvcc writes, hlc, index⟩
      (h ++ changes.map fun c => (c.1, c.2.1)) := by
    constructor
    · rw [transact_epoch]
      exact late
    · intro oid
      rw [transact_epoch, reads, written, lastValue_map oid Prod.snd changes, History.current_append, last]
      cases change : lastValue changes oid with
      | none => exact follows.read oid
      | some c => exact (encoded _ (lastValue_mem oid change)).1
    · intro oid
      refine (indexed oid).trans ?_
      rw [History.current_append, last]
      cases lastValue changes oid with
      | none => exact follows.index oid
      | some c => rfl
    · intro oid ko member
      rcases mem_append.mp member with old | new
      · exact follows.named oid ko old
      · obtain ⟨⟨key, event, bytes⟩, inside, same⟩ := mem_map.mp new
        cases same
        exact (encoded _ inside).2 ko rfl
  exact follows_advance made due

end Stores

section Runs
variable (codec : Codec C)

structure Watched (C : Type) where
  store : VersionedObjectStore
  history : History C

def happens (store : VersionedObjectStore) : Op C → History C
  | .put ko physical _ => match store.hlc.next physical with
    | none => []
    | some (systemTime, _) =>
      let ko := ko.stamped systemTime
      match codec.toCompressedBytes ko with
      | .ok _ => [(ko.oid, .put ko)]
      | .error _ => []
  | .putBatch objects _ =>
    match VersionedObjectStore.prepare codec store.hlc objects with
    | some (.ok prepared, _) => prepared.map fun e => (e.1.oid, .put e.1)
    | _ => []
  | .delete oid physical _ =>
    -- a delete draws no timestamp: its time is what the clock shows at the call
    let time := ((store.hlc.next physical).map Prod.fst).getD store.hlc.lastTs.toNat
    if store.contains oid then [(oid, .delete time)] else []
  | .advanceEpoch => []

def Watched.step (w : Watched C) (op : Op C) : Watched C :=
  ⟨VersionedStore.step codec w.store op, w.history ++ happens codec w.store op⟩

theorem prepare_encodes {hlc hlc' : HybridLogicalClock} {objects : List (KnowledgeObject C × UInt64)}
    {prepared : List (KnowledgeObject C × Bytes)}
    (ready : VersionedObjectStore.prepare codec hlc objects = some (.ok prepared, hlc')) :
    ∀ e ∈ prepared, codec.toCompressedBytes e.1 = .ok e.2 := by
  induction objects generalizing hlc prepared with
  | nil =>
    cases ready
    exact fun e member => by cases member
  | cons object objects ih =>
    rw [VersionedObjectStore.prepare] at ready
    obtain ⟨⟨systemTime, clock⟩, _, ready⟩ := Option.bind_eq_some_iff.mp ready
    dsimp only at ready
    split at ready
    · cases ready
    · rename_i bytes encoded
      obtain ⟨⟨result, last⟩, rest, same⟩ := Option.map_eq_some_iff.mp ready
      cases result with
      | error text => cases same
      | ok later =>
        cases same
        intro e member
        rcases mem_cons.mp member with rfl | inside
        · exact encoded
        · exact ih rest e inside

theorem indexed_batch (prepared : List (KnowledgeObject C × Bytes)) (index : Map Key Nat) (epoch : Nat) (oid : Key) :
    (get (prepared.foldl (fun index e => index.insert e.1.oid epoch) index) oid).isSome =
      ((lastValue (prepared.map fun e => (e.1.oid, Event.put e.1, some e.2)) oid).map
        fun c => c.1.object.isSome).getD (get index oid).isSome := by
  induction prepared generalizing index with
  | nil => rfl
  | cons e prepared ih =>
    rw [foldl_cons, ih, map_cons, lastValue_cons, get_insert]
    cases lastValue (prepared.map fun e => (e.1.oid, Event.put e.1, some e.2)) oid with
    | some c => rfl
    | none =>
      by_cases mine : oid = e.1.oid
      · simp [mine, Event.object]
      · simp [mine, Ne.symm mine]

theorem follows_step {w : Watched C} (follows : Follows codec w.store w.history) (op : Op C) :
    Follows codec (w.step codec op).store (w.step codec op).history := by
  have unchanged : ∀ (hlc : HybridLogicalClock) (manager : EpochManager) (nextTxnId : Nat),
      manager.currentEpoch = w.store.mvcc.manager.currentEpoch → Follows codec
        ⟨{ w.store.mvcc with manager := manager, nextTxnId := nextTxnId }, hlc, w.store.oidIndex⟩
        (w.history ++ []) := by
    intro hlc manager nextTxnId same
    rw [append_nil]
    refine ⟨?_, ?_, follows.index, follows.named⟩
    · rw [same]
      exact follows.late
    · rw [same]
      exact follows.read
  cases op with
  | put ko physical due =>
    unfold Watched.step VersionedStore.step happens VersionedObjectStore.put
    dsimp only
    cases w.store.hlc.next physical with
    | none => exact unchanged _ _ _ rfl
    | some drawn =>
      dsimp only [Option.map_some, Option.getD_some]
      cases encoded : codec.toCompressedBytes (ko.stamped drawn.1) with
      | error text => exact unchanged _ _ _ rfl
      | ok bytes =>
        apply follows_transact follows [((ko.stamped drawn.1).oid, .put (ko.stamped drawn.1), some bytes)]
        · intro c member
          cases mem_singleton.mp member
          exact ⟨congrArg some encoded.symm, fun ko same => by cases same; rfl⟩
        · rfl
        · intro oid
          rw [get_insert, lastValue_cons, lastValue_nil, Option.none_or]
          by_cases mine : oid = (ko.stamped drawn.1).oid
          · simp [mine, Event.object]
          · rw [if_neg mine, if_neg (Ne.symm mine)]
            rfl
  | putBatch objects due =>
    unfold Watched.step VersionedStore.step happens VersionedObjectStore.putBatch
    dsimp only
    cases ready : VersionedObjectStore.prepare codec w.store.hlc objects with
    | none => exact unchanged _ _ _ rfl
    | some drawn =>
      obtain ⟨result, hlc⟩ := drawn
      cases result with
      | error text => exact unchanged _ _ _ rfl
      | ok prepared =>
        have encodes := prepare_encodes codec ready
        have history : (prepared.map fun e => (e.1.oid, Event.put e.1)) =
            (prepared.map fun e => (e.1.oid, Event.put e.1, some e.2)).map fun c => (c.1, c.2.1) := by
          rw [map_map]
          rfl
        dsimp only [Option.map_some, Option.getD_some]
        rw [history]
        apply follows_transact follows
        · intro c member
          obtain ⟨e, inside, rfl⟩ := mem_map.mp member
          exact ⟨congrArg some (encodes e inside).symm, fun ko same => by cases same; rfl⟩
        · rw [map_map, map_map]
          rfl
        · exact indexed_batch prepared w.store.oidIndex w.store.mvcc.manager.currentEpoch
  | delete oid physical due =>
    unfold Watched.step VersionedStore.step happens VersionedObjectStore.delete
    dsimp only
    split
    · apply follows_transact follows [(oid, .delete _, none)]
      · intro c member
        cases mem_singleton.mp member
        exact ⟨rfl, fun ko same => by cases same⟩
      · rfl
      · intro other
        rw [get_erase, lastValue_cons, lastValue_nil, Option.none_or]
        by_cases mine : other = oid
        · simp [mine, Event.object]
        · rw [if_neg mine, if_neg (Ne.symm mine)]
          rfl
    · rw [append_nil]
      exact follows
  | advanceEpoch =>
    unfold Watched.step happens
    rw [append_nil]
    exact follows_advance follows true

theorem follows_run {w : Watched C} (follows : Follows codec w.store w.history) (ops : List (Op C)) :
    Follows codec (run (Watched.step codec) w ops).store (run (Watched.step codec) w ops).history := by
  induction ops generalizing w with
  | nil => exact follows
  | cons op ops ih => exact ih (follows_step codec follows op)

end Runs

section Queries
variable {codec : Codec C} {store : VersionedObjectStore} {h : History C}

theorem current_iff {oid : Key} {ko : KnowledgeObject C} :
    h.current oid = some ko ↔ lastValue h oid = some (.put ko) := by
  unfold History.current
  cases lastValue h oid with
  | none => simp
  | some event => cases event <;> simp [Event.object]

theorem get_eq (follows : Follows codec store h) (readable : h.Readable codec) (oid : Key) :
    store.get codec oid = .ok (h.current oid) := by
  have read := follows.read oid
  unfold VersionedObjectStore.get
  cases found : store.mvcc.readAtEpoch oid store.mvcc.manager.currentEpoch with
  | none =>
    rw [found, Option.map_none, eq_comm, Option.map_eq_none_iff] at read
    rw [read]
  | some bytes =>
    rw [found, Option.map_some, eq_comm, Option.map_eq_some_iff] at read
    obtain ⟨ko, current, encoded⟩ := read
    have put : lastValue h oid = some (.put ko) := current_iff.mp current
    dsimp only
    rw [current, readable oid ko (lastValue_mem oid put) bytes encoded]

theorem contains_iff (follows : Follows codec store h) (readable : h.Readable codec) (oid : Key) :
    store.contains oid = true ↔ ∃ ko, store.get codec oid = .ok (some ko) := by
  rw [follows.index, get_eq follows readable, Option.isSome_iff_exists]
  simp only [Except.ok.injEq]

theorem mapM_ok {α β ε : Type} {f : α → Except ε β} {g : α → β} (each : ∀ a, f a = .ok (g a)) (l : List α) :
    l.mapM f = .ok (l.map g) := by
  induction l with
  | nil => rfl
  | cons a l ih =>
    rw [mapM_cons, each, ih]
    rfl

theorem objectsVisibleAt_spec (follows : Follows codec store h) (readable : h.Readable codec)
    (systemTime validTime : Nat) :
    ∃ result, store.objectsVisibleAt codec systemTime validTime = .ok result ∧
      (result.map KnowledgeObject.oid).Nodup ∧ ∀ ko, ko ∈ result ↔
        h.current ko.oid = some ko ∧ ko.temporal.visibleAt systemTime validTime = true := by
  have named : ∀ oid ko, h.current oid = some ko → ko.oid = oid := by
    intro oid ko current
    obtain ⟨event, last, object⟩ := Option.bind_eq_some_iff.mp current
    cases event with
    | delete time => cases object
    | put version =>
      cases object
      exact follows.named oid ko (lastValue_mem oid last)
  have loop : (pairs store.oidIndex).mapM (fun e => store.get codec e.1) = _ :=
    mapM_ok (fun e => get_eq follows readable e.1) (pairs store.oidIndex)
  refine ⟨_, by rw [VersionedObjectStore.objectsVisibleAt, loop]; rfl, ?_, ?_⟩
  · apply List.Nodup.sublist (List.Sublist.map _ filter_sublist)
    rw [List.reduceOption, filterMap_map, List.Nodup, pairwise_map]
    refine (pairwise_map.mp (pairs_keys_nodup store.oidIndex)).filterMap _ ?_
    intro a b different first isFirst second isSecond same
    rw [named a.1 first isFirst, named b.1 second isSecond] at same
    exact different same
  · intro ko
    rw [mem_filter, List.reduceOption, filterMap_map, mem_filterMap]
    apply and_congr_left
    intro _
    constructor
    · intro ⟨e, _, current⟩
      rw [named e.1 ko current]
      exact current
    · intro current
      have there : store.contains ko.oid = true := by
        rw [follows.index, current]
        rfl
      obtain ⟨epoch, found⟩ := Option.isSome_iff_exists.mp there
      exact ⟨(ko.oid, epoch), mem_pairs.mpr found, current⟩

theorem visible_iff {ko : KnowledgeObject C} {systemTime validTime : Nat} :
    ko.temporal.visibleAt systemTime validTime = true ↔
      (Event.put ko).time ≤ systemTime ∧ ko.temporal.validAt validTime = true := by
  rw [BitemporalCoord.visibleAt, Bool.and_eq_true, BitemporalCoord.knownAt, decide_eq_true_eq]
  rfl

/-- Where the objects in the answer are left alone, what is current and known is what was
    there, and the other way round. -/
theorem current_of_leftAlone {systemTime validTime : Nat} (alone : h.LeftAlone systemTime validTime)
    (ko : KnowledgeObject C) :
    h.current ko.oid = some ko ∧ ko.temporal.visibleAt systemTime validTime = true ↔
      h.asOf systemTime ko.oid = some ko ∧ ko.temporal.validAt validTime = true := by
  rw [visible_iff, History.asOf, current_iff, current_iff]
  constructor
  · intro ⟨last, early, valid⟩
    exact ⟨History.lastValue_by last early, valid⟩
  · intro ⟨then_, valid⟩
    have happened : (lastValue h ko.oid).isSome = true := by
      rw [lastValue_isSome]
      exact mem_map_of_mem (mem_of_mem_filter (lastValue_mem ko.oid then_))
    obtain ⟨event, last⟩ := Option.isSome_iff_exists.mp happened
    have early := alone ko.oid ko (current_iff.mpr then_) valid event last
    have same := (History.lastValue_by last early).symm.trans then_
    cases same
    exact ⟨last, early, valid⟩

/-- After every run whose versions can be read back an object is there just if `get` returns
    it, and a query about a time is answered as of that time just if the objects in its answer
    are left alone since. -/
theorem visible_at_iff (codec : Codec C) (hlc : HybridLogicalClock) (ops : List (Op C)) :
    let w := run (Watched.step codec) ⟨.withHlc hlc, []⟩ ops
    w.history.Readable codec →
    (∀ oid, w.store.contains oid = true ↔ ∃ ko, w.store.get codec oid = .ok (some ko)) ∧
    ∀ systemTime validTime,
      (∃ result, w.store.objectsVisibleAt codec systemTime validTime = .ok result ∧
        w.history.Answers systemTime validTime result) ↔ w.history.LeftAlone systemTime validTime := by
  intro w readable
  have follows : Follows codec w.store w.history := follows_run codec (follows_new codec hlc) ops
  refine ⟨contains_iff follows readable, ?_⟩
  intro systemTime validTime
  obtain ⟨listed, returned, nodup, members⟩ := objectsVisibleAt_spec follows readable systemTime validTime
  constructor
  · intro ⟨result, returned', _, right⟩ oid ko found valid event last
    cases returned.symm.trans returned'
    have mine : ko.oid = oid := by
      have held := lastValue_mem oid (current_iff.mp found)
      exact follows.named oid ko (mem_of_mem_filter held)
    subst mine
    obtain ⟨current, visible⟩ := (members ko).mp ((right ko).mpr ⟨found, valid⟩)
    cases last.symm.trans (current_iff.mp current)
    exact (visible_iff.mp visible).1
  · intro alone
    refine ⟨listed, returned, nodup, ?_⟩
    intro ko
    rw [members]
    exact current_of_leftAlone alone ko

def unpacked : Bytes → Option (KnowledgeObject Unit)
  | [name, validFrom, validTo, systemTime] =>
    some ⟨[name], (), ⟨validFrom.toNat, validTo.toNat, systemTime.toNat⟩⟩
  | _ => none

/-- Writes an object as four bytes, whether or not these tell all of it. -/
def smallCodec : Codec Unit where
  toCompressedBytes ko := .ok [ko.oid.headD 0, UInt8.ofNat ko.temporal.validFrom,
    UInt8.ofNat ko.temporal.validTo, UInt8.ofNat ko.temporal.systemTime]
  fromCompressedBytes bytes := (unpacked bytes).elim (.error "malformed") .ok

def firstObject : KnowledgeObject Unit := ⟨[7], (), ⟨0, 100, 0⟩⟩

/-- A put or a delete after the time asked takes the object out of the answer. -/
theorem later_calls_change_the_past :
    let first := firstObject
    let w (ops : List (Op Unit)) := run (Watched.step smallCodec) ⟨.withHlc ⟨0, 0⟩, []⟩ ops
    let found (ops : List (Op Unit)) := ((w ops).store.objectsVisibleAt smallCodec 1 5).toOption
    let before : List (Op Unit) := [.put first 0 false]
    found before = some [first.stamped 1] ∧
    (found (before ++ [.put first 0 true]) = some [] ∧
      (w (before ++ [.put first 0 true])).history.asOf 1 [7] = some (first.stamped 1)) ∧
    (found (before ++ [.delete [7] 0 true]) = some [] ∧
      (w (before ++ [.delete [7] 0 true])).history.asOf 1 [7] = some (first.stamped 1)) := by
  decide +kernel

/-- Put again and asked about the present: the objects in the answer are left alone. -/
theorem latest_version_is_answered :
    let w := run (Watched.step smallCodec) ⟨.withHlc ⟨0, 0⟩, []⟩
      [.put firstObject 0 false, .put firstObject 0 true]
    w.store.contains [7] = true ∧ (∃ ko, w.store.get smallCodec [7] = .ok (some ko)) ∧
    ∃ result, w.store.objectsVisibleAt smallCodec 2 5 = .ok result ∧ w.history.Answers 2 5 result := by
  intro w
  have history : w.history = [([7], .put (firstObject.stamped 1)), ([7], .put (firstObject.stamped 2))] := by
    decide +kernel
  have readable : w.history.Readable smallCodec := by
    rw [history]
    intro oid ko member bytes encoded
    simp only [mem_cons, Prod.mk.injEq, Event.put.injEq, not_mem_nil, or_false] at member
    rcases member with ⟨_, rfl⟩ | ⟨_, rfl⟩ <;> cases encoded <;> rfl
  obtain ⟨there, answered⟩ := visible_at_iff smallCodec ⟨0, 0⟩ _ readable
  have contained : w.store.contains [7] = true := by decide +kernel
  refine ⟨contained, (there [7]).mp contained, (answered 2 5).mpr ?_⟩
  intro oid ko _ _ event last
  have member := lastValue_mem oid last
  rw [history] at member
  simp only [mem_cons, Prod.mk.injEq, not_mem_nil, or_false] at member
  rcases member with ⟨_, rfl⟩ | ⟨_, rfl⟩ <;> decide

end Queries
end BitemporalQueries
