import SochDB.Interleavings

/-!
Snapshots when a commit is not one step. The counter moves past the stamp of a commit
before its versions are in the memtable, so a transaction that begins in between watches
them appear. Begins that fall between commits have repeatable and atomic snapshots.
-/
namespace SnapshotAtomicity
open Runs KeyedMaps WalRecords TxnManager BloomFilter VersionChains MemTables ChainView Option
open StorageEngine EngineSteps Recovery Interleavings

section
variable {H : KeyHashes} (crc : Crc32fast)

/-- Writes and aborts come from active transactions; the collector is not running. -/
def Serving (c : Threads H) : Action → Prop
  | .call (.writeRefs txnId _ _ _) | .call (.delete txnId _ _) | .call (.writeBatchRefs txnId _)
  | .abortRemove txnId _ => (active c.store txnId).isSome
  | .gcLoad | .gcPrune _ => False
  | _ => True

/-- A snapshot is loaded only when no commit is halfway through its keys. -/
def BeginsBetweenCommits (c : Threads H) : Action → Prop
  | .beginLoad _ _ => ∀ entry ∈ pairs c.publishing, entry.2.remaining = []
  | _ => True

instance (c : Threads H) : (a : Action) → Decidable (Serving c a)
  | .call (.writeRefs txnId _ _ _) | .call (.delete txnId _ _) | .call (.writeBatchRefs txnId _)
  | .abortRemove txnId _ => inferInstanceAs (Decidable ((active c.store txnId).isSome))
  | .gcLoad | .gcPrune _ => inferInstanceAs (Decidable False)
  | .beginLoad _ _ | .beginInsert _ | .recompute | .commitAdmit _ _ _ | .publish _ _
  | .call (.beginWithMode _ _) | .call .beginReadOnlyFast | .call (.abortReadOnlyFast _)
  | .call (.read _ _) | .call (.commit _ _ _) | .call (.abort _ _) | .call .gc =>
    inferInstanceAs (Decidable True)

instance (c : Threads H) : (a : Action) → Decidable (BeginsBetweenCommits c a)
  | .beginLoad _ _ => inferInstanceAs (Decidable (∀ entry ∈ pairs c.publishing, _))
  | .beginInsert _ | .recompute | .call _ | .commitAdmit _ _ _ | .publish _ _ | .abortRemove _ _
  | .gcLoad | .gcPrune _ => inferInstanceAs (Decidable True)

def view (c : Threads H) (snapshotTs : Nat) (key : Bytes) : Option Version :=
  Timeline.newestBefore Version.commitTs snapshotTs (chainsOf c.store key).committed

def Sees (c : Threads H) (snapshotTs commitTs : Nat) (key : Bytes) : Prop :=
  ∃ v ∈ view c snapshotTs key, commitTs ≤ v.commitTs

instance (c : Threads H) (snapshotTs commitTs : Nat) (key : Bytes) :
    Decidable (Sees c snapshotTs commitTs key) :=
  inferInstanceAs (Decidable (∃ v ∈ view c snapshotTs key, _))

/-- What a transaction reads of a key that it has not written is the same at both moments. -/
def Repeatable (first second : Threads H) : Prop :=
  ∀ txnId before after, active first.store txnId = some before →
    active second.store txnId = some after → ∀ key, key ∉ after.writeSet →
      (first.store.read txnId key).2 = (second.store.read txnId key).2

/-- Of the keys of one commit, a transaction sees all or none, whether it looks at them at
    the first moment or at the second. -/
def AllOrNone (first second : Threads H) : Prop :=
  ∀ txnId txn, active first.store txnId = some txn → (active second.store txnId).isSome →
    ∀ writer p, publication second writer = some p → ∀ k ∈ p.written, ∀ j ∈ p.written,
      (Sees first txn.snapshotTs p.commitTs k ↔ Sees second txn.snapshotTs p.commitTs j)

structure Settled (c : Threads H) : Prop where
  ids_active : ∀ txnId, (active c.store txnId).isSome → txnId < c.store.wal.nextTxnId
  ids_starting : ∀ txnId, (starting c txnId).isSome →
    txnId < c.store.wal.nextTxnId ∧ active c.store txnId = none
  ids_publishing : ∀ txnId, (publication c txnId).isSome →
    txnId < c.store.wal.nextTxnId ∧ active c.store txnId = none ∧ starting c txnId = none
  stamps : ∀ txnId txn, Snapshotted c txnId txn → txn.snapshotTs ≤ c.store.mvcc.tsCounter
  holders : ∀ key txnId, holder c.store key = some txnId → txnId < c.store.wal.nextTxnId ∧
    starting c txnId = none ∧ ∀ txn, active c.store txnId = some txn → key ∈ txn.writeSet
  written : ∀ txnId p, publication c txnId = some p → ∀ key ∈ p.written,
    key ∈ p.remaining ∧ holder c.store key = some txnId ∨
      ∃ v ∈ (chainsOf c.store key).committed, v.commitTs = p.commitTs
  clean : ∀ reader txn, Snapshotted c reader txn → ∀ txnId p, publication c txnId = some p →
    p.remaining ≠ [] → txn.snapshotTs ≤ p.commitTs

theorem fresh_settled {s : DurableStorage H} (fresh : Fresh s) : Settled (idle s) := by
  have idleActive : ∀ {txnId}, active (idle s).store txnId = none := fun {txnId} => fresh.none_active txnId
  have idleStarting : ∀ {txnId}, starting (idle s) txnId = none := fun {txnId} => get_empty txnId
  have idlePublishing : ∀ {txnId}, publication (idle s) txnId = none := fun {txnId} => get_empty txnId
  have free : ∀ {key}, holder (idle s).store key = none := by
    intro key
    show (chainsOf s key).owner = none
    rw [VersionChain.owner, fresh.slots_free]
    rfl
  refine ⟨?_, ?_, ?_, ?_, ?_, ?_, ?_⟩
  · simp [idleActive]
  · simp [idleStarting]
  · simp [idlePublishing]
  · simp [Snapshotted, idleActive, idleStarting]
  · simp [free]
  · simp [idlePublishing]
  · simp [idlePublishing]

section Steps
variable {c : Threads H} {a : Action} {txnId : Nat} {txn : MvccTransaction H}

variable {key : Bytes} {p : Publication}

theorem Serving.writer_active (serving : Serving c a) {op : Op} (call : a = .call op)
    (written : key ∈ writesOf op txnId) : (active c.store txnId).isSome := by
  subst call
  cases op with
  | writeRefs writer now k value | delete writer now k | writeBatchRefs writer writes =>
    simp only [writesOf, List.mem_ite_nil_right] at written
    exact written.1 ▸ serving
  | beginWithMode | beginReadOnlyFast | abortReadOnlyFast | read | commit | abort | gc => cases written

theorem starting_stays_empty (issued : txnId < c.store.wal.nextTxnId)
    (empty : starting c txnId = none) : starting (act crc c a) txnId = none := by
  refine eq_none_iff_forall_ne_some.mpr fun txn loaded => ?_
  rcases starting_of_act crc c loaded with ⟨old, _⟩ | ⟨_, _, _, new, _⟩
  · rw [empty] at old
    cases old
  · omega

theorem active_stays_empty (empty : active c.store txnId = none)
    (absent : starting c txnId = none ∨ a ≠ .beginInsert txnId) :
    active (act crc c a).store txnId = none := by
  refine eq_none_iff_forall_ne_some.mpr fun txn running => ?_
  rcases active_of_act crc c running with ⟨before, found, _⟩ | ⟨inserted, loaded⟩
  · rw [empty] at found
    cases found
  · rcases absent with missing | other
    · rw [missing] at loaded
      cases loaded
    · exact other inserted

section
variable (settled : Settled c)
include settled

theorem Settled.step_ids_active (running : (active (act crc c a).store txnId).isSome) :
    txnId < (act crc c a).store.wal.nextTxnId := by
  refine Nat.lt_of_lt_of_le ?_ (counters_act crc c a).1.2
  obtain ⟨txn, found⟩ := isSome_iff_exists.mp running
  rcases active_of_act crc c found with ⟨before, known, _⟩ | ⟨_, loaded⟩
  · exact settled.ids_active txnId (by rw [known]; rfl)
  · exact (settled.ids_starting txnId (by rw [loaded]; rfl)).1

theorem Settled.step_ids_starting (there : (starting (act crc c a) txnId).isSome) :
    txnId < (act crc c a).store.wal.nextTxnId ∧ active (act crc c a).store txnId = none := by
  obtain ⟨txn, loaded⟩ := isSome_iff_exists.mp there
  rcases starting_of_act crc c loaded with ⟨old, other⟩ | ⟨mode, now, rfl, new, _⟩
  · obtain ⟨issued, idle⟩ := settled.ids_starting txnId (by rw [old]; rfl)
    exact ⟨Nat.lt_of_lt_of_le issued (counters_act crc c a).1.2,
      active_stays_empty crc idle (.inr other)⟩
  · refine ⟨by rw [new]; exact Nat.lt_succ_self _, active_stays_empty crc ?_ (.inr (by simp))⟩
    refine eq_none_iff_forall_ne_some.mpr fun txn' found => ?_
    have issued := settled.ids_active txnId (by rw [found]; rfl)
    omega

theorem Settled.step_ids_publishing (going : (publication (act crc c a) txnId).isSome) :
    txnId < (act crc c a).store.wal.nextTxnId ∧ active (act crc c a).store txnId = none ∧
      starting (act crc c a) txnId = none := by
  obtain ⟨p, known⟩ := isSome_iff_exists.mp going
  rcases publication_of_act crc c known with ⟨before, old, _⟩ |
    ⟨shouldSync, now, txn, rfl, found, _⟩
  · obtain ⟨issued, idle, absent⟩ := settled.ids_publishing txnId (by rw [old]; rfl)
    exact ⟨Nat.lt_of_lt_of_le issued (counters_act crc c a).1.2,
      active_stays_empty crc idle (.inl absent), starting_stays_empty crc issued absent⟩
  · have issued := settled.ids_active txnId (by rw [found]; rfl)
    refine ⟨Nat.lt_of_lt_of_le issued (counters_act crc c _).1.2, ?_, starting_stays_empty crc issued ?_⟩
    · rw [(commitAdmit_store crc c txnId shouldSync now).1, active,
        (admitted_cases crc c.store txnId shouldSync now).2.2.1, active_decided, if_pos rfl]
    · refine eq_none_iff_forall_ne_some.mpr fun txn' loaded => ?_
      have idle := (settled.ids_starting txnId (by rw [loaded]; rfl)).2
      rw [idle] at found
      cases found

theorem Settled.step_stamps (taken : Snapshotted (act crc c a) txnId txn) :
    txn.snapshotTs ≤ (act crc c a).store.mvcc.tsCounter := by
  refine Nat.le_trans ?_ (counters_act crc c a).1.1
  rcases snapshotted_of_act crc c taken with ⟨before, known, same⟩ | ⟨_, _, _, stamp⟩
  · rw [same]
    exact settled.stamps txnId before known
  · exact Nat.le_of_eq stamp

theorem Settled.step_holders (serving : Serving c a)
    (held : holder (act crc c a).store key = some txnId) :
    txnId < (act crc c a).store.wal.nextTxnId ∧ starting (act crc c a) txnId = none ∧
      ∀ txn, active (act crc c a).store txnId = some txn → key ∈ txn.writeSet := by
  have grows := (counters_act crc c a).1.2
  rcases holder_of_act crc c held with before | ⟨op, rfl, access, written⟩
  · obtain ⟨issued, absent, listed⟩ := settled.holders key txnId before
    refine ⟨Nat.lt_of_lt_of_le issued grows, starting_stays_empty crc issued absent, fun txn running => ?_⟩
    rcases active_of_act crc c running with ⟨earlier, found, _, kept, _⟩ | ⟨_, loaded⟩
    · exact kept key (listed earlier found)
    · rw [absent] at loaded
      cases loaded
  · have running := serving.writer_active rfl written
    have issued := settled.ids_active txnId running
    have absent : starting c txnId = none := eq_none_iff_forall_ne_some.mpr fun txn loaded => by
      have idle := (settled.ids_starting txnId (by rw [loaded]; rfl)).2
      rw [idle] at running
      cases running
    refine ⟨Nat.lt_of_lt_of_le issued grows, starting_stays_empty crc issued absent, fun txn after => ?_⟩
    rcases active_of_act crc c after with ⟨_, _, _, _, new⟩ | ⟨inserted, _⟩
    · exact new op rfl access key written
    · cases inserted

end

theorem published_version (going : publication c txnId = some p) (waiting : key ∈ p.remaining)
    (held : holder c.store key = some txnId) :
    ∃ v ∈ (chainsOf (act crc c (.publish txnId key)).store key).committed, v.commitTs = p.commitTs := by
  obtain ⟨value, mine⟩ := isSome_iff_exists.mp (VersionChain.own_isSome.mpr held)
  rw [chains_publish crc c going waiting, (publish_own (List.mem_singleton.mpr rfl) mine p.commitTs).1]
  exact ⟨_, Timeline.mem_place.mpr (.inl rfl), rfl⟩

variable (settled : Settled c)
include settled

theorem Settled.step_written (serving : Serving c a) (going : publication (act crc c a) txnId = some p)
    (inside : key ∈ p.written) :
    key ∈ p.remaining ∧ holder (act crc c a).store key = some txnId ∨
      ∃ v ∈ (chainsOf (act crc c a).store key).committed, v.commitTs = p.commitTs := by
  rcases publication_of_act crc c going with ⟨before, old, sameStamp, sameKeys, _, shrinks⟩ |
    ⟨shouldSync, now, txn, rfl, found, _, rfl⟩
  · rw [sameKeys] at inside
    rw [sameStamp]
    rcases settled.written txnId before old key inside with ⟨waiting, held⟩ | ⟨v, member, stamp⟩
    · rcases shrinks key waiting with still | rfl
      · by_cases unpublished : a = .publish txnId key
        · subst unpublished
          exact .inr (published_version crc old waiting held)
        · refine .inl ⟨still, holder_kept crc c held (fun now same => ?_) unpublished⟩
          subst same
          have running : (active c.store txnId).isSome := serving
          rw [(settled.ids_publishing txnId (by rw [old]; rfl)).2.1] at running
          cases running
      · exact .inr (published_version crc old waiting held)
    · refine .inr ⟨v, ?_, stamp⟩
      rcases committed_act crc c a key with same | ⟨watermark, rfl⟩ | ⟨_, _, _, _, _, _, _, placed⟩
      · rw [same]
        exact member
      · exact absurd serving id
      · rw [placed]
        exact Timeline.mem_place.mpr (.inr member)
  · obtain ⟨tracked, owned⟩ := List.mem_filter.mp inside
    exact .inl ⟨tracked, holder_kept crc c (VersionChain.own_isSome.mp owned) (by simp) (by simp)⟩

theorem Settled.step_clean (between : BeginsBetweenCommits c a) {reader : Nat}
    (taken : Snapshotted (act crc c a) reader txn) (going : publication (act crc c a) txnId = some p)
    (unfinished : p.remaining ≠ []) :
    txn.snapshotTs ≤ p.commitTs := by
  rcases publication_of_act crc c going with ⟨before, old, sameStamp, _, part, _⟩ |
    ⟨shouldSync, now, ending, rfl, _, _, rfl⟩
  · have waiting : before.remaining ≠ [] := by
      intro done
      rw [done, List.sublist_nil] at part
      exact unfinished part
    rcases snapshotted_of_act crc c taken with ⟨earlier, known, same⟩ | ⟨mode, now, rfl, _⟩
    · rw [same, sameStamp]
      exact settled.clean reader earlier known txnId before old waiting
    · exact absurd (between (txnId, before) (mem_pairs.mpr old)) waiting
  · rcases snapshotted_of_act crc c taken with ⟨earlier, known, same⟩ | ⟨_, _, other, _⟩
    · rw [same]
      exact settled.stamps reader earlier known
    · cases other

theorem Settled.step (serving : Serving c a) (between : BeginsBetweenCommits c a) :
    Settled (act crc c a) where
  ids_active _ := settled.step_ids_active crc
  ids_starting _ := settled.step_ids_starting crc
  ids_publishing _ := settled.step_ids_publishing crc
  stamps _ _ := settled.step_stamps crc
  holders _ _ := settled.step_holders crc serving
  written _ _ going _ := settled.step_written crc serving going
  clean _ _ taken _ _ going := settled.step_clean crc between taken going

theorem Settled.view_kept (serving : Serving c a) (taken : Snapshotted c txnId txn) (key : Bytes) :
    view (act crc c a) txn.snapshotTs key = view c txn.snapshotTs key := by
  unfold view
  rcases committed_act crc c a key with same | ⟨watermark, rfl⟩ |
    ⟨writer, p, value, _, going, waiting, _, placed⟩
  · rw [same]
  · exact absurd serving id
  · have late := settled.clean txnId txn taken writer p going (List.ne_nil_of_mem waiting)
    rw [placed, Timeline.newestBefore_place (chainsOf c.store key).sorted, if_neg]
    exact fun shown => absurd shown.1 (Nat.not_lt.mpr late)

theorem Settled.all_or_none (taken : Snapshotted c txnId txn) {writer : Nat}
    (going : publication c writer = some p) {k j : Bytes} (here : k ∈ p.written) (there : j ∈ p.written) :
    Sees c txn.snapshotTs p.commitTs k ↔ Sees c txn.snapshotTs p.commitTs j := by
  rcases Nat.lt_or_ge p.commitTs txn.snapshotTs with past | future
  · have finished : p.remaining = [] := by
      by_contra unfinished
      have late := settled.clean txnId txn taken writer p going unfinished
      omega
    have seen : ∀ key ∈ p.written, Sees c txn.snapshotTs p.commitTs key := by
      intro key inside
      rcases settled.written writer p going key inside with ⟨waiting, _⟩ | ⟨v, member, stamp⟩
      · rw [finished] at waiting
        cases waiting
      · rw [← stamp] at past ⊢
        exact Timeline.newestBefore_of_mem (chainsOf c.store key).sorted member past
    exact iff_of_true (seen k here) (seen j there)
  · have unseen : ∀ key, ¬ Sees c txn.snapshotTs p.commitTs key := by
      rintro key ⟨v, shown, newer⟩
      have before := (Timeline.mem_of_newestBefore shown).2
      omega
    exact iff_of_false (unseen k) (unseen j)

theorem Settled.read_view (found : active c.store txnId = some txn) (unwritten : key ∉ txn.writeSet) :
    (c.store.read txnId key).2 = .ok ((view c txn.snapshotTs key).bind Version.value) := by
  have free : (chainsOf c.store key).own txnId = none := by
    rw [← not_isSome_iff_eq_none, VersionChain.own_isSome]
    exact fun held => unwritten ((settled.holders key txnId held).2.2 txn found)
  rw [read_reply found, free]
  rfl

end Steps

structure Follows (first : Threads H) (txnId : Nat) (txn : MvccTransaction H) (c : Threads H) : Prop where
  settled : Settled c
  issued : txnId < c.store.wal.nextTxnId
  absent : starting c txnId = none
  kept : ∀ now, active c.store txnId = some now → now.snapshotTs = txn.snapshotTs ∧
    (∀ key ∈ txn.writeSet, key ∈ now.writeSet) ∧
    ∀ key, view c txn.snapshotTs key = view first txn.snapshotTs key

theorem Follows.step {first c : Threads H} {txnId : Nat} {txn : MvccTransaction H} {a : Action}
    (follows : Follows first txnId txn c) (serving : Serving c a)
    (between : BeginsBetweenCommits c a) : Follows first txnId txn (act crc c a) := by
  refine ⟨follows.settled.step crc serving between,
    Nat.lt_of_lt_of_le follows.issued (counters_act crc c a).1.2,
    starting_stays_empty crc follows.issued follows.absent, fun now running => ?_⟩
  rcases active_of_act crc c running with ⟨before, found, same, grows, _⟩ | ⟨_, loaded⟩
  · obtain ⟨snapshot, listed, shown⟩ := follows.kept before found
    refine ⟨same.trans snapshot, fun key member => grows key (listed key member), fun key => ?_⟩
    have kept := follows.settled.view_kept crc serving (.inl found) key
    rw [snapshot] at kept
    rw [kept, shown]
  · rw [follows.absent] at loaded
    cases loaded

/-- Whenever snapshots are loaded only between commits, reads are repeatable and every
    commit is seen as a whole, by every transaction and between any two moments. -/
theorem snapshot_reads_repeat_and_are_atomic (ourPid : UInt32) (file : Bytes) (kind : MemTableType)
    (enableOrderedIndex recovers : Bool) (before between : List Action) :
    let start : Threads H := idle (started crc ourPid file kind enableOrderedIndex recovers)
    let first := run (act crc) start before
    let second := run (act crc) first between
    Guarded (act crc) Serving start (before ++ between) →
      Guarded (act crc) BeginsBetweenCommits start (before ++ between) →
      Repeatable first second ∧ AllOrNone first second := by
  intro start first second serving separated
  have both := serving.and separated
  have fresh : Settled start :=
    fresh_settled (started_fresh crc ourPid file kind enableOrderedIndex recovers)
  have settled : Settled first := both.left.preserves
    (fun c a settled guarded => settled.step crc guarded.1 guarded.2) fresh
  have follows : ∀ txnId txn, active first.store txnId = some txn → Follows first txnId txn second := by
    intro txnId txn found
    refine (both.right).preserves (fun c a follows guarded => follows.step crc guarded.1 guarded.2)
      ⟨settled, settled.ids_active txnId (by rw [found]; rfl), ?_, ?_⟩
    · refine eq_none_iff_forall_ne_some.mpr fun txn' loaded => ?_
      rw [(settled.ids_starting txnId (by rw [loaded]; rfl)).2] at found
      cases found
    · intro now same
      obtain rfl := some.inj (found.symm.trans same)
      exact ⟨rfl, fun _ member => member, fun _ => rfl⟩
  constructor
  · intro txnId txn now found running key unwritten
    have followed := follows txnId txn found
    obtain ⟨snapshot, listed, shown⟩ := followed.kept now running
    rw [settled.read_view found fun member => unwritten (listed key member),
      followed.settled.read_view running unwritten, snapshot, shown]
  · intro txnId txn found running writer p going k here j there
    obtain ⟨now, still⟩ := isSome_iff_exists.mp running
    have followed := follows txnId txn found
    obtain ⟨snapshot, _, shown⟩ := followed.kept now still
    have atOnce := followed.settled.all_or_none (.inl still) going here there
    rw [snapshot] at atOnce
    rw [← atOnce, Sees, Sees, shown]

end

def twoWrites : List Action :=
  [.beginLoad .readWrite 0, .beginInsert 1, .recompute, .call (.writeRefs 1 0 [97] [1]),
    .call (.writeRefs 1 0 [98] [1])]

def readerBegins : List Action := [.beginLoad .readWrite 0, .beginInsert 2, .recompute]

/-- The reader begins before the commit and looks when one of the two keys is published. -/
theorem early_reader_sees_no_half_commit :
    let start : Threads lengthHashes := idle (started ieee 0 [] .standard true false)
    let first := run (act ieee) start (twoWrites ++ readerBegins ++ [.commitAdmit 1 true 0, .publish 1 [97]])
    let second := run (act ieee) first [.publish 1 [98]]
    (second.store.read 2 [97]).2.toOption = some none ∧
      Repeatable first second ∧ AllOrNone first second :=
  ⟨by decide +kernel, snapshot_reads_repeat_and_are_atomic ieee 0 [] .standard true false _ _
    (by decide +kernel) (by decide +kernel)⟩

/-- The reader begins after the stamp is allocated and before the keys are published. -/
theorem late_reader_sees_half_commit :
    let start : Threads lengthHashes := idle (started ieee 0 [] .standard true false)
    let first := run (act ieee) start (twoWrites ++ [.commitAdmit 1 true 0, .recompute] ++ readerBegins)
    let second := run (act ieee) first [.publish 1 [97]]
    (first.store.read 2 [97]).2.toOption = some none ∧
      (second.store.read 2 [97]).2.toOption = some (some [1]) ∧
      (second.store.read 2 [98]).2.toOption = some none ∧
      ¬ Repeatable first second ∧ ¬ AllOrNone second second := by
  intro start first second
  have before : (first.store.read 2 [97]).2.toOption = some none := by decide +kernel
  have after : (second.store.read 2 [97]).2.toOption = some (some [1]) := by decide +kernel
  have began : (active first.store 2).isSome := by decide +kernel
  have stays : (active second.store 2).isSome := by decide +kernel
  have admits : (publication second 1).isSome := by decide +kernel
  have unwritten : ∀ txn ∈ active second.store 2, [97] ∉ txn.writeSet := by decide +kernel
  have half : ∀ txn ∈ active second.store 2, ∀ p ∈ publication second 1,
      ([97] ∈ p.written ∧ [98] ∈ p.written) ∧ Sees second txn.snapshotTs p.commitTs [97] ∧
        ¬ Sees second txn.snapshotTs p.commitTs [98] := by decide +kernel
  obtain ⟨txn, found⟩ := isSome_iff_exists.mp began
  obtain ⟨now, running⟩ := isSome_iff_exists.mp stays
  obtain ⟨p, going⟩ := isSome_iff_exists.mp admits
  refine ⟨before, after, by decide +kernel, fun repeats => ?_, fun whole => ?_⟩
  · rw [repeats 2 txn now found running [97] (unwritten now running), after] at before
    cases before
  · obtain ⟨⟨here, there⟩, seen, unseen⟩ := half now running p going
    exact unseen ((whole 2 now running stays 1 p going [97] here [98] there).mp seen)

end SnapshotAtomicity
