import SochDB.Histories

/-!
First committer wins. The memtable refuses a write only while another transaction holds
the slot of the key, so a writer whose snapshot misses a version committed since then is
let through. The law holds exactly when no commit overwrites a version outside its
snapshot, and that is so when every write that is taken sees the newest version.
-/
namespace FirstCommitter
open Runs WalRecords TxnManager BloomFilter VersionChains MemTables List
open StorageEngine EngineSteps Recovery Histories

/-- Of two transactions that each began before the other committed, no key is written
    by both. -/
def FirstCommitterWins (history : List Committed) : Prop :=
  ∀ a ∈ history, ∀ b ∈ history, a.txnId ≠ b.txnId → a.beganAt < b.committedAt →
    b.beganAt < a.committedAt → ∀ key ∈ a.published, key ∉ b.published

section
variable {H : KeyHashes} (crc : Crc32fast)

def SeesNewest (s : DurableStorage H) (snapshotTs : Nat) (key : Bytes) : Prop :=
  ∀ v ∈ (chainsOf s key).committed.head?, v.commitTs < snapshotTs

/-- No version that an accepted commit puts a new one on top of is missing from its
    snapshot. -/
def OverwritesOnlySeen (s : DurableStorage H) : Op → Prop
  | .commit txnId _ _ => ∀ txn ∈ active s txnId, s.mvcc.refuses txn = false →
      ∀ key ∈ published s txnId txn, SeesNewest s txn.snapshotTs key
  | _ => True

/-- A running transaction writes a key only when the newest version is in its snapshot,
    unless another transaction holds the slot. -/
def WritesOverSeen (s : DurableStorage H) : Op → Prop
  | .writeRefs txnId _ key _ | .delete txnId _ key =>
    Refused s txnId key ∨ ∀ txn ∈ active s txnId, SeesNewest s txn.snapshotTs key
  | .writeBatchRefs txnId writes =>
    ∀ w ∈ writes, Refused s txnId w.2.1 ∨ ∀ txn ∈ active s txnId, SeesNewest s txn.snapshotTs w.2.1
  | _ => True

instance (s : DurableStorage H) (snapshotTs : Nat) (key : Bytes) : Decidable (SeesNewest s snapshotTs key) :=
  inferInstanceAs (Decidable (∀ v ∈ (chainsOf s key).committed.head?, _))

instance (s : DurableStorage H) : DecidablePred (WritesOverSeen s)
  | .writeRefs .. | .delete .. => inferInstanceAs (Decidable (_ ∨ _))
  | .writeBatchRefs txnId writes =>
    inferInstanceAs (Decidable (∀ w ∈ writes, Refused s txnId w.2.1 ∨ _))
  | .beginWithMode .. | .beginReadOnlyFast | .abortReadOnlyFast _ | .read .. | .commit .. | .abort .. | .gc =>
    isTrue trivial

def HoldsOverSeen (s : DurableStorage H) : Prop :=
  ∀ txnId txn key, active s txnId = some txn → key ∈ txn.writeSet → holder s key = some txnId →
    SeesNewest s txn.snapshotTs key

theorem mem_published {s : DurableStorage H} {txnId : Nat} {txn : MvccTransaction H} {key : Bytes} :
    key ∈ published s txnId txn ↔ key ∈ txn.writeSet ∧ holder s key = some txnId := by
  rw [published, mem_filter, VersionChain.own_isSome]
  rfl

section Commits
variable {first : Nat} {o : Observed H} {txnId : Nat} {txn : MvccTransaction H}

theorem entry_wins_iff (ordered : Ordered first o) (versioned : Versioned first o)
    (found : active o.store txnId = some txn) (wins : FirstCommitterWins o.history) :
    FirstCommitterWins (o.history ++ [entry o txnId txn]) ↔
      ∀ key ∈ published o.store txnId txn, SeesNewest o.store txn.snapshotTs key := by
  have running : (active o.store txnId).isSome := by rw [found]; rfl
  constructor
  · intro law key inside v head
    by_contra unseen
    have member : v ∈ (chainsOf o.store key).committed := mem_of_head? head
    have stamps := ordered.stamps_active txnId txn found
    rcases versioned.sources key v member with before | ⟨c, known, stamp, written⟩
    · omega
    · have other : (entry o txnId txn).txnId ≠ c.txnId := by
        intro same
        have ended := (ordered.ids_history c known).2
        rw [← same, show (entry o txnId txn).txnId = txnId from rfl, found] at ended
        cases ended
      have overlap := (ordered.order_active txnId txn found c known).mpr (by omega)
      have clock := ordered.clock_history c known
      exact law (entry o txnId txn) (by simp) c (mem_append_left _ known) other overlap
        (Nat.lt_trans clock.1 clock.2) key inside written
  · intro seen
    -- an earlier writer of a key is at most as new as the newest version, which is seen
    have apart : ∀ c ∈ o.history, o.beganAt txnId < c.committedAt → ∀ key ∈ c.published,
        key ∉ published o.store txnId txn := by
      intro c known overlap key written inside
      obtain ⟨v, head, newer⟩ := versioned.newest c known key written
      have visible := seen key inside v head
      have missed := (ordered.order_active txnId txn found c known).mp overlap
      omega
    intro a memberA b memberB different forward backward key writtenA writtenB
    rw [mem_append, mem_singleton] at memberA memberB
    rcases memberA with oldA | rfl
    · rcases memberB with oldB | rfl
      · exact wins a oldA b oldB different forward backward key writtenA writtenB
      · exact apart a oldA backward key writtenA writtenB
    · rcases memberB with oldB | rfl
      · exact apart b oldB forward key writtenB writtenA
      · exact different rfl

end Commits

theorem wins_step {first : Nat} {o : Observed H} (ordered : Ordered first o)
    (versioned : Versioned first o) (wins : FirstCommitterWins o.history) (op : Op) :
    FirstCommitterWins (observe crc o op).history ↔ OverwritesOnlySeen o.store op := by
  rcases observe_cases crc o op with ⟨txnId, shouldSync, now, txn, rfl, found, accepted, grown, _⟩ |
    ⟨refused, _, sameHistory, _⟩
  · rw [grown, entry_wins_iff ordered versioned found wins]
    constructor
    · intro seen other known _
      obtain rfl : txn = other := Option.some.inj (found.symm.trans known)
      exact seen
    · intro guarded
      exact guarded txn found accepted
  · rw [sameHistory]
    refine iff_of_true wins ?_
    cases op with
    | commit txnId shouldSync now =>
      intro txn found accepted
      have rejected := refused txnId shouldSync now rfl
      rw [commits_iff.mpr ⟨txn, found, accepted⟩] at rejected
      cases rejected
    | beginWithMode | beginReadOnlyFast | abortReadOnlyFast | read | writeRefs | delete
    | writeBatchRefs | abort | gc => trivial

section Writes
variable {s : DurableStorage H}

theorem WritesOverSeen.sees {op : Op} (guarded : WritesOverSeen s op) {txnId : Nat}
    {txn : MvccTransaction H} (found : active s txnId = some txn) {key : Bytes}
    (written : key ∈ writesOf op txnId) (free : ¬ Refused s txnId key) :
    SeesNewest s txn.snapshotTs key := by
  cases op with
  | writeRefs writer now k value | delete writer now k =>
    simp only [writesOf, mem_ite_nil_right, mem_singleton] at written
    obtain ⟨rfl, rfl⟩ := written
    exact guarded.resolve_left free txn found
  | writeBatchRefs writer writes =>
    simp only [writesOf, mem_ite_nil_right, mem_map] at written
    obtain ⟨rfl, w, member, rfl⟩ := written
    exact (guarded w member).resolve_left free txn found
  | beginWithMode | beginReadOnlyFast | abortReadOnlyFast | read | commit | abort | gc => cases written

theorem head_while_held {op : Op} {txnId : Nat} {key : Bytes}
    (held : holder (step crc s op) key = some txnId) (running : (active (step crc s op) txnId).isSome) :
    (chainsOf (step crc s op) key).committed.head? = (chainsOf s key).committed.head? := by
  by_cases quiet : ∀ ended shouldSync now, op ≠ .commit ended shouldSync now
  · exact (committed_quiet crc s quiet key).2
  · simp only [not_forall, not_not] at quiet
    obtain ⟨ended, shouldSync, now, rfl⟩ := quiet
    have before : holder s key = some txnId :=
      (holder_of_step crc s held).resolve_right fun new => by cases new.1
    have different : txnId ≠ ended := by
      rintro rfl
      have gone : active (step crc s (.commit txnId shouldSync now)) txnId = _ :=
        active_commit crc s txnId shouldSync now txnId
      rw [gone, if_pos rfl] at running
      cases running
    cases verdict : commits s ended with
    | false =>
      have same : chainsOf (step crc s (.commit ended shouldSync now)) = chainsOf s :=
        chains_commit_failed crc s verdict shouldSync now
      rw [same]
    | true =>
      obtain ⟨txn, known, accepted⟩ := commits_iff.mp verdict
      rcases committed_commit crc s known accepted shouldSync now key with ⟨inside, _⟩ | ⟨_, same⟩
      · have owner := (mem_published.mp inside).2
        exact absurd (Option.some.inj (before.symm.trans owner)) different
      · exact congrArg List.head? same

theorem HoldsOverSeen.step (holds : HoldsOverSeen s) (op : Op) (guarded : WritesOverSeen s op) :
    HoldsOverSeen (step crc s op) := by
  intro txnId txn key found tracked held
  rw [SeesNewest, head_while_held crc held (by rw [found]; rfl)]
  rcases active_of_step crc s found with ⟨before, known, goesOn⟩ | ⟨_, _, _, empty⟩
  · rw [goesOn.snapshotTs]
    rcases holder_of_step crc s held with already | ⟨written, free⟩
    · rcases (goesOn.writeSet key).mp tracked with old | written
      · exact holds txnId before key known old already
      · refine guarded.sees known written ?_
        rintro ⟨other, holding, different⟩
        exact different (Option.some.inj (holding.symm.trans already))
    · exact guarded.sees known written free
  · rw [empty] at tracked
    cases tracked

end Writes

section Growth
variable (o : Observed H)

theorem history_grows (ops : List Op) : o.history ⊆ (run (observe crc) o ops).history := by
  induction ops generalizing o with
  | nil => exact List.Subset.refl _
  | cons op ops ih => exact List.Subset.trans (subset_append_left _ _) (ih (observe crc o op))

theorem FirstCommitterWins.of_subset {history more : List Committed} (wins : FirstCommitterWins more)
    (part : history ⊆ more) : FirstCommitterWins history :=
  fun a memberA b memberB => wins a (part memberA) b (part memberB)

end Growth

/-- The law holds exactly if no accepted commit overwrites a version that its snapshot
    misses; it does hold when every write that is taken sees the newest version. -/
theorem first_committer_wins_iff (ourPid : UInt32) (file : Bytes) (kind : MemTableType)
    (enableOrderedIndex recovers : Bool) (ops : List Op) :
    let start : DurableStorage H := started crc ourPid file kind enableOrderedIndex recovers
    (FirstCommitterWins (run (observe crc) (unobserved start) ops).history ↔
        Guarded (step crc) OverwritesOnlySeen start ops) ∧
      (Guarded (step crc) WritesOverSeen start ops →
        FirstCommitterWins (run (observe crc) (unobserved start) ops).history) := by
  intro start
  have fresh : Fresh start := started_fresh crc ourPid file kind enableOrderedIndex recovers
  let Inv : Observed H → Prop := fun o => Ordered start.mvcc.tsCounter o ∧
    Versioned start.mvcc.tsCounter o ∧ FirstCommitterWins o.history
  have initial : Inv (unobserved start) :=
    ⟨fresh_ordered fresh, fresh_versioned fresh, fun a member => by cases member⟩
  have anything : Guarded (observe crc) (fun _ _ => True) (unobserved start) ops :=
    Guarded.of_all (fun _ _ => trivial) _ _
  have law : Guarded (observe crc) (fun o op => OverwritesOnlySeen o.store op) (unobserved start) ops ↔
      ∀ before, before <+: ops →
        FirstCommitterWins (run (observe crc) (unobserved start) before).history := by
    refine guarded_iff_always Inv (fun o => FirstCommitterWins o.history) ?_ ?_ ?_ initial anything
    · rintro o op ⟨ordered, versioned, wins⟩ _ guarded
      exact ⟨ordered.step crc op, versioned.step crc op,
        (wins_step crc ordered versioned wins op).mpr guarded⟩
    · exact fun o inv => inv.2.2
    · rintro o op ⟨ordered, versioned, wins⟩ _ after
      exact (wins_step crc ordered versioned wins op).mp after
  have seen : Guarded (observe crc) (fun o op => OverwritesOnlySeen o.store op) (unobserved start) ops ↔
      Guarded (step crc) OverwritesOnlySeen start ops :=
    guarded_view Observed.store (fun _ _ => rfl) (unobserved start) ops
  have whole : FirstCommitterWins (run (observe crc) (unobserved start) ops).history ↔
      Guarded (step crc) OverwritesOnlySeen start ops := by
    refine Iff.trans ?_ seen
    rw [law]
    constructor
    · rintro wins before ⟨after, rfl⟩
      rw [run_append] at wins
      exact wins.of_subset (history_grows crc _ after)
    · exact fun always => always ops (prefix_refl ops)
  refine ⟨whole, fun guarded => whole.mpr ?_⟩
  have empty : HoldsOverSeen start := by
    intro txnId txn key found
    rw [fresh.none_active] at found
    cases found
  refine guarded.entails ?_ (fun s op holds writes => holds.step crc op writes) empty
  intro s op holds _
  cases op with
  | commit txnId shouldSync now =>
    intro txn found _ key inside
    obtain ⟨tracked, held⟩ := mem_published.mp inside
    exact holds txnId txn key found tracked held
  | beginWithMode | beginReadOnlyFast | abortReadOnlyFast | read | writeRefs | delete
  | writeBatchRefs | abort | gc => trivial

end

/-- Two transactions write other keys side by side, and a third one begins after both. -/
def seenUpdates : List Op :=
  [.beginWithMode .readWrite 0, .beginWithMode .readWrite 0, .writeRefs 1 0 [120] [1], .writeRefs 2 0 [121] [2],
    .commit 1 true 0, .writeRefs 2 0 [122] [2], .commit 2 true 0, .beginWithMode .readWrite 0,
    .writeRefs 3 0 [120] [3], .commit 3 true 0]

theorem seen_updates_win :
    let start : DurableStorage lengthHashes := started ieee 0 [] .standard true false
    Guarded (step ieee) WritesOverSeen start seenUpdates ∧
    (run (observe ieee) (unobserved start) seenUpdates).history.length = 3 ∧
    FirstCommitterWins (run (observe ieee) (unobserved start) seenUpdates).history := by
  intro start
  have seen : Guarded (step ieee) WritesOverSeen start seenUpdates := by decide +kernel
  exact ⟨seen, by decide +kernel,
    (first_committer_wins_iff ieee 0 [] .standard true false seenUpdates).2 seen⟩

def lostUpdate : List Op :=
  [.beginWithMode .readWrite 0, .beginWithMode .readWrite 0, .writeRefs 1 0 [120] [1], .commit 1 true 0,
    .writeRefs 2 0 [120] [2], .commit 2 true 0]

theorem late_writer_overwrites_unseen_commit :
    let final : Observed lengthHashes :=
      run (observe ieee) (unobserved (started ieee 0 [] .standard true false)) lostUpdate
    (final.history.map fun c => (c.txnId, c.beganAt, c.committedAt, c.published)) =
        [(1, 0, 3, [[120]]), (2, 1, 5, [[120]])] ∧
      ¬ FirstCommitterWins final.history := by
  intro final
  have entries : (final.history.map fun c => (c.txnId, c.beganAt, c.committedAt, c.published)) =
      [(1, 0, 3, [[120]]), (2, 1, 5, [[120]])] := by decide +kernel
  refine ⟨entries, fun wins => ?_⟩
  have both : ∃ a ∈ final.history, ∃ b ∈ final.history, a.txnId ≠ b.txnId ∧
      a.beganAt < b.committedAt ∧ b.beganAt < a.committedAt ∧ [120] ∈ a.published ∧
      [120] ∈ b.published := by decide +kernel
  obtain ⟨a, memberA, b, memberB, different, forward, backward, writtenA, writtenB⟩ := both
  exact wins a memberA b memberB different forward backward [120] writtenA writtenB

end FirstCommitter
