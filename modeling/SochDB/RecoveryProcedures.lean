import SochDB.WalReplay

/-!
The two recovery procedures of the log. `replay_for_recovery` applies a transaction when it
meets the commit record. `crash_recovery` reads the whole log first and then takes the pending
lists of the committed ids out of a hash map, in whatever order that map yields them.
-/
namespace RecoveryProcedures
open Framing KeyedMaps WalRecords WalFraming WriteAheadLog WalReplay List

/-- The order in which a `HashMap` yields its entries. Its hasher is seeded at random, so
    nothing more is known about it. -/
structure HashOrder where
  iterate : Map UInt64 (List Write) → List (UInt64 × List Write)
  iterate_perm : ∀ m, (iterate m).Perm (pairs m)

/-- `rolledBackTxns` is a checked difference: `none` when the subtraction underflows. -/
structure CrashRecoveryStats where
  totalRecords : Nat
  committedTxns : Nat
  rolledBackTxns : Option Nat
  abortedTxns : Nat
  recoveredWrites : Nat
  tornRecords : Nat
  bytesRead : Nat
  maxTxnId : UInt64
  deriving DecidableEq, Repr

structure Tally where
  totalRecords : Nat
  maxTxnId : UInt64
  committedTxns : Finset UInt64
  abortedTxns : Finset UInt64
  pendingWrites : Map UInt64 (List Write)
  allTxns : Finset UInt64

namespace Tally

def new : Tally := ⟨0, 0, ∅, ∅, ∅, ∅⟩

def step (tally : Tally) (entry : TxnWalEntry) : Tally :=
  let tally :=
    { tally with
      totalRecords := tally.totalRecords + 1
      maxTxnId := if entry.txnId > tally.maxTxnId then entry.txnId else tally.maxTxnId }
  match entry.recordType with
  | .txnBegin =>
    { tally with
      pendingWrites := tally.pendingWrites.insert entry.txnId []
      allTxns := insert entry.txnId tally.allTxns }
  | .data =>
    { tally with
      pendingWrites := adjust tally.pendingWrites entry.txnId (· ++ [(entry.key, entry.value)]) }
  | .txnCommit => { tally with committedTxns := insert entry.txnId tally.committedTxns }
  | .txnAbort =>
    { tally with
      pendingWrites := tally.pendingWrites.erase entry.txnId
      abortedTxns := insert entry.txnId tally.abortedTxns }
  | _ => tally

def ofRecords (records : List TxnWalEntry) : Tally := records.foldl step new

end Tally

def checkedSub (a b : Nat) : Option Nat := if b ≤ a then some (a - b) else none

/-- The loop over the pending lists, with the write list, `committed_txns` and
    `recovered_writes`. -/
def collectCommitted (committedTxns : Finset UInt64) (entries : List (UInt64 × List Write)) :
    List Write × Nat × Nat :=
  entries.foldl (fun (result, committed, recovered) (txnId, writes) =>
    if txnId ∈ committedTxns then (result ++ writes, committed + 1, recovered + writes.length)
    else (result, committed, recovered)) ([], 0, 0)

section
variable (crc : Crc32fast)

/-- The plaintext branch: a read error other than end of file counts as one torn record.
    The duration of the call is left out. -/
def crashRecovery (order : HashOrder) (file : Bytes) : List Write × CrashRecoveryStats :=
  let (records, stopped) := scan (fromReader crc) file
  let tally := Tally.ofRecords records
  let (result, committed, recovered) :=
    collectCommitted tally.committedTxns (order.iterate tally.pendingWrites)
  (result,
    { totalRecords := tally.totalRecords
      committedTxns := committed
      rolledBackTxns := do
        let uncommitted ← checkedSub tally.allTxns.card committed
        checkedSub uncommitted tally.abortedTxns.card
      abortedTxns := tally.abortedTxns.card
      recoveredWrites := recovered
      tornRecords := if stopped = some .unexpectedEof then 0 else 1
      bytesRead := file.length
      maxTxnId := tally.maxTxnId })

/-- Whatever the order of the hash map, both procedures rebuild the same map, and the
    statistics of `crash_recovery` do not underflow. -/
def ProceduresAgree (file : Bytes) : Prop :=
  ∀ order : HashOrder,
    (∀ key, lastValue (crashRecovery crc order file).1 key =
      lastValue (replayForRecovery crc file).1 key) ∧
    (crashRecovery crc order file).2.rolledBackTxns.isSome

end

section Log

def ofTxn (log : List TxnWalEntry) (txnId : UInt64) : List TxnWalEntry :=
  log.filter fun e => e.txnId = txnId

def idsOf (recordType : WalRecordType) (log : List TxnWalEntry) : Finset UInt64 :=
  ((log.filter fun e => e.recordType = recordType).map TxnWalEntry.txnId).toFinset

/-- What one id has written since its last begin record, if no abort record followed it.
    A commit record does not end this span. -/
def sinceBegin (records : List TxnWalEntry) : Option (List Write) :=
  records.foldl (fun writes e => match e.recordType with
    | .txnBegin => some []
    | .data => writes.map (· ++ [(e.key, e.value)])
    | .txnAbort => none
    | _ => writes) none

/-- What one id has written since its last begin, commit or abort record. -/
def openBatch (records : List TxnWalEntry) : List Write :=
  records.foldl (fun writes e => match e.recordType with
    | .txnBegin | .txnCommit | .txnAbort => []
    | .data => writes ++ [(e.key, e.value)]
    | _ => writes) []

/-- The batches that the commit records of a log close, in log order; `seen` is the part
    of the log before it. -/
def committedBatches (seen : List TxnWalEntry) : List TxnWalEntry → List (List Write)
  | [] => []
  | e :: later =>
    (if e.recordType = .txnCommit then [openBatch (ofTxn seen e.txnId)] else []) ++
      committedBatches (seen ++ [e]) later

def lastCommitted (log : List TxnWalEntry) (key : Bytes) : Option Bytes :=
  lastValue (committedBatches [] log).flatten key

/-- The ids with a commit record somewhere in the log whose last begin record is behind
    their last abort record. -/
def keptIds (log : List TxnWalEntry) : Finset UInt64 :=
  (idsOf .txnCommit log).filter fun txnId => (sinceBegin (ofTxn log txnId)).isSome

def keptWrites (log : List TxnWalEntry) (txnId : UInt64) : List Write :=
  (sinceBegin (ofTxn log txnId)).getD []

/-- Every kept id that writes a key ends on the last committed value of the key, a committed
    key has such an id, and the kept ids and the aborted ids are together no more than the
    begun ids. -/
structure Unambiguous (log : List TxnWalEntry) : Prop where
  settled : ∀ key, ∀ txnId ∈ keptIds log, ∀ value,
    lastValue (keptWrites log txnId) key = some value → lastCommitted log key = some value
  carried : ∀ key value, lastCommitted log key = some value →
    ∃ txnId ∈ keptIds log, lastValue (keptWrites log txnId) key = some value
  counted : (keptIds log).card + (idsOf .txnAbort log).card ≤ (idsOf .txnBegin log).card

variable (log : List TxnWalEntry) (e : TxnWalEntry)

theorem ofTxn_append_one (txnId : UInt64) :
    ofTxn (log ++ [e]) txnId = if e.txnId = txnId then ofTxn log txnId ++ [e] else ofTxn log txnId := by
  unfold ofTxn
  rw [filter_append, filter_singleton]
  by_cases same : e.txnId = txnId <;> simp [same]

theorem idsOf_append_one (recordType : WalRecordType) :
    idsOf recordType (log ++ [e]) =
      if e.recordType = recordType then insert e.txnId (idsOf recordType log)
      else idsOf recordType log := by
  unfold idsOf
  rw [filter_append, filter_singleton]
  by_cases same : e.recordType = recordType
  · ext txnId
    simp [same]
  · simp [same]

theorem committedBatches_append_one (seen : List TxnWalEntry) :
    committedBatches seen (log ++ [e]) = committedBatches seen log ++
      if e.recordType = .txnCommit then [openBatch (ofTxn (seen ++ log) e.txnId)] else [] := by
  induction log generalizing seen with
  | nil => simp [committedBatches]
  | cons first log ih =>
    rw [cons_append, committedBatches, ih, committedBatches, append_assoc,
      append_assoc, singleton_append]

end Log

section Tally
variable (log : List TxnWalEntry)

theorem tally_append_one (e : TxnWalEntry) :
    Tally.ofRecords (log ++ [e]) = (Tally.ofRecords log).step e := by
  unfold Tally.ofRecords
  rw [foldl_append]
  rfl

theorem tally_ids :
    (Tally.ofRecords log).committedTxns = idsOf .txnCommit log ∧
    (Tally.ofRecords log).abortedTxns = idsOf .txnAbort log ∧
    (Tally.ofRecords log).allTxns = idsOf .txnBegin log := by
  induction log using List.reverseRecOn with
  | nil => exact ⟨rfl, rfl, rfl⟩
  | append_singleton log e ih =>
    obtain ⟨committed, aborted, all⟩ := ih
    rw [tally_append_one, idsOf_append_one, idsOf_append_one, idsOf_append_one, ← committed,
      ← aborted, ← all]
    unfold Tally.step
    cases e.recordType <;> simp

theorem tally_pending (txnId : UInt64) :
    get (Tally.ofRecords log).pendingWrites txnId = sinceBegin (ofTxn log txnId) := by
  induction log using List.reverseRecOn with
  | nil => rfl
  | append_singleton log e ih =>
    rw [tally_append_one, ofTxn_append_one]
    by_cases same : e.txnId = txnId
    · subst same
      rw [if_pos rfl, sinceBegin, foldl_append, ← sinceBegin, ← ih]
      unfold Tally.step
      cases kind : e.recordType <;> simp [kind, get_insert, get_adjust, get_erase]
    · have different : txnId ≠ e.txnId := Ne.symm same
      rw [if_neg same, ← ih]
      unfold Tally.step
      cases kind : e.recordType <;> simp [get_insert, get_adjust, get_erase, different]

end Tally

section Replay
variable (log : List TxnWalEntry)

theorem replay_append_one (e : TxnWalEntry) :
    Replay.ofRecords (log ++ [e]) = (Replay.ofRecords log).step e := by
  unfold Replay.ofRecords
  rw [foldl_append]
  rfl

theorem replay_pending (txnId : UInt64) :
    (get (Replay.ofRecords log).pendingWrites txnId).getD [] = openBatch (ofTxn log txnId) := by
  induction log using List.reverseRecOn with
  | nil => rfl
  | append_singleton log e ih =>
    rw [replay_append_one, ofTxn_append_one]
    by_cases same : e.txnId = txnId
    · subst same
      rw [if_pos rfl, openBatch, foldl_append, ← openBatch, ← ih]
      unfold Replay.step
      cases kind : e.recordType <;> simp only [kind, foldl_cons, foldl_nil]
      case txnBegin => simp [get_insert]
      case data => simp [get_upsert]
      case txnAbort => simp [get_erase]
      case txnCommit =>
        cases pending : get (Replay.ofRecords log).pendingWrites e.txnId with
        | some writes => simp [get_erase]
        | none => simp [pending]
    · rw [if_neg same, replay_step_other _ same, ih]

theorem replay_result : (Replay.ofRecords log).result = (committedBatches [] log).flatten := by
  induction log using List.reverseRecOn with
  | nil => rfl
  | append_singleton log e ih =>
    rw [replay_append_one, committedBatches_append_one, flatten_append, ← ih, nil_append,
      ← replay_pending]
    unfold Replay.step
    cases kind : e.recordType <;> simp
    cases get (Replay.ofRecords log).pendingWrites e.txnId <;> simp

end Replay
section Agreement

theorem collectCommitted_eq (committedTxns : Finset UInt64) (entries : List (UInt64 × List Write)) :
    (collectCommitted committedTxns entries).1 =
      (entries.filter fun entry => entry.1 ∈ committedTxns).flatMap Prod.snd ∧
    (collectCommitted committedTxns entries).2.1 =
      (entries.filter fun entry => entry.1 ∈ committedTxns).length := by
  unfold collectCommitted
  induction entries using List.reverseRecOn with
  | nil => exact ⟨rfl, rfl⟩
  | append_singleton entries entry ih =>
    obtain ⟨txnId, writes⟩ := entry
    rw [filter_append, filter_singleton]
    by_cases committed : txnId ∈ committedTxns
    · simp [committed, ih.1, ih.2]
    · simp [committed, ih.1, ih.2]

theorem checkedSub_isSome (all committed aborted : Nat) :
    (do
      let uncommitted ← checkedSub all committed
      checkedSub uncommitted aborted : Option Nat).isSome ↔ committed + aborted ≤ all := by
  unfold checkedSub
  by_cases first : committed ≤ all
  · by_cases second : aborted ≤ all - committed
    · simp [first, second]
      omega
    · simp [first, second]
      omega
  · simp [first]
    omega

variable (log : List TxnWalEntry)

theorem entry_kept_iff (txnId : UInt64) (writes : List Write) :
    (txnId, writes) ∈ pairs (Tally.ofRecords log).pendingWrites ∧
        txnId ∈ (Tally.ofRecords log).committedTxns ↔
      txnId ∈ keptIds log ∧ keptWrites log txnId = writes := by
  rw [mem_pairs, tally_pending, (tally_ids log).1, keptIds, Finset.mem_filter, keptWrites]
  cases found : sinceBegin (ofTxn log txnId) with
  | none => simp
  | some mine => simp [and_comm]

theorem collected_count {entries : List (UInt64 × List Write)}
    (perm : entries.Perm (pairs (Tally.ofRecords log).pendingWrites)) :
    (collectCommitted (Tally.ofRecords log).committedTxns entries).2.1 = (keptIds log).card := by
  rw [(collectCommitted_eq _ entries).2, ← length_map Prod.fst]
  have distinct : ((entries.filter fun entry =>
      entry.1 ∈ (Tally.ofRecords log).committedTxns).map Prod.fst).Nodup := by
    apply List.Nodup.sublist (filter_sublist.map Prod.fst)
    exact (perm.map Prod.fst).nodup_iff.mpr (pairs_keys_nodup _)
  rw [← toFinset_card_of_nodup distinct]
  congr 1
  ext txnId
  rw [mem_toFinset, mem_map]
  constructor
  · intro ⟨⟨id, writes⟩, member, same⟩
    obtain rfl : id = txnId := same
    rw [mem_filter, perm.mem_iff, decide_eq_true_eq] at member
    exact ((entry_kept_iff log id writes).mp member).1
  · intro kept
    refine ⟨(txnId, keptWrites log txnId), ?_, rfl⟩
    rw [mem_filter, perm.mem_iff, decide_eq_true_eq]
    exact (entry_kept_iff log txnId _).mpr ⟨kept, rfl⟩

theorem exists_hashOrder (m : Map UInt64 (List Write)) {entries : List (UInt64 × List Write)}
    (perm : entries.Perm (pairs m)) : ∃ order : HashOrder, order.iterate m = entries := by
  classical
  refine ⟨⟨fun other => if other = m then entries else pairs other, fun other => ?_⟩, if_pos rfl⟩
  by_cases same : other = m
  · rw [if_pos same, same]
    exact perm
  · rw [if_neg same]

theorem every_order_iff (key : Bytes) (x : Option Bytes) :
    (∀ order : HashOrder, lastValue (collectCommitted (Tally.ofRecords log).committedTxns
        (order.iterate (Tally.ofRecords log).pendingWrites)).1 key = x) ↔
      (∀ txnId ∈ keptIds log, ∀ value,
        lastValue (keptWrites log txnId) key = some value → x = some value) ∧
      ∀ value, x = some value →
        ∃ txnId ∈ keptIds log, lastValue (keptWrites log txnId) key = some value := by
  have orders : (∀ order : HashOrder, lastValue (collectCommitted (Tally.ofRecords log).committedTxns
        (order.iterate (Tally.ofRecords log).pendingWrites)).1 key = x) ↔
      ∀ entries : List (UInt64 × List Write),
        entries.Perm (pairs (Tally.ofRecords log).pendingWrites) →
          lastValue ((entries.filter fun entry =>
            entry.1 ∈ (Tally.ofRecords log).committedTxns).flatMap Prod.snd) key = x := by
    constructor
    · intro always entries perm
      obtain ⟨order, rfl⟩ := exists_hashOrder _ perm
      rw [← (collectCommitted_eq _ _).1]
      exact always order
    · intro always order
      rw [(collectCommitted_eq _ _).1]
      exact always _ (order.iterate_perm _)
  rw [orders, lastValue_every_order]
  apply and_congr
  · constructor
    · intro agree txnId kept value ends
      obtain ⟨member, committed⟩ := (entry_kept_iff log txnId _).mpr ⟨kept, rfl⟩
      exact agree _ member (by simp [committed]) value ends
    · intro agree ⟨txnId, writes⟩ member committed value ends
      obtain ⟨kept, rfl⟩ := (entry_kept_iff log txnId writes).mp ⟨member, by simpa using committed⟩
      exact agree txnId kept value ends
  · constructor
    · intro carried value known
      obtain ⟨⟨txnId, writes⟩, member, committed, ends⟩ := carried value known
      obtain ⟨kept, rfl⟩ := (entry_kept_iff log txnId writes).mp ⟨member, by simpa using committed⟩
      exact ⟨txnId, kept, ends⟩
    · intro carried value known
      obtain ⟨txnId, kept, ends⟩ := carried value known
      obtain ⟨member, committed⟩ := (entry_kept_iff log txnId _).mpr ⟨kept, rfl⟩
      exact ⟨_, member, by simp [committed], ends⟩

variable (crc : Crc32fast)

theorem procedures_agree_iff (fits : ∀ e ∈ log, e.FitsFrame) :
    ProceduresAgree crc ((walCodec crc).encodeAll log) ↔ Unambiguous log := by
  have read : scan (fromReader crc) ((walCodec crc).encodeAll log) = (log, some .unexpectedEof) :=
    (walCodec crc).scan_encodeAll fits
  have replayed : (replayForRecovery crc ((walCodec crc).encodeAll log)).1 =
      (committedBatches [] log).flatten := by
    rw [replayForRecovery_encodeAll crc fits]
    exact replay_result log
  have stats : ∀ order : HashOrder,
      (crashRecovery crc order ((walCodec crc).encodeAll log)).2.rolledBackTxns.isSome ↔
        (keptIds log).card + (idsOf .txnAbort log).card ≤ (idsOf .txnBegin log).card := by
    intro order
    simp only [crashRecovery, read]
    rw [checkedSub_isSome, collected_count log (order.iterate_perm _), (tally_ids log).2.1,
      (tally_ids log).2.2]
  have lists : ∀ order : HashOrder, (crashRecovery crc order ((walCodec crc).encodeAll log)).1 =
      (collectCommitted (Tally.ofRecords log).committedTxns
        (order.iterate (Tally.ofRecords log).pendingWrites)).1 := by
    intro order
    simp only [crashRecovery, read]
  constructor
  · intro agree
    have values : ∀ key, _ := fun key => (every_order_iff log key (lastCommitted log key)).mp (by
      intro order
      have same := (agree order).1 key
      rwa [lists, replayed] at same)
    obtain ⟨order, _⟩ := exists_hashOrder ∅ (List.Perm.refl _)
    constructor
    · intro key
      exact (values key).1
    · intro key
      exact (values key).2
    · exact (stats order).mp (agree order).2
  · intro unambiguous order
    constructor
    · intro key
      rw [lists, replayed]
      exact (every_order_iff log key (lastCommitted log key)).mpr
        ⟨unambiguous.settled key, unambiguous.carried key⟩ order
    · exact (stats order).mpr unambiguous.counted

end Agreement
def oneWriter : List TxnWalEntry :=
  [.txnBegin 1 10, .txnBegin 2 11, .data 2 12 [98] [9], .data 1 13 [97] [1], .txnCommit 1 14,
    .txnAbort 2 15]

theorem one_writer_recovers_alike :
    lastCommitted oneWriter [97] = some [1] ∧
    ProceduresAgree ieee ((walCodec ieee).encodeAll oneWriter) := by
  have batches : committedBatches [] oneWriter = [[([97], [1])]] := by decide
  have ids : keptIds oneWriter = {1} := by decide
  have writes : keptWrites oneWriter 1 = [([97], [1])] := by decide
  have committed : ∀ key, lastCommitted oneWriter key = lastValue [([97], [1])] key := by
    intro key
    rw [lastCommitted, batches]
    rfl
  refine ⟨by decide, (procedures_agree_iff oneWriter ieee (by decide)).mpr ⟨?_, ?_, by decide⟩⟩
  · intro key txnId kept value ends
    rw [ids, Finset.mem_singleton] at kept
    rw [kept, writes] at ends
    rw [committed, ends]
  · intro key value known
    rw [committed] at known
    refine ⟨1, by rw [ids, Finset.mem_singleton], ?_⟩
    rw [writes, known]

def twoWriters : List TxnWalEntry :=
  [.txnBegin 1 10, .data 1 11 [97] [1], .txnCommit 1 12,
    .txnBegin 2 13, .data 2 14 [97] [2], .txnCommit 2 15]

def reusedId : List TxnWalEntry := [.txnBegin 1 10, .txnAbort 1 11, .txnBegin 1 12, .txnCommit 1 13]

theorem hash_order_brings_back_overwritten_value :
    let order : HashOrder := ⟨pairs, fun m => List.Perm.refl (pairs m)⟩
    let file := (walCodec ieee).encodeAll twoWriters
    lastValue (crashRecovery ieee order file).1 [97] = some [1] ∧
    lastValue (replayForRecovery ieee file).1 [97] = some [2] ∧
    (crashRecovery ieee order ((walCodec ieee).encodeAll reusedId)).2.rolledBackTxns = none ∧
    ¬ ProceduresAgree ieee file := by
  intro order file
  have older : lastValue (crashRecovery ieee order file).1 [97] = some [1] := by decide +kernel
  have newer : lastValue (replayForRecovery ieee file).1 [97] = some [2] := by decide +kernel
  refine ⟨older, newer, by decide +kernel, ?_⟩
  intro agree
  have same := (agree order).1 [97]
  rw [older, newer] at same
  exact absurd same (by decide)

end RecoveryProcedures
