import SochDB.Library.KeyedMaps
import SochDB.Library.Runs

/-!
Event-driven group commit. Any number of submitters enqueue commits and wait; any thread
may drain a batch from the front of the queue, call the flush function and tell the waiters.
One action here is one critical section or one call of the flush function, so that all
orders of these are runs. The estimate behind the batch size is floating-point arithmetic
over timings; each use of it is an input.
-/
namespace GroupCommit
open KeyedMaps Runs List

/-- The shared result cell of a commit is named by a number, one for each submission. -/
structure PendingCommitV2 where
  txnId : UInt64
  notifier : Nat
  deriving DecidableEq, Repr

inductive CommitResult where
  | pending
  | success (ts : UInt64)
  | error (message : String)
  deriving DecidableEq, Repr

abbrev Reply := Except String UInt64

def CommitResult.ofReply : Reply → CommitResult
  | .ok ts => .success ts
  | .error message => .error message

structure GroupCommitConfig where
  minBatchSize : Nat
  maxBatchSize : Nat
  deriving DecidableEq, Repr

def optimalBatchSize (config : GroupCommitConfig) (estimate : Nat) : Nat :=
  min (max estimate config.minBatchSize) config.maxBatchSize

/-- Who runs `flush_batch`: a submitter inline or after a timeout, or another thread. -/
inductive Caller where
  | submitter (notifier : Nat)
  | other (thread : Nat)
  deriving DecidableEq, Repr

inductive SubmitPhase where
  | inlineFlush
  | waiting
  | finished (reply : Reply)

inductive FlushPhase where
  | drained (batch : List PendingCommitV2)
  | notifying (result : Reply) (rest : List PendingCommitV2)

/-- The last three fields record what has happened: the commits in the order in which they
    were enqueued, the batches in the order in which they were drained, and the calls of the
    flush function. -/
structure State where
  running : Bool
  pending : List PendingCommitV2
  notifiers : Map Nat CommitResult
  submitters : Map Nat SubmitPhase
  flushers : Map Caller FlushPhase
  submitted : List PendingCommitV2
  batches : List (List PendingCommitV2)
  calls : List (List PendingCommitV2 × Reply)

inductive Action where
  | submit (txnId : UInt64) (estimate : Nat)
  | drain (caller : Caller) (estimate : Nat)
  | flushFn (caller : Caller) (result : Reply)
  | notify (caller : Caller)
  | wake (notifier : Nat)
  | setRunning (running : Bool)

namespace State

def new : State := ⟨false, [], ∅, ∅, ∅, [], [], []⟩

/-- A submitter flushes inline when it was told to, and after a timeout when no background
    thread runs; nobody is in two calls at once. -/
def mayFlush (s : State) (caller : Caller) : Bool :=
  (get s.flushers caller).isNone &&
    match caller with
    | .other _ => true
    | .submitter notifier => match get s.submitters notifier with
      | some .inlineFlush => true
      | some .waiting => !s.running
      | _ => false

/-- The first critical section of `submit_and_wait`. -/
def submit (config : GroupCommitConfig) (s : State) (txnId : UInt64) (estimate : Nat) : State :=
  let commit : PendingCommitV2 := ⟨txnId, s.submitted.length⟩
  let pending := s.pending ++ [commit]
  let shouldFlush := optimalBatchSize config estimate ≤ pending.length
  { s with
    pending := pending
    notifiers := s.notifiers.insert commit.notifier .pending
    submitters := s.submitters.insert commit.notifier
      (if shouldFlush && !s.running then .inlineFlush else .waiting)
    submitted := s.submitted ++ [commit] }

/-- The critical section of `flush_batch`. An empty queue or an empty batch ends the call. -/
def drain (config : GroupCommitConfig) (s : State) (caller : Caller) (estimate : Nat) : State :=
  let s := match caller with
    | .submitter notifier => { s with submitters := s.submitters.insert notifier .waiting }
    | .other _ => s
  if s.pending.isEmpty then s
  else
    let batchSize := min (optimalBatchSize config estimate) s.pending.length
    let batch := s.pending.take batchSize
    let s := { s with pending := s.pending.drop batchSize }
    if batch.isEmpty then s
    else
      { s with
        flushers := s.flushers.insert caller (.drained batch)
        batches := s.batches ++ [batch] }

end State

def step (config : GroupCommitConfig) (s : State) : Action → State
  | .submit txnId estimate => s.submit config txnId estimate
  | .drain caller estimate => if s.mayFlush caller then s.drain config caller estimate else s
  | .flushFn caller result => match get s.flushers caller with
    | some (.drained batch) =>
      { s with
        flushers := s.flushers.insert caller (.notifying result batch)
        calls := s.calls ++ [(batch, result)] }
    | _ => s
  | .notify caller => match get s.flushers caller with
    | some (.notifying result (commit :: rest)) =>
      { s with
        notifiers := s.notifiers.insert commit.notifier (.ofReply result)
        flushers := s.flushers.insert caller (.notifying result rest) }
    | some (.notifying _ []) => { s with flushers := s.flushers.erase caller }
    | _ => s
  | .wake notifier => match get s.submitters notifier, get s.flushers (.submitter notifier) with
    | some .waiting, none => match get s.notifiers notifier with
      | some (.success ts) =>
        { s with submitters := s.submitters.insert notifier (.finished (.ok ts)) }
      | some (.error message) =>
        { s with submitters := s.submitters.insert notifier (.finished (.error message)) }
      | _ => s
    | _, _ => s
  | .setRunning running => { s with running := running }

def flushes (s : State) : Action → Bool
  | .drain caller _ => s.mayFlush caller
  | _ => false

def flushCalls (config : GroupCommitConfig) : State → List Action → Nat
  | _, [] => 0
  | s, action :: later =>
    (if flushes s action then 1 else 0) + flushCalls config (step config s action) later

/-- The batch size that a call of `flush_batch` computes is not zero. -/
def TakesSome (config : GroupCommitConfig) (_ : State) : Action → Prop
  | .drain _ estimate => 0 < optimalBatchSize config estimate
  | _ => True

instance (config : GroupCommitConfig) (s : State) :
    (action : Action) → Decidable (TakesSome config s action)
  | .drain _ estimate => inferInstanceAs (Decidable (0 < optimalBatchSize config estimate))
  | .submit .. | .flushFn .. | .notify .. | .wake .. | .setRunning .. => inferInstanceAs (Decidable True)

def notifies (caller : Caller) : Action → Bool
  | .notify other => other = caller
  | _ => false

def tickets (batch : List PendingCommitV2) : List Nat := batch.map PendingCommitV2.notifier

def callsWith (s : State) (ticket : Nat) : List (List PendingCommitV2 × Reply) :=
  s.calls.filter fun call => ticket ∈ tickets call.1

/-- Every commit is in the queue or in one batch, every batch is held by one caller or was
    passed on once, and every result came from the call that was given the commit. -/
structure Orderly (s : State) : Prop where
  order : s.submitted = s.batches.flatten ++ s.pending
  ticketed : tickets s.submitted = List.range s.submitted.length
  nonempty : ∀ batch ∈ s.batches, batch ≠ []
  called : ∀ call ∈ s.calls, call.1 ∈ s.batches
  once : (s.calls.map Prod.fst).Nodup
  held : ∀ caller batch, get s.flushers caller = some (.drained batch) →
    batch ∈ s.batches ∧ batch ∉ s.calls.map Prod.fst
  apart : ∀ caller other batch, get s.flushers caller = some (.drained batch) →
    get s.flushers other = some (.drained batch) → caller = other
  accounted : ∀ batch ∈ s.batches, batch ∈ s.calls.map Prod.fst ∨
    ∃ caller, get s.flushers caller = some (.drained batch)
  telling : ∀ caller result rest, get s.flushers caller = some (.notifying result rest) →
    ∃ batch, (batch, result) ∈ s.calls ∧ rest ⊆ batch
  told : ∀ ticket reply, get s.notifiers ticket = some (.ofReply reply) →
    ∃ batch, (batch, reply) ∈ s.calls ∧ ticket ∈ tickets batch
  replied : ∀ ticket reply, get s.submitters ticket = some (.finished reply) →
    ∃ batch, (batch, reply) ∈ s.calls ∧ ticket ∈ tickets batch

theorem new_orderly : Orderly State.new := by
  constructor <;> simp [State.new, tickets]

namespace Orderly
variable {config : GroupCommitConfig} {s : State} (orderly : Orderly s)
include orderly

theorem tickets_nodup : (tickets (s.batches.flatten ++ s.pending)).Nodup := by
  rw [← orderly.order, orderly.ticketed]
  exact nodup_range

theorem batches_nodup : (tickets s.batches.flatten).Nodup := by
  have all := orderly.tickets_nodup
  rw [tickets, map_append] at all
  exact all.of_append_left

variable {batch : List PendingCommitV2} {caller : Caller}

theorem same_batch {other : List PendingCommitV2} (member : batch ∈ s.batches) (also : other ∈ s.batches)
    {ticket : Nat} (inside : ticket ∈ tickets batch) (too : ticket ∈ tickets other) : batch = other := by
  have distinct := orderly.batches_nodup
  rw [tickets, map_flatten, nodup_flatten, pairwise_map] at distinct
  by_contra different
  have symmetric : Std.Symm fun a b : List PendingCommitV2 =>
      List.Disjoint (a.map PendingCommitV2.notifier) (b.map PendingCommitV2.notifier) :=
    ⟨fun a b apart ticket left right => apart right left⟩
  exact distinct.2.forall member also different inside too

theorem queued_apart {rest : List PendingCommitV2} (member : batch ∈ s.batches) (queued : rest ⊆ s.pending)
    (nonempty : rest ≠ []) : batch ≠ rest := by
  rintro rfl
  obtain ⟨commit, inside⟩ := exists_mem_of_ne_nil batch nonempty
  have all := orderly.tickets_nodup
  rw [tickets, map_append, nodup_append] at all
  refine all.2.2 commit.notifier ?_ commit.notifier ?_ rfl
  · exact mem_map_of_mem (mem_flatten.mpr ⟨batch, member, inside⟩)
  · exact mem_map_of_mem (queued inside)

theorem withSubmitters {submitters : Map Nat SubmitPhase} (running : Bool)
    (finished : ∀ ticket reply, get submitters ticket = some (.finished reply) →
      get s.submitters ticket = some (.finished reply) ∨ get s.notifiers ticket = some (.ofReply reply)) :
    Orderly { s with submitters := submitters, running := running } := by
  refine { orderly with replied := ?_ }
  intro ticket reply found
  rcases finished ticket reply found with before | told
  · exact orderly.replied ticket reply before
  · exact orderly.told ticket reply told

theorem drained {size : Nat} (taken : s.pending.take size ≠ []) (caller : Caller)
    (free : get s.flushers caller = none) :
    Orderly { s with
      pending := s.pending.drop size
      flushers := s.flushers.insert caller (.drained (s.pending.take size))
      batches := s.batches ++ [s.pending.take size] } := by
  have fresh : ∀ batch ∈ s.batches, batch ≠ s.pending.take size := fun batch member =>
    orderly.queued_apart member (take_subset size s.pending) taken
  have uncalled : s.pending.take size ∉ s.calls.map Prod.fst := by
    intro called
    obtain ⟨call, member, same⟩ := mem_map.mp called
    exact fresh call.1 (orderly.called call member) same
  refine { orderly with order := ?_, nonempty := ?_, called := ?_, held := ?_, apart := ?_, accounted := ?_, telling := ?_ }
  · simp only [flatten_append, flatten_singleton, append_assoc, take_append_drop]
    exact orderly.order
  · exact forall_mem_append.mpr ⟨orderly.nonempty, forall_mem_singleton.mpr taken⟩
  · intro call member
    exact mem_append_left _ (orderly.called call member)
  · intro other batch found
    rw [get_insert] at found
    split at found
    · obtain rfl : s.pending.take size = batch := by simpa using found
      exact ⟨by simp, uncalled⟩
    · obtain ⟨member, waits⟩ := orderly.held other batch found
      exact ⟨mem_append_left _ member, waits⟩
  · intro first second batch found also
    rw [get_insert] at found also
    split at found <;> split at also
    · rename_i one two
      rw [one, two]
    · obtain rfl : s.pending.take size = batch := by simpa using found
      exact absurd rfl (fresh _ (orderly.held second _ also).1)
    · obtain rfl : s.pending.take size = batch := by simpa using also
      exact absurd rfl (fresh _ (orderly.held first _ found).1)
    · exact orderly.apart first second batch found also
  · intro batch member
    rcases mem_append.mp member with old | new
    · rcases orderly.accounted batch old with called | ⟨holder, found⟩
      · exact .inl called
      · refine .inr ⟨holder, ?_⟩
        rw [get_insert, if_neg]
        · exact found
        · rintro rfl
          rw [free] at found
          cases found
    · rw [mem_singleton.mp new]
      exact .inr ⟨caller, by rw [get_insert, if_pos rfl]⟩
  · intro other result rest found
    rw [get_insert] at found
    split at found
    · cases found
    · exact orderly.telling other result rest found

theorem flushed (holds : get s.flushers caller = some (.drained batch)) (result : Reply) :
    Orderly { s with
      flushers := s.flushers.insert caller (.notifying result batch)
      calls := s.calls ++ [(batch, result)] } := by
  obtain ⟨member, uncalled⟩ := orderly.held caller batch holds
  have grown : ∀ call ∈ s.calls, call ∈ s.calls ++ [(batch, result)] := fun call old =>
    mem_append_left _ old
  refine { orderly with called := ?_, once := ?_, held := ?_, apart := ?_, accounted := ?_, telling := ?_, told := ?_, replied := ?_ }
  · exact forall_mem_append.mpr ⟨orderly.called, forall_mem_singleton.mpr member⟩
  · rw [map_append, map_singleton, nodup_append]
    refine ⟨orderly.once, by simp, ?_⟩
    intro other called mine same
    rw [mem_singleton] at same
    rw [same]
    rintro rfl
    exact uncalled called
  · intro other kept found
    rw [get_insert] at found
    split at found
    · cases found
    · rename_i different
      obtain ⟨inside, waits⟩ := orderly.held other kept found
      refine ⟨inside, ?_⟩
      rw [map_append, map_singleton, mem_append, mem_singleton]
      rintro (called | rfl)
      · exact waits called
      · exact different (orderly.apart other caller kept found holds)
  · intro first second kept found also
    rw [get_insert] at found also
    split at found
    · cases found
    · split at also
      · cases also
      · exact orderly.apart first second kept found also
  · intro other present
    rw [map_append, map_singleton, mem_append, mem_singleton]
    rcases orderly.accounted other present with called | ⟨holder, found⟩
    · exact .inl (.inl called)
    · by_cases same : holder = caller
      · subst same
        rw [holds] at found
        obtain rfl : batch = other := by simpa using found
        exact .inl (.inr rfl)
      · exact .inr ⟨holder, by rw [get_insert, if_neg same]; exact found⟩
  · intro other told rest found
    rw [get_insert] at found
    split at found
    · obtain ⟨rfl, rfl⟩ : result = told ∧ batch = rest := by simpa using found
      exact ⟨batch, by simp, fun commit inside => inside⟩
    · obtain ⟨source, call, part⟩ := orderly.telling other told rest found
      exact ⟨source, grown _ call, part⟩
  · intro ticket reply found
    obtain ⟨source, call, inside⟩ := orderly.told ticket reply found
    exact ⟨source, grown _ call, inside⟩
  · intro ticket reply found
    obtain ⟨source, call, inside⟩ := orderly.replied ticket reply found
    exact ⟨source, grown _ call, inside⟩

omit orderly in
theorem ofReply_injective {reply other : Reply}
    (same : CommitResult.ofReply reply = CommitResult.ofReply other) : reply = other := by
  cases reply <;> cases other <;> simp_all [CommitResult.ofReply]

theorem withFlushers {flushers : Map Caller FlushPhase}
    (drained : ∀ other batch, get flushers other = some (.drained batch) ↔
      get s.flushers other = some (.drained batch))
    (telling : ∀ other result rest, get flushers other = some (.notifying result rest) →
      ∃ batch, (batch, result) ∈ s.calls ∧ rest ⊆ batch) : Orderly { s with flushers := flushers } := by
  refine { orderly with held := ?_, apart := ?_, accounted := ?_, telling := telling }
  · intro other batch found
    exact orderly.held other batch ((drained other batch).mp found)
  · intro first second batch found also
    exact orderly.apart first second batch ((drained _ _).mp found) ((drained _ _).mp also)
  · intro batch present
    exact (orderly.accounted batch present).imp_right fun ⟨holder, found⟩ => ⟨holder, (drained _ _).mpr found⟩

theorem notified {result : Reply} {commit : PendingCommitV2} {rest : List PendingCommitV2}
    (tells : get s.flushers caller = some (.notifying result (commit :: rest))) :
    Orderly { s with
      notifiers := s.notifiers.insert commit.notifier (.ofReply result)
      flushers := s.flushers.insert caller (.notifying result rest) } := by
  obtain ⟨source, call, part⟩ := orderly.telling caller result (commit :: rest) tells
  have moved : Orderly { s with flushers := s.flushers.insert caller (.notifying result rest) } := by
    refine orderly.withFlushers (fun other batch => ?_) fun other told left found => ?_
    · rw [get_insert]
      by_cases same : other = caller
      · simp [same, tells]
      · rw [if_neg same]
    · rw [get_insert] at found
      split at found
      · obtain ⟨rfl, rfl⟩ : result = told ∧ rest = left := by simpa using found
        exact ⟨source, call, fun x inside => part (mem_cons_of_mem commit inside)⟩
      · exact orderly.telling other told left found
  refine { moved with told := ?_ }
  intro ticket reply found
  rw [get_insert] at found
  split at found
  · rename_i same
    obtain rfl := ofReply_injective (Option.some.inj found)
    rw [same]
    exact ⟨source, call, mem_map_of_mem (part mem_cons_self)⟩
  · exact orderly.told ticket reply found

theorem ended {result : Reply} (tells : get s.flushers caller = some (.notifying result [])) :
    Orderly { s with flushers := s.flushers.erase caller } := by
  refine orderly.withFlushers (fun other batch => ?_) fun other told left found => ?_
  · rw [get_erase]
    by_cases same : other = caller
    · simp [same, tells]
    · rw [if_neg same]
  · rw [get_erase] at found
    split at found
    · cases found
    · exact orderly.telling other told left found

theorem submits (txnId : UInt64) (estimate : Nat) : Orderly (s.submit config txnId estimate) := by
  refine { orderly with order := ?_, ticketed := ?_, told := ?_, replied := ?_ }
  · simp only [State.submit]
    rw [orderly.order, append_assoc]
  · simp only [State.submit, tickets, map_append, map_singleton, length_append,
      length_singleton, range_succ]
    rw [← orderly.ticketed]
    rfl
  · intro ticket reply found
    simp only [State.submit, get_insert] at found
    split at found
    · cases reply <;> cases found
    · exact orderly.told ticket reply found
  · intro ticket reply found
    simp only [State.submit, get_insert] at found
    split at found
    · split at found <;> cases found
    · exact orderly.replied ticket reply found

end Orderly

/-- Where submitters stand may change, but a submitter that returns had its result in its cell. -/
structure Marks (s : State) (submitters : Map Nat SubmitPhase) : Prop where
  finished : ∀ ticket reply, get submitters ticket = some (.finished reply) →
    get s.submitters ticket = some (.finished reply) ∨ get s.notifiers ticket = some (.ofReply reply)
  stays : ∀ ticket, (get s.submitters ticket).isSome → (get submitters ticket).isSome

theorem Marks.refl (s : State) : Marks s s.submitters :=
  ⟨fun _ _ found => .inl found, fun _ known => known⟩

theorem Marks.insert {s : State} {notifier : Nat} {phase : SubmitPhase}
    (told : ∀ reply, phase = .finished reply → get s.notifiers notifier = some (.ofReply reply)) :
    Marks s (s.submitters.insert notifier phase) := by
  constructor
  · intro ticket reply found
    rw [get_insert] at found
    split at found
    · rename_i same
      rw [same]
      exact .inr (told reply (Option.some.inj found))
    · exact .inl found
  · intro ticket known
    rw [get_insert]
    split
    · rfl
    · exact known

/-- What a step can do. -/
inductive Moves (config : GroupCommitConfig) (s : State) : Action → State → Prop
  | mark (action : Action) (submitters : Map Nat SubmitPhase) (running : Bool) (marks : Marks s submitters)
      (idle : flushes s action = false) (silent : ∀ caller, notifies caller action = true →
        ∀ result rest, get s.flushers caller ≠ some (.notifying result rest)) :
      Moves config s action { s with submitters := submitters, running := running }
  | submit (txnId : UInt64) (estimate : Nat) :
      Moves config s (.submit txnId estimate) (s.submit config txnId estimate)
  | empty (caller : Caller) (estimate : Nat) (submitters : Map Nat SubmitPhase) (marks : Marks s submitters)
      (nothing : s.pending.take (min (optimalBatchSize config estimate) s.pending.length) = []) :
      Moves config s (.drain caller estimate) { s with submitters := submitters }
  | drain (caller : Caller) (estimate size : Nat) (submitters : Map Nat SubmitPhase)
      (marks : Marks s submitters) (free : get s.flushers caller = none) (taken : s.pending.take size ≠ []) :
      Moves config s (.drain caller estimate)
        { s with
          submitters := submitters
          pending := s.pending.drop size
          flushers := s.flushers.insert caller (.drained (s.pending.take size))
          batches := s.batches ++ [s.pending.take size] }
  | flush (caller : Caller) (result : Reply) (batch : List PendingCommitV2)
      (holds : get s.flushers caller = some (.drained batch)) :
      Moves config s (.flushFn caller result)
        { s with
          flushers := s.flushers.insert caller (.notifying result batch)
          calls := s.calls ++ [(batch, result)] }
  | tell (caller : Caller) (result : Reply) (commit : PendingCommitV2) (rest : List PendingCommitV2)
      (tells : get s.flushers caller = some (.notifying result (commit :: rest))) :
      Moves config s (.notify caller)
        { s with
          notifiers := s.notifiers.insert commit.notifier (.ofReply result)
          flushers := s.flushers.insert caller (.notifying result rest) }
  | finish (caller : Caller) (result : Reply)
      (tells : get s.flushers caller = some (.notifying result [])) :
      Moves config s (.notify caller) { s with flushers := s.flushers.erase caller }

section Steps
variable {config : GroupCommitConfig} {s t : State} {action : Action}

theorem drain_moves (caller : Caller) (estimate : Nat) (free : get s.flushers caller = none) :
    Moves config s (.drain caller estimate) (s.drain config caller estimate) := by
  have marked : ∃ submitters, Marks s submitters ∧
      (match caller with
        | .submitter notifier => { s with submitters := s.submitters.insert notifier .waiting }
        | .other _ => s) = { s with submitters := submitters } := by
    cases caller with
    | submitter notifier => exact ⟨_, Marks.insert (by simp), rfl⟩
    | other thread => exact ⟨_, Marks.refl s, rfl⟩
  obtain ⟨submitters, marks, same⟩ := marked
  unfold State.drain
  rw [same]
  have nothing_of_empty (empty : s.pending.isEmpty = true) :
      s.pending.take (min (optimalBatchSize config estimate) s.pending.length) = [] := by
    rw [isEmpty_iff.mp empty, take_nil]
  simp only
  split
  · exact .empty caller estimate submitters marks (nothing_of_empty ‹_›)
  · split
    · rename_i none
      have nothing := isEmpty_iff.mp none
      have whole : s.pending.drop (min (optimalBatchSize config estimate) s.pending.length) = s.pending := by
        have joined := take_append_drop (min (optimalBatchSize config estimate) s.pending.length) s.pending
        rwa [nothing, nil_append] at joined
      rw [whole]
      exact .empty caller estimate submitters marks nothing
    · rename_i some
      exact .drain caller estimate _ submitters marks free (by simpa using some)

theorem stays_put (idle : flushes s action = false) (silent : ∀ caller, notifies caller action = true →
    ∀ result rest, get s.flushers caller ≠ some (.notifying result rest)) : Moves config s action s :=
  .mark action s.submitters s.running (Marks.refl s) idle silent

theorem step_moves (config : GroupCommitConfig) (s : State) (action : Action) :
    Moves config s action (step config s action) := by
  cases action with
  | submit txnId estimate => exact .submit txnId estimate
  | drain caller estimate =>
    simp only [step]
    split
    · rename_i allowed
      unfold State.mayFlush at allowed
      rw [Bool.and_eq_true, Option.isNone_iff_eq_none] at allowed
      exact drain_moves caller estimate allowed.1
    · rename_i refused
      exact stays_put (by simpa [flushes] using refused) (by simp [notifies])
  | flushFn caller result =>
    simp only [step]
    split
    · exact .flush caller result _ ‹_›
    · exact stays_put rfl (by simp [notifies])
  | notify caller =>
    simp only [step]
    split
    · exact .tell caller _ _ _ ‹_›
    · exact .finish caller _ ‹_›
    · rename_i other none
      refine stays_put rfl fun teller own result rest tells => ?_
      obtain rfl : caller = teller := by simpa [notifies] using own
      cases rest with
      | nil => exact none result tells
      | cons commit rest => exact other result commit rest tells
  | wake notifier =>
    simp only [step]
    split
    · split
      · rename_i ts told
        refine .mark _ _ s.running (Marks.insert ?_) rfl (by simp [notifies])
        rintro reply same
        cases same
        exact told
      · rename_i message told
        refine .mark _ _ s.running (Marks.insert ?_) rfl (by simp [notifies])
        rintro reply same
        cases same
        exact told
      · exact stays_put rfl (by simp [notifies])
    · exact stays_put rfl (by simp [notifies])
  | setRunning running => exact .mark _ _ running (Marks.refl s) rfl (by simp [notifies])

theorem Orderly.moves (orderly : Orderly s) (moves : Moves config s action t) : Orderly t := by
  cases moves with
  | mark _ _ running marks => exact orderly.withSubmitters running marks.finished
  | submit txnId estimate => exact orderly.submits txnId estimate
  | empty _ _ _ marks => exact orderly.withSubmitters s.running marks.finished
  | drain caller _ _ _ marks free taken =>
    exact (orderly.withSubmitters s.running marks.finished).drained taken caller free
  | flush _ result _ holds => exact orderly.flushed holds result
  | tell _ _ _ _ tells => exact orderly.notified tells
  | finish _ _ tells => exact orderly.ended tells

theorem Orderly.run (orderly : Orderly s) (actions : List Action) :
    Orderly (run (step config) s actions) := by
  induction actions generalizing s with
  | nil => exact orderly
  | cons action actions ih => exact ih (orderly.moves (step_moves config s action))

end Steps

variable {s : State}

theorem Orderly.callsWith_eq (orderly : Orderly s) {call : List PendingCommitV2 × Reply}
    (member : call ∈ s.calls) {ticket : Nat} (inside : ticket ∈ tickets call.1) :
    callsWith s ticket = [call] := by
  apply perm_singleton.mp
  have distinct : s.calls.Nodup := List.Nodup.of_map Prod.fst orderly.once
  refine (perm_ext_iff_of_nodup (distinct.filter _) (nodup_singleton call)).mpr ?_
  intro other
  rw [mem_filter, mem_singleton, decide_eq_true_eq]
  constructor
  · intro ⟨also, too⟩
    have same := orderly.same_batch (orderly.called other also) (orderly.called call member) too inside
    exact inj_on_of_nodup_map orderly.once also member same
  · rintro rfl
    exact ⟨member, inside⟩

/-- Where a submitted commit is: in the queue, in a batch that its holder has not passed on
    yet, or passed on in exactly one call. -/
theorem Orderly.whereabouts (orderly : Orderly s) {commit : PendingCommitV2}
    (submitted : commit ∈ s.submitted) :
    commit ∈ s.pending ∨
    (∃ caller batch, get s.flushers caller = some (.drained batch) ∧ commit ∈ batch) ∨
    ∃ call, callsWith s commit.notifier = [call] ∧ commit ∈ call.1 := by
  rw [orderly.order, mem_append, mem_flatten] at submitted
  rcases submitted with ⟨batch, member, inside⟩ | queued
  · rcases orderly.accounted batch member with called | ⟨caller, holds⟩
    · obtain ⟨call, present, rfl⟩ := mem_map.mp called
      exact .inr (.inr ⟨call, orderly.callsWith_eq present (mem_map_of_mem inside), inside⟩)
    · exact .inr (.inl ⟨caller, batch, holds, inside⟩)
  · exact .inl queued

section Delivery
variable {config : GroupCommitConfig} {t : State} {action : Action}

theorem Orderly.known_ticket (orderly : Orderly s) {call : List PendingCommitV2 × Reply}
    (member : call ∈ s.calls) {ticket : Nat} (inside : ticket ∈ tickets call.1) :
    ticket < s.submitted.length := by
  have listed : ticket ∈ tickets s.submitted := by
    rw [orderly.order, tickets, map_append, map_flatten]
    exact mem_append_left _ (mem_flatten.mpr ⟨_, mem_map_of_mem (orderly.called call member), inside⟩)
  rw [orderly.ticketed] at listed
  exact mem_range.mp listed

/-- A result cell is written once: a later notify of the same commit is from the same call. -/
theorem told_kept (orderly : Orderly s) (moves : Moves config s action t) {ticket : Nat} {reply : Reply}
    (told : get s.notifiers ticket = some (.ofReply reply)) :
    get t.notifiers ticket = some (.ofReply reply) := by
  obtain ⟨batch, call, inside⟩ := orderly.told ticket reply told
  cases moves with
  | submit txnId estimate =>
    have different : ticket ≠ s.submitted.length := (orderly.known_ticket call inside).ne
    simp only [State.submit, get_insert, if_neg different]
    exact told
  | tell caller result commit rest tells =>
    obtain ⟨source, other, part⟩ := orderly.telling caller result (commit :: rest) tells
    rw [get_insert]
    split
    · rename_i same
      have mine := orderly.callsWith_eq call inside
      rw [same, orderly.callsWith_eq other (mem_map_of_mem (part mem_cons_self))] at mine
      simp only [cons.injEq, Prod.mk.injEq, and_true] at mine
      rw [mine.2]
    · exact told
  | mark | empty | drain | flush | finish => exact told

/-- What a caller has yet to tell changes by its own notify steps only, one commit a step. -/
theorem telling_kept {caller : Caller} {result : Reply} {rest : List PendingCommitV2}
    (tells : get s.flushers caller = some (.notifying result rest)) (moves : Moves config s action t) :
    (notifies caller action = false ∧ get t.flushers caller = some (.notifying result rest)) ∨
    (notifies caller action = true ∧ ∀ commit later, rest = commit :: later →
      get t.notifiers commit.notifier = some (.ofReply result) ∧
      get t.flushers caller = some (.notifying result later)) := by
  have apart {other : Caller} {phase : FlushPhase} (found : get s.flushers other = some phase)
      (different : phase ≠ .notifying result rest) : caller ≠ other := by
    rintro rfl
    rw [tells] at found
    exact different (Option.some.inj found).symm
  cases moves with
  | mark _ _ _ _ _ silent =>
    refine .inl ⟨?_, tells⟩
    by_contra own
    exact silent caller (by simpa using own) result rest tells
  | submit | empty => exact .inl ⟨rfl, tells⟩
  | drain other estimate size submitters marks free taken =>
    refine .inl ⟨rfl, ?_⟩
    rw [get_insert, if_neg]
    · exact tells
    · rintro rfl
      rw [tells] at free
      cases free
  | flush other answer batch holds =>
    refine .inl ⟨rfl, ?_⟩
    rw [get_insert, if_neg (apart holds (by simp))]
    exact tells
  | tell other answer commit left found =>
    by_cases same : other = caller
    · subst same
      rw [tells] at found
      obtain ⟨rfl, rfl⟩ : result = answer ∧ rest = commit :: left := by simpa using found
      refine .inr ⟨decide_eq_true rfl, ?_⟩
      rintro first later shape
      cases shape
      exact ⟨by rw [get_insert, if_pos rfl], by rw [get_insert, if_pos rfl]⟩
    · refine .inl ⟨decide_eq_false same, ?_⟩
      rw [get_insert, if_neg (Ne.symm same)]
      exact tells
  | finish other answer found =>
    by_cases same : other = caller
    · subst same
      rw [tells] at found
      obtain ⟨rfl, rfl⟩ : result = answer ∧ rest = [] := by simpa using found
      exact .inr ⟨decide_eq_true rfl, by simp⟩
    · refine .inl ⟨decide_eq_false same, ?_⟩
      rw [get_erase, if_neg (Ne.symm same)]
      exact tells

theorem told_run (orderly : Orderly s) {ticket : Nat} {reply : Reply}
    (told : get s.notifiers ticket = some (.ofReply reply)) (actions : List Action) :
    get (run (step config) s actions).notifiers ticket = some (.ofReply reply) := by
  induction actions generalizing s with
  | nil => exact told
  | cons action actions ih =>
    have moves := step_moves config s action
    exact ih (orderly.moves moves) (told_kept orderly moves told)

/-- As many notify steps of a caller as it has commits left tell all of these. -/
theorem telling_run (orderly : Orderly s) {caller : Caller} {result : Reply}
    {rest : List PendingCommitV2} (tells : get s.flushers caller = some (.notifying result rest))
    {actions : List Action} (enough : rest.length ≤ actions.countP (notifies caller)) :
    ∀ commit ∈ rest,
      get (run (step config) s actions).notifiers commit.notifier = some (.ofReply result) := by
  induction actions generalizing s rest with
  | nil =>
    rw [countP_nil, Nat.le_zero, length_eq_zero_iff] at enough
    simp [enough]
  | cons action actions ih =>
    rw [countP_cons] at enough
    have moves := step_moves config s action
    rcases telling_kept tells moves with ⟨other, still⟩ | ⟨own, next⟩
    · rw [other] at enough
      exact ih (orderly.moves moves) still enough
    · cases rest with
      | nil => simp
      | cons first later =>
        obtain ⟨told, tells⟩ := next first later rfl
        rw [own, if_pos rfl, length_cons, Nat.add_le_add_iff_right] at enough
        intro commit member
        rcases mem_cons.mp member with rfl | left
        · exact told_run (orderly.moves moves) told actions
        · exact ih (orderly.moves moves) tells enough commit left

/-- Every commit that was passed on has its result or is still to be told by the caller that
    passed it on, and every submitter is in its call or has returned. -/
structure Delivers (s : State) : Prop where
  passed : ∀ call ∈ s.calls, ∀ commit ∈ call.1,
    get s.notifiers commit.notifier = some (.ofReply call.2) ∨
    ∃ caller rest, get s.flushers caller = some (.notifying call.2 rest) ∧ commit ∈ rest
  present : ∀ ticket < s.submitted.length, (get s.submitters ticket).isSome

theorem Delivers.moves (orderly : Orderly s) (delivers : Delivers s) (moves : Moves config s action t) :
    Delivers t := by
  have kept : ∀ call ∈ s.calls, ∀ commit ∈ call.1,
      get t.notifiers commit.notifier = some (.ofReply call.2) ∨
      ∃ caller rest, get t.flushers caller = some (.notifying call.2 rest) ∧ commit ∈ rest := by
    intro call member commit inside
    rcases delivers.passed call member commit inside with told | ⟨caller, rest, tells, left⟩
    · exact .inl (told_kept orderly moves told)
    · rcases telling_kept tells moves with ⟨_, still⟩ | ⟨_, next⟩
      · exact .inr ⟨caller, rest, still, left⟩
      · obtain ⟨first, later, rfl⟩ := exists_cons_of_ne_nil (ne_nil_of_mem left)
        obtain ⟨told, tells⟩ := next first later rfl
        rcases mem_cons.mp left with rfl | left
        · exact .inl told
        · exact .inr ⟨caller, later, tells, left⟩
  cases moves with
  | mark _ _ _ marks | empty _ _ _ marks | drain _ _ _ _ marks =>
    exact ⟨kept, fun ticket known => marks.stays ticket (delivers.present ticket known)⟩
  | submit txnId estimate =>
    refine ⟨kept, fun ticket known => ?_⟩
    simp only [State.submit, length_append, length_singleton] at known ⊢
    rw [get_insert]
    split
    · rfl
    · exact delivers.present ticket (by omega)
  | flush caller result batch holds =>
    refine ⟨?_, delivers.present⟩
    refine forall_mem_append.mpr ⟨kept, forall_mem_singleton.mpr fun commit inside => ?_⟩
    exact .inr ⟨caller, batch, by rw [get_insert, if_pos rfl], inside⟩
  | tell | finish => exact ⟨kept, delivers.present⟩

theorem Delivers.run (orderly : Orderly s) (delivers : Delivers s) (actions : List Action) :
    Delivers (run (step config) s actions) := by
  induction actions generalizing s with
  | nil => exact delivers
  | cons action actions ih =>
    have moves := step_moves config s action
    exact ih (orderly.moves moves) (delivers.moves orderly moves)

/-- A submitter that was told returns the result of its call: it has done so, its next wake-up
    does, or it is still in a `flush_batch` of its own. -/
theorem told_returns (orderly : Orderly s) (delivers : Delivers s) {ticket : Nat} {reply : Reply}
    (told : get s.notifiers ticket = some (.ofReply reply)) :
    get s.submitters ticket = some (.finished reply) ∨
    get (step config s (.wake ticket)).submitters ticket = some (.finished reply) ∨
    get s.submitters ticket = some .inlineFlush ∨ (get s.flushers (.submitter ticket)).isSome := by
  obtain ⟨batch, call, inside⟩ := orderly.told ticket reply told
  obtain ⟨phase, found⟩ :=
    Option.isSome_iff_exists.mp (delivers.present ticket (orderly.known_ticket call inside))
  cases phase with
  | inlineFlush => exact .inr (.inr (.inl found))
  | finished given =>
    obtain ⟨source, other, also⟩ := orderly.replied ticket given found
    have same := orderly.callsWith_eq call inside
    rw [orderly.callsWith_eq other also] at same
    simp only [cons.injEq, Prod.mk.injEq, and_true] at same
    rw [found, same.2]
    exact .inl rfl
  | waiting =>
    cases free : get s.flushers (.submitter ticket) with
    | some phase => exact .inr (.inr (.inr rfl))
    | none =>
      refine .inr (.inl ?_)
      cases reply with
      | ok ts =>
        rw [CommitResult.ofReply] at told
        simp only [step, found, free, told]
        rw [get_insert, if_pos rfl]
      | error message =>
        rw [CommitResult.ofReply] at told
        simp only [step, found, free, told]
        rw [get_insert, if_pos rfl]

end Delivery

section Progress
variable (config : GroupCommitConfig)

theorem history_step (s : State) (action : Action) :
    s.submitted <+: (step config s action).submitted ∧
    s.batches.flatten.length ≤ (step config s action).batches.flatten.length := by
  have moves := step_moves config s action
  generalize step config s action = t at moves
  cases moves with
  | submit => exact ⟨prefix_append _ _, le_rfl⟩
  | drain => exact ⟨prefix_rfl, by simp⟩
  | mark | empty | flush | tell | finish => exact ⟨prefix_rfl, le_rfl⟩

theorem flush_advances {s : State} (orderly : Orderly s) {action : Action}
    (some : TakesSome config s action) (flushing : flushes s action = true) :
    min (s.batches.flatten.length + 1) s.submitted.length ≤
      (step config s action).batches.flatten.length := by
  have total := congrArg List.length orderly.order
  rw [length_append] at total
  have moves := step_moves config s action
  generalize step config s action = t at moves
  cases moves with
  | mark _ _ _ _ idle =>
    rw [idle] at flushing
    cases flushing
  | empty caller estimate _ _ nothing =>
    have positive : 0 < optimalBatchSize config estimate := some
    have empty := congrArg List.length nothing
    rw [length_take, length_nil] at empty
    simp only
    omega
  | drain _ _ _ _ _ _ taken =>
    have front := length_pos_iff.mpr taken
    simp only [flatten_append, flatten_singleton, length_append]
    omega
  | submit | flush | tell | finish => simp [flushes] at flushing

theorem flush_progress {s : State} (orderly : Orderly s) {actions : List Action}
    (guarded : Guarded (step config) (TakesSome config) s actions) {target : Nat}
    (known : target ≤ s.submitted.length) :
    min (s.batches.flatten.length + flushCalls config s actions) target ≤
      (run (step config) s actions).batches.flatten.length := by
  induction actions generalizing s with
  | nil =>
    simp only [flushCalls, run_nil]
    omega
  | cons action actions ih =>
    obtain ⟨longer, grows⟩ := history_step config s action
    have later := ih (orderly.moves (step_moves config s action)) guarded.2 (Nat.le_trans known longer.length_le)
    rw [run_cons, flushCalls]
    by_cases flushing : flushes s action = true
    · have advances := flush_advances config orderly guarded.1 flushing
      rw [if_pos flushing]
      omega
    · rw [if_neg flushing]
      omega

theorem submitted_run (s : State) (actions : List Action) :
    s.submitted <+: (run (step config) s actions).submitted := by
  induction actions generalizing s with
  | nil => exact prefix_rfl
  | cons action actions ih => exact (history_step config s action).1.trans (ih _)

end Progress

def threeCommits : List Action := [.submit 7 5, .submit 8 5, .submit 9 5]

def twoBatches : List Action :=
  [.drain (.other 0) 5, .drain (.submitter 2) 5,
    .flushFn (.submitter 2) (.error "disk full"), .flushFn (.other 0) (.ok 4),
    .notify (.submitter 2), .notify (.submitter 2), .notify (.other 0), .notify (.other 0),
    .wake 2, .wake 0]

def emptyDrains (n : Nat) : List Action := List.replicate n (.drain (.submitter 0) 0)

theorem empty_drains_keep_the_queue (n : Nat) (u : State) (idle : u.flushers = ∅)
    (queue : u.pending = [⟨7, 0⟩]) (uncalled : u.calls = []) (stopped : u.running = false)
    (phase : get u.submitters 0 = some .inlineFlush ∨ get u.submitters 0 = some .waiting) :
    flushCalls ⟨0, 1000⟩ u (emptyDrains n) = n ∧
    (run (step ⟨0, 1000⟩) u (emptyDrains n)).pending = [⟨7, 0⟩] ∧
    (run (step ⟨0, 1000⟩) u (emptyDrains n)).calls = [] := by
  induction n generalizing u with
  | zero => exact ⟨rfl, queue, uncalled⟩
  | succ n ih =>
    have allowed : u.mayFlush (.submitter 0) = true := by
      rcases phase with inline | waits
      · simp [State.mayFlush, idle, inline]
      · simp [State.mayFlush, idle, waits, stopped]
    have next : step ⟨0, 1000⟩ u (.drain (.submitter 0) 0) =
        { u with submitters := u.submitters.insert 0 .waiting } := by
      simp [step, allowed, State.drain, queue, optimalBatchSize]
    obtain ⟨count, queued, none⟩ := ih { u with submitters := u.submitters.insert 0 .waiting }
      idle queue uncalled stopped (.inr (by rw [get_insert, if_pos rfl]))
    have more : emptyDrains (n + 1) = .drain (.submitter 0) 0 :: emptyDrains n :=
      replicate_succ
    rw [more, flushCalls, run_cons, next, count]
    refine ⟨?_, queued, none⟩
    rw [if_pos (by exact allowed)]
    omega

end GroupCommit
