import SochDB.Library.Runs
import SochDB.TaskQueue

/-!
The life of a task over a sequence of calls: where it is, how often it was delivered, and
whether a due task is delivered. A call reads the clock once; between calls the clock may
advance.
-/
namespace TaskLifecycle
open KeyedMaps Runs TaskQueue List

section Calls
variable (q : PriorityQueue)

def enqueueDelayed (now : UInt64) (priority : Int64) (payload : List UInt8) (delayMs : UInt64) :
    PriorityQueue × TaskId :=
  let (numbered, sequence) := q.nextSequence
  (numbered.enqueueDelayed now sequence priority payload delayMs, ⟨now, sequence⟩)

def dequeueWithTimeout (worker : String) (timeoutMs now : UInt64) : PriorityQueue × DequeueResult :=
  (q.cleanupExpiredClaims (q.expiredClaims now)).claimFirst worker timeoutMs now

/-- The branch of `nack` that removes the task for good. -/
def deadLetters (id : TaskId) : Bool := (q.tasks.find? (·.id = id)).any Task.shouldDeadLetter

end Calls

inductive Op where
  | enqueueDelayed (priority : Int64) (payload : List UInt8) (delayMs : UInt64)
  | dequeueWithTimeout (worker : String) (timeoutMs : UInt64)
  | ack (id : TaskId)
  | nack (id : TaskId) (newPriority : Option Int64) (delayMs : Option UInt64)
  | extendVisibility (id : TaskId) (additionalMs : UInt64)
  | advanceClock (now : UInt64)

/-- The queue and the clock, with what has become of the tasks so far. -/
structure Watched where
  queue : PriorityQueue
  clock : UInt64
  enqueued : List (TaskId × List UInt8)
  acknowledged : List TaskId
  deadLettered : List TaskId
  deliveries : List TaskId

namespace Watched

def new (maxAttempts : UInt32) (clock : UInt64) : Watched := ⟨.new maxAttempts, clock, [], [], [], []⟩

def step (w : Watched) : Op → Watched
  | .enqueueDelayed priority payload delayMs =>
    let (queue, id) := enqueueDelayed w.queue w.clock priority payload delayMs
    { w with queue, enqueued := w.enqueued ++ [(id, payload)] }
  | .dequeueWithTimeout worker timeoutMs =>
    let (queue, result) := dequeueWithTimeout w.queue worker timeoutMs w.clock
    { w with
      queue
      deliveries := match result with
        | .success task => w.deliveries ++ [task.id]
        | _ => w.deliveries }
  | .ack id =>
    let (queue, result) := w.queue.ack id
    { w with
      queue
      acknowledged := match result with
        | .ok _ => w.acknowledged ++ [id]
        | .error _ => w.acknowledged }
  | .nack id newPriority delayMs =>
    { w with
      queue := (w.queue.nack w.clock id newPriority delayMs).1
      deadLettered := if deadLetters w.queue id then w.deadLettered ++ [id] else w.deadLettered }
  | .extendVisibility id additionalMs => { w with queue := (w.queue.extendVisibility id additionalMs).1 }
  | .advanceClock now => { w with clock := max w.clock now }

end Watched

section Statement

def due (now : UInt64) (task : Task) : Bool :=
  task.key.readyTs ≤ now && (task.state = .pending || task.leaseExpiresAt.any (· ≤ now))

def Stored (w : Watched) (id : TaskId) (payload : List UInt8) : Prop :=
  ∃ task ∈ w.queue.tasks, task.id = id ∧ task.payload = payload

def OneOf (a b c : Prop) : Prop := (a ∨ b ∨ c) ∧ ¬(a ∧ b) ∧ ¬(a ∧ c) ∧ ¬(b ∧ c)

structure Good (w : Watched) : Prop where
  distinct : (w.enqueued.map Prod.fst).Nodup
  conserved : ∀ task ∈ w.enqueued,
    OneOf (Stored w task.1 task.2) (task.1 ∈ w.acknowledged) (task.1 ∈ w.deadLettered)
  bounded : ∀ id, w.deliveries.count id ≤ w.queue.maxAttempts.toNat
  served : ∀ task ∈ w.queue.tasks, task.attempts < task.maxAttempts → due w.clock task = true →
    ∀ worker timeoutMs, ∃ delivered, (dequeueWithTimeout w.queue worker timeoutMs w.clock).2 = .success delivered

/-- When a dequeue is called, the first task in the order of the queue that is due has not
    used up its attempts. -/
def AttemptsLeft (w : Watched) : Op → Prop
  | .dequeueWithTimeout .. => (w.queue.tasks.find? (due w.clock)).all fun task => task.attempts < task.maxAttempts
  | _ => True

end Statement

section Lookups
variable {tasks : List Task} {f : Task → Task}

def lookup (tasks : List Task) (id : TaskId) : Option Task := tasks.find? (·.id = id)

theorem mem_of_lookup {id : TaskId} {task : Task} (found : lookup tasks id = some task) :
    task ∈ tasks ∧ task.id = id :=
  ⟨mem_of_find?_eq_some found, by simpa using List.find?_some found⟩

theorem lookup_of_mem (distinct : DistinctIds tasks) {task : Task} (member : task ∈ tasks) :
    lookup tasks task.id = some task := by
  cases found : lookup tasks task.id with
  | none => exact absurd (List.find?_eq_none.mp found task member) (by simp)
  | some other =>
    obtain ⟨inside, named⟩ := mem_of_lookup found
    rw [distinct.eq_of_id inside member named]

theorem lookup_eq_none {id : TaskId} : lookup tasks id = none ↔ ∀ task ∈ tasks, task.id ≠ id := by
  simp [lookup, List.find?_eq_none]

theorem lookup_map (keepsId : ∀ task, (f task).id = task.id) (tasks : List Task) (id : TaskId) :
    lookup (tasks.map f) id = (lookup tasks id).map f := by
  unfold lookup
  rw [List.find?_map]
  congr 2
  funext task
  rw [Function.comp, keepsId]

theorem lookup_insertTask {task : Task} (fresh : ∀ t ∈ tasks, t.id ≠ task.id) (id : TaskId) :
    lookup (insertTask task tasks) id = if task.id = id then some task else lookup tasks id := by
  obtain ⟨before, after, rfl, inserted⟩ := insertTask_split fresh
  rw [inserted, lookup, lookup, List.find?_append, List.find?_append]
  by_cases same : task.id = id
  · have absent : before.find? (·.id = id) = none :=
      List.find?_eq_none.mpr fun t member => by simpa [← same] using fresh t (mem_append_left _ member)
    simp [absent, same]
  · simp [same]

end Lookups

section Effects
variable {q : PriorityQueue}

structure Entry where
  payload : List UInt8
  attempts : UInt32
  maxAttempts : UInt32

def entry (task : Task) : Entry := ⟨task.payload, task.attempts, task.maxAttempts⟩

def held (q : PriorityQueue) (id : TaskId) : Option Entry := (lookup q.tasks id).map entry

theorem stored_iff (w : Watched) (id : TaskId) (payload : List UInt8) (distinct : DistinctIds w.queue.tasks) :
    Stored w id payload ↔ ∃ e, held w.queue id = some e ∧ e.payload = payload := by
  constructor
  · rintro ⟨task, member, rfl, rfl⟩
    exact ⟨entry task, by rw [held, lookup_of_mem distinct member, Option.map_some], rfl⟩
  · rintro ⟨e, found, rfl⟩
    obtain ⟨task, inside, rfl⟩ := Option.map_eq_some_iff.mp found
    obtain ⟨member, named⟩ := mem_of_lookup inside
    exact ⟨task, member, named, rfl⟩

theorem held_eq_none {id : TaskId} : held q id = none ↔ ∀ task ∈ q.tasks, task.id ≠ id := by
  rw [held, Option.map_eq_none_iff, lookup_eq_none]

variable {task : Task}

theorem held_of_mem (distinct : DistinctIds q.tasks) (member : task ∈ q.tasks) :
    held q task.id = some (entry task) := by
  rw [held, lookup_of_mem distinct member, Option.map_some]

theorem held_map {f : Task → Task} (keepsId : ∀ task, (f task).id = task.id)
    (keepsEntry : ∀ task, entry (f task) = entry task) {r : PriorityQueue} (changed : r.tasks = q.tasks.map f)
    (id : TaskId) : held r id = held q id := by
  unfold held
  rw [changed, lookup_map keepsId, Option.map_map]
  congr 1
  funext task
  exact keepsEntry task

theorem held_insertTask (task : Task) {r : PriorityQueue} (changed : r.tasks = insertTask task q.tasks)
    (fresh : ∀ t ∈ q.tasks, t.id ≠ task.id) (id : TaskId) :
    held r id = if task.id = id then some (entry task) else held q id := by
  rw [held, changed, lookup_insertTask fresh, apply_ite (Option.map entry)]
  rfl

theorem held_enqueueDelayed (now : UInt64) (priority : Int64) (payload : List UInt8) (delayMs : UInt64)
    (fresh : ∀ task ∈ q.tasks, task.id.sequence < q.sequence) (id : TaskId) :
    held (enqueueDelayed q now priority payload delayMs).1 id =
      if (⟨now, q.sequence⟩ : TaskId) = id then some ⟨payload, 0, q.maxAttempts⟩ else held q id := by
  have absent : ∀ task ∈ q.tasks, task.id ≠ ⟨now, q.sequence⟩ := by
    intro task member same
    have below := fresh task member
    rw [same] at below
    exact Nat.lt_irrefl _ below
  exact held_insertTask ((Task.new ⟨priority, now + delayMs, q.sequence, ⟨now, q.sequence⟩⟩ payload
    now).withMaxAttempts q.maxAttempts) rfl absent id

def settle (expired : List TaskId) (task : Task) : Task :=
  if task.id ∈ expired && task.state = .claimed then task.reset else task

variable (expired : List TaskId)

theorem settle_id (task : Task) : (settle expired task).id = task.id := by
  unfold settle
  split <;> rfl

theorem settle_entry (task : Task) : entry (settle expired task) = entry task := by
  unfold settle
  split <;> rfl

theorem cleanup_tasks (distinct : DistinctIds q.tasks) :
    (q.cleanupExpiredClaims expired).tasks = q.tasks.map (settle expired) := by
  induction expired generalizing q with
  | nil =>
    have same : ∀ task ∈ q.tasks, settle [] task = task := fun task _ => by simp [settle]
    rw [map_congr_left same, map_id']
    rfl
  | cons id rest ih =>
    have first : (q.dropClaim id).tasks =
        q.tasks.map fun task => if task.id = id && task.state = .claimed then task.reset else task :=
      modifyFirst_eq_map distinct id fun task => task.state = .claimed
    have stillDistinct : DistinctIds (q.dropClaim id).tasks := distinct.modifyFirst _ fun _ => rfl
    show ((q.dropClaim id).cleanupExpiredClaims rest).tasks = _
    rw [ih stillDistinct, first, map_map]
    apply map_congr_left
    intro task _
    by_cases claimed : task.state = .claimed
    · by_cases here : task.id = id
      · by_cases later : id ∈ rest <;> simp [settle, claimed, here, later, Task.reset]
      · by_cases later : task.id ∈ rest <;> simp [settle, claimed, here, later]
    · simp [settle, claimed]

theorem mem_expiredClaims {now : UInt64} {id : TaskId} :
    id ∈ q.expiredClaims now ↔ ∃ claim, get q.claims id = some claim ∧ claim.isExpired now = true := by
  unfold PriorityQueue.expiredClaims
  rw [mem_map]
  constructor
  · rintro ⟨⟨other, claim⟩, kept, rfl⟩
    obtain ⟨inside, ended⟩ := mem_filter.mp kept
    exact ⟨claim, mem_pairs.mp inside, ended⟩
  · rintro ⟨claim, found, ended⟩
    exact ⟨(id, claim), mem_filter.mpr ⟨mem_pairs.mpr found, ended⟩, rfl⟩

theorem takeable_settle (consistent : Consistent q) (worker : String) (now : UInt64)
    (member : task ∈ q.tasks) :
    (q.cleanupExpiredClaims (q.expiredClaims now)).takeable worker now (settle (q.expiredClaims now) task) =
      due now task := by
  have fits := consistent.fits task member
  have claims := claims_cleanup q (q.expiredClaims now) task.id
  cases claimed : get q.claims task.id with
  | none =>
    rw [claimed] at fits claims
    have pending : task.state = .pending := fits
    have kept : settle (q.expiredClaims now) task = task := by simp [settle, pending]
    have free : get (q.cleanupExpiredClaims (q.expiredClaims now)).claims task.id = none := by
      rw [claims]
      split <;> rfl
    rw [kept]
    simp [PriorityQueue.takeable, PriorityQueue.contended, Task.isVisible, due, pending, free]
  | some claim =>
    rw [claimed] at fits claims
    obtain ⟨isClaimed, lease⟩ := fits
    by_cases expired : claim.isExpired now = true
    · have listed : task.id ∈ q.expiredClaims now := mem_expiredClaims.mpr ⟨claim, claimed, expired⟩
      have freed : settle (q.expiredClaims now) task = task.reset := by simp [settle, isClaimed, listed]
      have free : get (q.cleanupExpiredClaims (q.expiredClaims now)).claims task.reset.id = none := by
        rw [if_pos listed] at claims
        exact claims
      have ended : claim.expiresAt ≤ now := of_decide_eq_true expired
      have visible : task.reset.isVisible now = decide (task.key.readyTs ≤ now) := rfl
      rw [freed]
      unfold PriorityQueue.takeable PriorityQueue.contended
      rw [free, visible]
      simp [due, lease, ended]
    · have unlisted : task.id ∉ q.expiredClaims now := by
        intro listed
        obtain ⟨other, found, ended⟩ := mem_expiredClaims.mp listed
        rw [claimed] at found
        cases found
        exact expired ended
      have kept : settle (q.expiredClaims now) task = task := by simp [settle, unlisted]
      have running : ¬claim.expiresAt ≤ now := fun ended => expired (decide_eq_true ended)
      rw [kept]
      simp [PriorityQueue.takeable, Task.isVisible, due, isClaimed, lease, running]

theorem held_claim (distinct : DistinctIds q.tasks) (member : task ∈ q.tasks) (f : Task → Task)
    (keepsId : ∀ task, (f task).id = task.id) {r : PriorityQueue}
    (changed : r.tasks = modifyFirst (·.id = task.id) f q.tasks) (id : TaskId) :
    held r id = if task.id = id then some (entry (f task)) else held q id := by
  have mapped : r.tasks = q.tasks.map fun t => if t.id = task.id then f t else t := by
    have all := modifyFirst_eq_map (f := f) distinct task.id fun _ => true
    simp only [Bool.and_true, decide_eq_true_eq] at all
    exact changed.trans all
  have ids : ∀ t, (if t.id = task.id then f t else t).id = t.id := by
    intro t
    split
    · exact keepsId t
    · rfl
  unfold held
  rw [mapped, lookup_map ids]
  split
  · rename_i same
    rw [← same, lookup_of_mem distinct member]
    simp
  · rename_i other
    cases found : lookup q.tasks id with
    | none => rfl
    | some t =>
      obtain ⟨_, named⟩ := mem_of_lookup found
      have apart : ¬t.id = task.id := fun same => other (same.symm.trans named)
      simp [apart]

theorem find_takeable (consistent : Consistent q) (worker : String) (now : UInt64) :
    (q.cleanupExpiredClaims (q.expiredClaims now)).tasks.find?
      ((q.cleanupExpiredClaims (q.expiredClaims now)).takeable worker now) =
      (q.tasks.find? (due now)).map (settle (q.expiredClaims now)) := by
  rw [cleanup_tasks _ consistent.distinct, List.find?_map]
  congr 1
  apply List.find?_congr
  intro task member
  exact takeable_settle consistent worker now member

theorem held_cleanup (distinct : DistinctIds q.tasks) (expired : List TaskId) (id : TaskId) :
    held (q.cleanupExpiredClaims expired) id = held q id :=
  held_map (settle_id expired) (settle_entry expired) (cleanup_tasks expired distinct) id

variable (consistent : Consistent q)
include consistent

theorem dequeue_due (worker : String) (timeoutMs now : UInt64)
    (first : q.tasks.find? (due now) = some task) :
    (∃ delivered, (dequeueWithTimeout q worker timeoutMs now).2 = .success delivered ∧ delivered.id = task.id) ∧
      ∀ id, held (dequeueWithTimeout q worker timeoutMs now).1 id =
        if task.id = id then some { entry task with attempts := task.attempts + 1 } else held q id := by
  have cleaned := consistent.cleanup (q.expiredClaims now)
  have found := find_takeable consistent worker now
  rw [first, Option.map_some] at found
  have member := mem_of_find?_eq_some found
  have counted : ∀ claim, entry (PriorityQueue.claimTask worker now claim (settle (q.expiredClaims now) task)) =
      { entry task with attempts := task.attempts + 1 } := by
    intro claim
    rw [← settle_entry (q.expiredClaims now) task]
    show Entry.mk _ ((settle (q.expiredClaims now) task).attempts + 1) _ = _
    have attempts : (settle (q.expiredClaims now) task).attempts = task.attempts :=
      congrArg Entry.attempts (settle_entry (q.expiredClaims now) task)
    rw [attempts]
    rfl
  unfold dequeueWithTimeout PriorityQueue.claimFirst
  rw [found]
  constructor
  · exact ⟨_, rfl, settle_id _ task⟩
  · intro id
    rw [held_claim cleaned.distinct member (PriorityQueue.claimTask worker now (Claim.new worker timeoutMs now))
      (fun _ => rfl) (modifyFirst_found cleaned.distinct found), counted, settle_id,
      held_cleanup consistent.distinct]

theorem dequeue_none (worker : String) (timeoutMs now : UInt64)
    (nothing : q.tasks.find? (due now) = none) :
    (∀ delivered, (dequeueWithTimeout q worker timeoutMs now).2 ≠ .success delivered) ∧
      ∀ id, held (dequeueWithTimeout q worker timeoutMs now).1 id = held q id := by
  have found := find_takeable consistent worker now
  rw [nothing, Option.map_none] at found
  unfold dequeueWithTimeout PriorityQueue.claimFirst
  rw [found]
  dsimp only
  constructor
  · intro delivered
    split <;> exact nofun
  · exact held_cleanup consistent.distinct _

theorem held_remove (member : task ∈ q.tasks) (id : TaskId) :
    held (q.remove task.key task.id) id = if task.id = id then none else held q id := by
  have removed := consistent.remove member
  split
  · rename_i same
    rw [held_eq_none]
    intro t kept
    rw [← same]
    exact ((consistent.mem_remove member).mp kept).2
  · rename_i other
    cases found : lookup q.tasks id with
    | none =>
      have absent : held q id = none := by rw [held, found]; rfl
      rw [absent, held_eq_none]
      intro t kept
      exact lookup_eq_none.mp found t ((consistent.mem_remove member).mp kept).1
    | some t =>
      obtain ⟨inside, rfl⟩ := mem_of_lookup found
      have kept := (consistent.mem_remove member).mpr ⟨inside, fun same => other same.symm⟩
      rw [held_of_mem removed.distinct kept, held_of_mem consistent.distinct inside]

theorem ack_effect (id : TaskId) :
    ((held q id).isSome → (q.ack id).2 = .ok ()) ∧ (held q id = none → ∃ message, (q.ack id).2 = .error message) ∧
      ∀ other, held (q.ack id).1 other = if id = other then none else held q other := by
  unfold PriorityQueue.ack
  cases found : q.tasks.find? (·.id = id) with
  | none =>
    have absent : held q id = none := by rw [held, lookup, found]; rfl
    refine ⟨fun present => ?_, fun _ => ⟨_, rfl⟩, fun other => ?_⟩
    · rw [absent] at present
      cases present
    · by_cases same : id = other
      · rw [if_pos same, ← same, absent]
      · rw [if_neg same]
  | some task =>
    obtain ⟨member, rfl⟩ := Consistent.found_id found
    refine ⟨fun _ => rfl, fun absent => ?_, held_remove consistent member⟩
    rw [held_of_mem consistent.distinct member] at absent
    cases absent

theorem nack_effect (now : UInt64) (id : TaskId) (newPriority : Option Int64) (delayMs : Option UInt64)
    (other : TaskId) :
    held (q.nack now id newPriority delayMs).1 other =
      if id = other ∧ deadLetters q id = true then none else held q other := by
  unfold PriorityQueue.nack deadLetters
  cases found : q.tasks.find? (·.id = id) with
  | none => simp
  | some task =>
    obtain ⟨member, rfl⟩ := Consistent.found_id found
    have removed := held_remove consistent member other
    rw [Option.any_some]
    dsimp only
    cases spent : task.shouldDeadLetter with
    | true => simpa using removed
    | false =>
      let again : Task := { task.reset with
        key := ⟨newPriority.getD task.key.priority, (delayMs.map (now + ·)).getD now, q.sequence, task.id⟩ }
      have absent : ∀ t ∈ (q.remove task.key task.id).tasks, t.id ≠ again.id :=
        fun t kept => ((consistent.mem_remove member).mp kept).2
      have result : held { (q.remove task.key task.id).nextSequence.1 with
          tasks := insertTask again (q.remove task.key task.id).tasks } other =
          if task.id = other then some (entry task) else held (q.remove task.key task.id) other :=
        held_insertTask again rfl absent other
      rw [if_neg (by simp), if_neg (by simp)]
      refine result.trans ?_
      rw [removed]
      split
      · rename_i same
        rw [← same, held_of_mem consistent.distinct member]
      · rfl

theorem extend_effect (id : TaskId) (additionalMs : UInt64) (other : TaskId) :
    held (q.extendVisibility id additionalMs).1 other = held q other := by
  unfold PriorityQueue.extendVisibility
  split
  · rfl
  · rename_i claim claimed
    obtain ⟨task, member, rfl⟩ := consistent.owned id claim claimed
    rw [held_claim consistent.distinct member
      (fun task => { task with leaseExpiresAt := some (claim.expiresAt + additionalMs) }) (fun _ => rfl) rfl]
    split
    · rename_i same
      rw [← same, held_of_mem consistent.distinct member]
      rfl
    · rfl

end Effects

section Limits
variable (q : PriorityQueue)

theorem limit_cleanup (expired : List TaskId) : (q.cleanupExpiredClaims expired).maxAttempts = q.maxAttempts := by
  induction expired generalizing q with
  | nil => rfl
  | cons id rest ih => exact ih (q.dropClaim id)

theorem limit_dequeue (worker : String) (timeoutMs now : UInt64) :
    (dequeueWithTimeout q worker timeoutMs now).1.maxAttempts = q.maxAttempts := by
  rw [← limit_cleanup q (q.expiredClaims now)]
  unfold dequeueWithTimeout PriorityQueue.claimFirst
  split <;> rfl

theorem limit_ack (id : TaskId) : (q.ack id).1.maxAttempts = q.maxAttempts := by
  unfold PriorityQueue.ack
  split <;> rfl

theorem limit_nack (now : UInt64) (id : TaskId) (newPriority : Option Int64) (delayMs : Option UInt64) :
    (q.nack now id newPriority delayMs).1.maxAttempts = q.maxAttempts := by
  unfold PriorityQueue.nack
  split
  · rfl
  · split <;> rfl

theorem limit_extend (id : TaskId) (additionalMs : UInt64) :
    (q.extendVisibility id additionalMs).1.maxAttempts = q.maxAttempts := by
  unfold PriorityQueue.extendVisibility
  split <;> rfl

theorem sequence_dequeue (worker : String) (timeoutMs now : UInt64) :
    q.sequence ≤ (dequeueWithTimeout q worker timeoutMs now).1.sequence :=
  (NoNewIds.cleanup q (q.expiredClaims now)).sequence.trans (NoNewIds.claimFirst _ worker timeoutMs now).sequence

end Limits

section Invariant
variable {w : Watched}

def Seen (w : Watched) (id : TaskId) : Prop :=
  id ∈ w.enqueued.map Prod.fst ∨ id ∈ w.acknowledged ∨ id ∈ w.deadLettered ∨ id ∈ w.deliveries

structure Known (w : Watched) (id : TaskId) (e : Entry) : Prop where
  enqueued : (id, e.payload) ∈ w.enqueued
  open_task : id ∉ w.acknowledged ∧ id ∉ w.deadLettered
  counted : w.deliveries.count id = e.attempts.toNat
  limit : e.maxAttempts = w.queue.maxAttempts
  within : e.attempts ≤ e.maxAttempts

structure Inv (w : Watched) : Prop where
  consistent : Consistent w.queue
  numbered : ∀ id, Seen w id → id.sequence < w.queue.sequence
  distinct : (w.enqueued.map Prod.fst).Nodup
  stored : ∀ id e, held w.queue id = some e → Known w id e
  gone : ∀ task ∈ w.enqueued, held w.queue task.1 = none →
    (task.1 ∈ w.acknowledged ∨ task.1 ∈ w.deadLettered) ∧ ¬(task.1 ∈ w.acknowledged ∧ task.1 ∈ w.deadLettered)
  bounded : ∀ id, w.deliveries.count id ≤ w.queue.maxAttempts.toNat

theorem Inv.new (maxAttempts : UInt32) (clock : UInt64) : Inv (.new maxAttempts clock) where
  consistent := .new maxAttempts
  numbered := by
    intro id seen
    rcases seen with seen | seen | seen | seen <;> cases seen
  distinct := nodup_nil
  stored := fun id e found => by cases found
  gone := fun task member => by cases member
  bounded := fun id => Nat.zero_le _

theorem Inv.fresh (inv : Inv w) : ∀ task ∈ w.queue.tasks, task.id.sequence < w.queue.sequence := by
  intro task member
  have known := inv.stored task.id _ (held_of_mem inv.consistent.distinct member)
  exact inv.numbered task.id (.inl (mem_map.mpr ⟨_, known.enqueued, rfl⟩))

variable {queue : PriorityQueue}

theorem Inv.keep (inv : Inv w) (clock : UInt64) (consistent : Consistent queue)
    (sequence : w.queue.sequence ≤ queue.sequence) (limit : queue.maxAttempts = w.queue.maxAttempts)
    (same : ∀ id, held queue id = held w.queue id) : Inv { w with queue := queue, clock := clock } where
  consistent := consistent
  numbered := fun id seen => (inv.numbered id seen).trans_le sequence
  distinct := inv.distinct
  stored := by
    intro id e found
    obtain ⟨enqueued, open_task, counted, limited, within⟩ := inv.stored id e ((same id).symm.trans found)
    exact ⟨enqueued, open_task, counted, limited.trans limit.symm, within⟩
  gone := fun task member absent => inv.gone task member ((same task.1).symm.trans absent)
  bounded := by
    intro id
    show _ ≤ queue.maxAttempts.toNat
    rw [limit]
    exact inv.bounded id

theorem Inv.retire (inv : Inv w) {acknowledged deadLettered : List TaskId} {id : TaskId}
    (consistent : Consistent queue) (sequence : w.queue.sequence ≤ queue.sequence)
    (limit : queue.maxAttempts = w.queue.maxAttempts)
    (removed : ∀ other, held queue other = if id = other then none else held w.queue other)
    (present : ∃ e, held w.queue id = some e)
    (others : ∀ other, id ≠ other → (other ∈ acknowledged ↔ other ∈ w.acknowledged) ∧
      (other ∈ deadLettered ↔ other ∈ w.deadLettered))
    (placed : (id ∈ acknowledged ∨ id ∈ deadLettered) ∧ ¬(id ∈ acknowledged ∧ id ∈ deadLettered)) :
    Inv { w with queue := queue, acknowledged := acknowledged, deadLettered := deadLettered } where
  consistent := consistent
  numbered := by
    intro other seen
    apply (inv.numbered other _).trans_le sequence
    by_cases same : id = other
    · obtain ⟨e, found⟩ := present
      exact .inl (mem_map.mpr ⟨_, (inv.stored id e found).enqueued, same⟩)
    · obtain ⟨acked, dead⟩ := others other same
      exact seen.imp_right (Or.imp acked.mp (Or.imp_left dead.mp))
  distinct := inv.distinct
  stored := by
    intro other e found
    replace found : held queue other = some e := found
    rw [removed] at found
    split at found
    · cases found
    · rename_i apart
      obtain ⟨acked, dead⟩ := others other apart
      obtain ⟨enqueued, open_task, counted, limited, within⟩ := inv.stored other e found
      exact ⟨enqueued, ⟨fun inside => open_task.1 (acked.mp inside), fun inside => open_task.2 (dead.mp inside)⟩,
        counted, limited.trans limit.symm, within⟩
  gone := by
    intro task member absent
    replace absent : held queue task.1 = none := absent
    by_cases same : id = task.1
    · rw [← same]
      exact placed
    · obtain ⟨acked, dead⟩ := others task.1 same
      rw [removed, if_neg same] at absent
      rw [acked, dead]
      exact inv.gone task member absent
  bounded := by
    intro other
    show _ ≤ queue.maxAttempts.toNat
    rw [limit]
    exact inv.bounded other

theorem Inv.deliver (inv : Inv w) {id : TaskId} {e : Entry} (consistent : Consistent queue)
    (sequence : w.queue.sequence ≤ queue.sequence) (limit : queue.maxAttempts = w.queue.maxAttempts)
    (present : held w.queue id = some e) (left : e.attempts < e.maxAttempts)
    (changed : ∀ other, held queue other =
      if id = other then some { e with attempts := e.attempts + 1 } else held w.queue other) :
    Inv { w with queue := queue, deliveries := w.deliveries ++ [id] } := by
  have known := inv.stored id e present
  have more : (e.attempts + 1).toNat = e.attempts.toNat + 1 := by
    have below : e.attempts.toNat < e.maxAttempts.toNat := left
    have top := e.maxAttempts.toNat_lt
    rw [UInt32.toNat_add]
    apply Nat.mod_eq_of_lt
    show e.attempts.toNat + 1 < 2 ^ 32
    omega
  have here : (w.deliveries ++ [id]).count id = e.attempts.toNat + 1 := by
    rw [count_append, known.counted, count_singleton_self]
  have elsewhere : ∀ other, id ≠ other → (w.deliveries ++ [id]).count other = w.deliveries.count other := by
    intro other apart
    rw [count_append, count_singleton, if_neg (by simpa using apart), Nat.add_zero]
  have below : e.attempts.toNat + 1 ≤ w.queue.maxAttempts.toNat := by
    rw [← known.limit]
    exact left
  constructor
  case consistent => exact consistent
  case numbered =>
    intro other seen
    apply (inv.numbered other _).trans_le sequence
    by_cases same : other = id
    · exact .inl (same ▸ mem_map.mpr ⟨_, known.enqueued, rfl⟩)
    · exact seen.imp_right (Or.imp_right (Or.imp_right fun inside =>
        (mem_append.mp inside).resolve_right fun now => same (mem_singleton.mp now)))
  case distinct => exact inv.distinct
  case stored =>
    intro other f found
    replace found : held queue other = some f := found
    rw [changed] at found
    split at found
    · rename_i same
      subst same
      cases found
      exact ⟨known.enqueued, known.open_task, here.trans more.symm, known.limit.trans limit.symm,
        UInt32.le_iff_toNat_le.mpr (by rw [more, known.limit]; exact below)⟩
    · rename_i apart
      obtain ⟨enqueued, open_task, counted, limited, within⟩ := inv.stored other f found
      exact ⟨enqueued, open_task, (elsewhere other apart).trans counted, limited.trans limit.symm, within⟩
  case gone =>
    intro task member absent
    replace absent : held queue task.1 = none := absent
    rw [changed] at absent
    split at absent
    · cases absent
    · exact inv.gone task member absent
  case bounded =>
    intro other
    show (w.deliveries ++ [id]).count other ≤ queue.maxAttempts.toNat
    rw [limit]
    by_cases same : id = other
    · rw [← same, here]
      exact below
    · rw [elsewhere other same]
      exact inv.bounded other

theorem Inv.enqueue (inv : Inv w) (priority : Int64) (payload : List UInt8) (delayMs : UInt64) :
    Inv (w.step (.enqueueDelayed priority payload delayMs)) := by
  let id : TaskId := ⟨w.clock, w.queue.sequence⟩
  have entries := held_enqueueDelayed w.clock priority payload delayMs inv.fresh
  have unseen : ¬Seen w id := fun seen => Nat.lt_irrefl _ (inv.numbered id seen)
  have uncounted : w.deliveries.count id = 0 :=
    count_eq_zero.mpr fun inside => unseen (.inr (.inr (.inr inside)))
  have absent : ∀ task ∈ w.queue.tasks, task.id ≠ id := by
    intro task member same
    have below := inv.fresh task member
    rw [same] at below
    exact Nat.lt_irrefl _ below
  constructor
  case consistent =>
    refine inv.consistent.insertTask rfl ?_ _
    exact absent
  case numbered =>
    intro other seen
    apply Nat.lt_succ_of_le
    by_cases same : other = id
    · rw [same]
    · refine (inv.numbered other (seen.imp_left fun inside => ?_)).le
      replace inside : other ∈ (w.enqueued ++ [(id, payload)]).map Prod.fst := inside
      rw [map_append] at inside
      exact (mem_append.mp inside).resolve_right fun now => same (mem_singleton.mp now)
  case distinct =>
    show ((w.enqueued ++ [(id, payload)]).map Prod.fst).Nodup
    rw [map_append]
    apply nodup_append.mpr
    refine ⟨inv.distinct, nodup_singleton _, ?_⟩
    intro a inside b now same
    rw [same, mem_singleton.mp now] at inside
    exact unseen (.inl inside)
  case stored =>
    intro other e found
    rw [show (w.step (.enqueueDelayed priority payload delayMs)).queue =
      (enqueueDelayed w.queue w.clock priority payload delayMs).1 from rfl, entries] at found
    split at found
    · rename_i same
      subst same
      cases found
      exact ⟨mem_append_right _ mem_cons_self,
        ⟨fun inside => unseen (.inr (.inl inside)), fun inside => unseen (.inr (.inr (.inl inside)))⟩,
        uncounted, rfl, UInt32.zero_le⟩
    · obtain ⟨enqueued, open_task, counted, limited, within⟩ := inv.stored other e found
      exact ⟨mem_append_left _ enqueued, open_task, counted, limited, within⟩
  case gone =>
    intro task member absent_task
    rw [show (w.step (.enqueueDelayed priority payload delayMs)).queue =
      (enqueueDelayed w.queue w.clock priority payload delayMs).1 from rfl, entries] at absent_task
    split at absent_task
    · cases absent_task
    · rename_i apart
      rcases mem_append.mp member with earlier | now
      · exact inv.gone task earlier absent_task
      · rw [mem_singleton.mp now] at apart
        exact absurd rfl apart
  case bounded => exact inv.bounded

end Invariant

section Runs
variable {w : Watched}

theorem Inv.good (inv : Inv w) : Good w where
  distinct := inv.distinct
  conserved := by
    intro task member
    rw [stored_iff w _ _ inv.consistent.distinct]
    cases found : held w.queue task.1 with
    | none =>
      obtain ⟨one, notBoth⟩ := inv.gone task member found
      refine ⟨.inr one, ?_, ?_, notBoth⟩ <;> rintro ⟨⟨_, impossible, _⟩, _⟩ <;> cases impossible
    | some e =>
      obtain ⟨enqueued, unacked, undead⟩ := inv.stored task.1 e found
      have payload : e.payload = task.2 :=
        congrArg Prod.snd (inj_on_of_nodup_map inv.distinct enqueued member rfl)
      exact ⟨.inl ⟨e, rfl, payload⟩, fun both => unacked.1 both.2, fun both => unacked.2 both.2,
        fun both => unacked.1 both.1⟩
  bounded := inv.bounded
  served := by
    intro task member _ isDue worker timeoutMs
    obtain ⟨first, found⟩ := Option.isSome_iff_exists.mp (List.find?_isSome.mpr ⟨task, member, isDue⟩)
    obtain ⟨delivered, result, _⟩ := (dequeue_due inv.consistent worker timeoutMs w.clock found).1
    exact ⟨delivered, result⟩

theorem Consistent.dequeue {q : PriorityQueue} (consistent : Consistent q) (worker : String) (timeoutMs now : UInt64) :
    Consistent (dequeueWithTimeout q worker timeoutMs now).1 :=
  (consistent.cleanup _).claimFirst worker timeoutMs now

theorem step_dequeue_due (consistent : Consistent w.queue) (worker : String) (timeoutMs : UInt64) {task : Task}
    (first : w.queue.tasks.find? (due w.clock) = some task) :
    w.step (.dequeueWithTimeout worker timeoutMs) =
      { w with
        queue := (dequeueWithTimeout w.queue worker timeoutMs w.clock).1
        deliveries := w.deliveries ++ [task.id] } := by
  obtain ⟨delivered, result, named⟩ := (dequeue_due consistent worker timeoutMs w.clock first).1
  unfold Watched.step
  dsimp only
  rw [result, ← named]

theorem step_dequeue_none (consistent : Consistent w.queue) (worker : String) (timeoutMs : UInt64)
    (nothing : w.queue.tasks.find? (due w.clock) = none) :
    w.step (.dequeueWithTimeout worker timeoutMs) =
      { w with queue := (dequeueWithTimeout w.queue worker timeoutMs w.clock).1 } := by
  have failed := (dequeue_none consistent worker timeoutMs w.clock nothing).1
  unfold Watched.step
  dsimp only
  cases result : (dequeueWithTimeout w.queue worker timeoutMs w.clock).2 with
  | success task => exact absurd result (failed task)
  | empty => rfl
  | contention count => rfl

theorem Inv.step (inv : Inv w) (op : Op) (left : AttemptsLeft w op) : Inv (w.step op) := by
  cases op with
  | enqueueDelayed priority payload delayMs => exact inv.enqueue priority payload delayMs
  | dequeueWithTimeout worker timeoutMs =>
    have consistent := Consistent.dequeue inv.consistent worker timeoutMs w.clock
    have sequence := sequence_dequeue w.queue worker timeoutMs w.clock
    have limit := limit_dequeue w.queue worker timeoutMs w.clock
    cases first : w.queue.tasks.find? (due w.clock) with
    | none =>
      rw [step_dequeue_none inv.consistent worker timeoutMs first]
      exact inv.keep w.clock consistent sequence limit (dequeue_none inv.consistent worker timeoutMs w.clock first).2
    | some task =>
      have fewer : task.attempts < task.maxAttempts := by
        unfold AttemptsLeft at left
        rw [first] at left
        exact of_decide_eq_true left
      rw [step_dequeue_due inv.consistent worker timeoutMs first]
      exact inv.deliver consistent sequence limit
        (held_of_mem inv.consistent.distinct (mem_of_find?_eq_some first)) fewer
        (dequeue_due inv.consistent worker timeoutMs w.clock first).2
  | ack id =>
    obtain ⟨accepted, refused, entries⟩ := ack_effect inv.consistent id
    have consistent := inv.consistent.ack id
    have sequence := (NoNewIds.ack w.queue id).sequence
    have limit := limit_ack w.queue id
    unfold Watched.step
    dsimp only
    cases present : held w.queue id with
    | none =>
      obtain ⟨message, result⟩ := refused present
      rw [result]
      apply inv.keep w.clock consistent sequence limit
      intro other
      rw [entries]
      split
      · rename_i same
        rw [← same, present]
      · rfl
    | some e =>
      have known := inv.stored id e present
      rw [accepted (by rw [present]; rfl)]
      apply inv.retire consistent sequence limit entries ⟨e, present⟩
      · intro other apart
        refine ⟨?_, .rfl⟩
        simp [Ne.symm apart]
      · simp [known.open_task.2]
  | nack id newPriority delayMs =>
    have entries := nack_effect inv.consistent w.clock id newPriority delayMs
    have consistent := inv.consistent.nack w.clock id newPriority delayMs
    have sequence := (NoNewIds.nack w.queue w.clock id newPriority delayMs).sequence
    have limit := limit_nack w.queue w.clock id newPriority delayMs
    unfold Watched.step
    dsimp only
    cases spent : deadLetters w.queue id with
    | false =>
      apply inv.keep w.clock consistent sequence limit
      intro other
      rw [entries, spent, if_neg (by simp)]
    | true =>
      have present : ∃ e, held w.queue id = some e := by
        cases found : lookup w.queue.tasks id with
        | none =>
          rw [deadLetters, ← lookup, found] at spent
          cases spent
        | some task => exact ⟨entry task, by rw [held, found, Option.map_some]⟩
      obtain ⟨e, stored⟩ := present
      have known := inv.stored id e stored
      apply inv.retire consistent sequence limit _ ⟨e, stored⟩
      · intro other apart
        refine ⟨.rfl, ?_⟩
        simp [Ne.symm apart]
      · simp [known.open_task.1]
      · intro other
        rw [entries, spent]
        simp only [and_true]
  | extendVisibility id additionalMs =>
    exact inv.keep w.clock (inv.consistent.extendVisibility id additionalMs)
      (NoNewIds.extendVisibility w.queue id additionalMs).sequence (limit_extend w.queue id additionalMs)
      (extend_effect inv.consistent id additionalMs)
  | advanceClock now => exact inv.keep (max w.clock now) inv.consistent (le_rfl) rfl fun _ => rfl

theorem Inv.needed (inv : Inv w) (op : Op) (good : Good (w.step op)) : AttemptsLeft w op := by
  cases op with
  | dequeueWithTimeout worker timeoutMs =>
    unfold AttemptsLeft
    cases first : w.queue.tasks.find? (due w.clock) with
    | none => rfl
    | some task =>
      have known := inv.stored task.id _ (held_of_mem inv.consistent.distinct (mem_of_find?_eq_some first))
      have bounded := good.bounded task.id
      rw [step_dequeue_due inv.consistent worker timeoutMs first] at bounded
      rw [limit_dequeue, count_append, count_singleton_self, known.counted, ← known.limit] at bounded
      rw [Option.all_some]
      exact decide_eq_true bounded
  | enqueueDelayed | ack | nack | extendVisibility | advanceClock => trivial

/-- In a run every task is always in one place, deliveries stay within the limit and due
    tasks are delivered, if and only if no dequeue finds as its first due task one that has
    used up its attempts. -/
theorem tasks_conserved_and_bounded_iff (maxAttempts : UInt32) (clock : UInt64) (ops : List Op) :
    (∀ before, before <+: ops → Good (run Watched.step (.new maxAttempts clock) before)) ↔
      Guarded Watched.step AttemptsLeft (.new maxAttempts clock) ops := by
  have free : Guarded Watched.step (fun _ _ => True) (.new maxAttempts clock) ops :=
    Guarded.of_all (fun _ _ => trivial) _ _
  apply Iff.symm
  exact guarded_iff_always Inv Good (fun s op inv _ left => inv.step op left) (fun s inv => inv.good)
    (fun s op inv _ good => inv.needed op good) (Inv.new maxAttempts clock) free

/-- With the default limit of three, a task whose leases run out is delivered a fourth time. -/
theorem expired_leases_exceed_the_limit :
    let ops : List Op := [.enqueueDelayed 0 [7] 0, .dequeueWithTimeout "worker" 1000, .advanceClock 1000,
      .dequeueWithTimeout "worker" 1000, .advanceClock 2000, .dequeueWithTimeout "worker" 1000, .advanceClock 3000,
      .dequeueWithTimeout "worker" 1000]
    let final := run Watched.step (.new 3 0) ops
    final.deliveries.count ⟨0, 0⟩ = 4 ∧ final.deadLettered = [] ∧ ¬Good final := by
  intro ops final
  have delivered : final.deliveries.count ⟨0, 0⟩ = 4 := by decide +kernel
  have limit : final.queue.maxAttempts.toNat = 3 := by decide +kernel
  refine ⟨delivered, by decide +kernel, ?_⟩
  intro good
  have bounded := good.bounded ⟨0, 0⟩
  rw [delivered, limit] at bounded
  exact absurd bounded (by decide)

end Runs

end TaskLifecycle
