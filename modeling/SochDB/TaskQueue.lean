import SochDB.Library.KeyedMaps

/-!
The in-memory priority queue. What a call does under its locks is one section, and a call
reads the clock once before its first section. Tasks stand in the order of their keys.
-/
namespace TaskQueue
open KeyedMaps List

def hex16 (n : Nat) : String :=
  let digits := Nat.toDigits 16 n
  String.ofList (List.replicate (16 - digits.length) '0' ++ digits)

/-- A task id is the text of two numbers of fixed width. -/
structure TaskId where
  now : UInt64
  sequence : Nat
  deriving DecidableEq, Repr

def TaskId.display (id : TaskId) : String := hex16 id.now.toNat ++ hex16 id.sequence

/-- Without the name of the queue, which all its keys share. -/
structure QueueKey where
  priority : Int64
  readyTs : UInt64
  sequence : Nat
  taskId : TaskId
  deriving DecidableEq, Repr

def QueueKey.cmp (a b : QueueKey) : Ordering :=
  (compare a.priority.toInt b.priority.toInt).then <|
  (compare a.readyTs.toNat b.readyTs.toNat).then <|
  (compare a.sequence b.sequence).then <|
  (compare a.taskId.now.toNat b.taskId.now.toNat).then <|
  compare a.taskId.sequence b.taskId.sequence

theorem QueueKey.eq_of_cmp {a b : QueueKey} (same : a.cmp b = .eq) : a = b := by
  obtain ⟨priority, readyTs, sequence, now, number⟩ := a
  obtain ⟨priority', readyTs', sequence', now', number'⟩ := b
  simp only [cmp, Ordering.then_eq_eq, Nat.compare_eq_eq, Int.compare_eq_eq] at same
  obtain ⟨first, second, rfl, third, rfl⟩ := same
  cases Int64.toInt_inj.mp first
  cases UInt64.toNat_inj.mp second
  cases UInt64.toNat_inj.mp third
  rfl

inductive TaskState where
  | pending | claimed | completed | deadLettered
  deriving DecidableEq, Repr

structure Task where
  key : QueueKey
  payload : List UInt8
  state : TaskState
  attempts : UInt32
  maxAttempts : UInt32
  createdAt : UInt64
  claimedAt : Option UInt64
  claimedBy : Option String
  leaseExpiresAt : Option UInt64
  deriving DecidableEq, Repr

namespace Task

def new (key : QueueKey) (payload : List UInt8) (now : UInt64) : Task :=
  ⟨key, payload, .pending, 0, 3, now, none, none, none⟩

def withMaxAttempts (task : Task) (max : UInt32) : Task := { task with maxAttempts := max }

def id (task : Task) : TaskId := task.key.taskId

def isVisible (task : Task) (now : UInt64) : Bool :=
  match task.state with
  | .pending => task.key.readyTs ≤ now
  | .claimed => task.leaseExpiresAt.any (· ≤ now)
  | .completed | .deadLettered => false

def shouldDeadLetter (task : Task) : Bool := task.maxAttempts ≤ task.attempts

def reset (task : Task) : Task :=
  { task with state := .pending, claimedAt := none, claimedBy := none, leaseExpiresAt := none }

end Task

structure Claim where
  owner : String
  claimedAt : UInt64
  expiresAt : UInt64
  deriving DecidableEq, Repr

def Claim.new (owner : String) (leaseMs now : UInt64) : Claim := ⟨owner, now, now + leaseMs⟩

def Claim.isExpired (claim : Claim) (now : UInt64) : Bool := claim.expiresAt ≤ now

inductive DequeueResult where
  | success (task : Task)
  | empty
  | contention (count : Nat)
  deriving DecidableEq, Repr

structure PriorityQueue where
  maxAttempts : UInt32
  tasks : List Task
  claims : Map TaskId Claim
  sequence : Nat

def insertTask (task : Task) : List Task → List Task
  | [] => [task]
  | other :: rest =>
    match task.key.cmp other.key with
    | .lt => task :: other :: rest
    | .eq => task :: rest
    | .gt => other :: insertTask task rest

def modifyFirst (p : Task → Bool) (f : Task → Task) : List Task → List Task
  | [] => []
  | task :: rest => if p task then f task :: rest else task :: modifyFirst p f rest

namespace PriorityQueue
variable (q : PriorityQueue)

def new (maxAttempts : UInt32) : PriorityQueue := ⟨maxAttempts, [], ∅, 0⟩

def nextSequence : PriorityQueue × Nat := ({ q with sequence := q.sequence + 1 }, q.sequence)

def enqueueDelayed (now : UInt64) (sequence : Nat) (priority : Int64) (payload : List UInt8)
    (delayMs : UInt64) : PriorityQueue :=
  let key : QueueKey := ⟨priority, now + delayMs, sequence, ⟨now, sequence⟩⟩
  { q with tasks := insertTask ((Task.new key payload now).withMaxAttempts q.maxAttempts) q.tasks }

/-- The first section of the cleanup. -/
def expiredClaims (now : UInt64) : List TaskId :=
  ((pairs q.claims).filter fun entry => entry.2.isExpired now).map Prod.fst

def dropClaim (id : TaskId) : PriorityQueue :=
  { q with
    claims := q.claims.erase id
    tasks := modifyFirst (fun task => task.id = id && task.state = .claimed) Task.reset q.tasks }

/-- The second section of the cleanup, on the ids that the first one found. -/
def cleanupExpiredClaims (expired : List TaskId) : PriorityQueue := expired.foldl dropClaim q

def contended (worker : String) (now : UInt64) (task : Task) : Bool :=
  (get q.claims task.id).any fun claim => !claim.isExpired now && claim.owner != worker

def takeable (worker : String) (now : UInt64) (task : Task) : Bool :=
  task.isVisible now && !q.contended worker now task

def claimTask (worker : String) (now : UInt64) (claim : Claim) (task : Task) : Task :=
  { task with
    state := .claimed
    attempts := task.attempts + 1
    claimedAt := some now
    claimedBy := some worker
    leaseExpiresAt := some claim.expiresAt }

def claimFirst (worker : String) (timeoutMs now : UInt64) : PriorityQueue × DequeueResult :=
  match q.tasks.find? (q.takeable worker now) with
  | some task =>
    let claim := Claim.new worker timeoutMs now
    ({ q with
      tasks := modifyFirst (q.takeable worker now) (claimTask worker now claim) q.tasks
      claims := q.claims.insert task.id claim }, .success (claimTask worker now claim task))
  | none =>
    let count := q.tasks.countP fun task => task.isVisible now && q.contended worker now task
    (q, if count > 0 then .contention count else .empty)

def notFound (id : TaskId) : String := "Task not found: " ++ id.display

def remove (key : QueueKey) (id : TaskId) : PriorityQueue :=
  { q with tasks := q.tasks.filter (·.key ≠ key), claims := q.claims.erase id }

def ack (id : TaskId) : PriorityQueue × Except String Unit :=
  match q.tasks.find? (·.id = id) with
  | some task => (q.remove task.key id, .ok ())
  | none => (q, .error (notFound id))

def nack (now : UInt64) (id : TaskId) (newPriority : Option Int64) (delayMs : Option UInt64) :
    PriorityQueue × Except String Unit :=
  match q.tasks.find? (·.id = id) with
  | none => (q, .error (notFound id))
  | some task =>
    let removed := q.remove task.key id
    if task.shouldDeadLetter then
      (removed, .error ("Task dead-lettered after " ++ toString task.attempts ++ " attempts"))
    else
      let (numbered, sequence) := removed.nextSequence
      let key : QueueKey :=
        ⟨newPriority.getD task.key.priority, (delayMs.map (now + ·)).getD now, sequence, task.id⟩
      ({ numbered with tasks := insertTask { task.reset with key := key } numbered.tasks }, .ok ())

def extendVisibility (id : TaskId) (additionalMs : UInt64) : PriorityQueue × Except String Unit :=
  match get q.claims id with
  | none => (q, .error ("No active claim for task: " ++ id.display))
  | some claim =>
    let expiresAt := claim.expiresAt + additionalMs
    ({ q with
      claims := q.claims.insert id { claim with expiresAt := expiresAt }
      tasks := modifyFirst (·.id = id) (fun task => { task with leaseExpiresAt := some expiresAt }) q.tasks },
      .ok ())

end PriorityQueue

section Lists

variable {task t : Task}

variable {tasks : List Task}

theorem mem_insertTask (member : t ∈ insertTask task tasks) :
    t = task ∨ t ∈ tasks := by
  induction tasks with
  | nil => exact .inl (mem_singleton.mp member)
  | cons other rest ih =>
    unfold insertTask at member
    split at member
    · exact mem_cons.mp member
    · rcases mem_cons.mp member with same | later
      · exact .inl same
      · exact .inr (mem_cons_of_mem _ later)
    · rcases mem_cons.mp member with same | later
      · exact .inr (same ▸ mem_cons_self)
      · exact (ih later).imp_right (mem_cons_of_mem _)

theorem insertTask_split (fresh : ∀ t ∈ tasks, t.id ≠ task.id) :
    ∃ before after, tasks = before ++ after ∧ insertTask task tasks = before ++ task :: after := by
  induction tasks with
  | nil => exact ⟨[], [], rfl, rfl⟩
  | cons other rest ih =>
    obtain ⟨before, after, split, inserted⟩ := ih fun t member => fresh t (mem_cons_of_mem _ member)
    unfold insertTask
    split
    · exact ⟨[], other :: rest, rfl, rfl⟩
    · rename_i same
      exact absurd (congrArg QueueKey.taskId (QueueKey.eq_of_cmp same)).symm (fresh other mem_cons_self)
    · exact ⟨other :: before, after, by rw [split]; rfl, by rw [inserted]; rfl⟩

theorem insertTask_perm (fresh : ∀ t ∈ tasks, t.id ≠ task.id) :
    (insertTask task tasks).Perm (task :: tasks) := by
  obtain ⟨before, after, rfl, inserted⟩ := insertTask_split fresh
  rw [inserted]
  exact perm_middle

def DistinctIds (tasks : List Task) : Prop := tasks.Pairwise fun a b => a.id ≠ b.id

theorem DistinctIds.insertTask (distinct : DistinctIds tasks)
    (fresh : ∀ t ∈ tasks, t.id ≠ task.id) : DistinctIds (insertTask task tasks) := by
  have all : DistinctIds (task :: tasks) :=
    pairwise_cons.mpr ⟨fun t member => (fresh t member).symm, distinct⟩
  exact (insertTask_perm fresh).symm.pairwise all fun different => different.symm

theorem distinctIds_iff : DistinctIds tasks ↔ (tasks.map Task.id).Nodup :=
  pairwise_map.symm

variable {f : Task → Task} {tasks : List Task}

theorem map_id_modifyFirst (p : Task → Bool) (keepsId : ∀ task, (f task).id = task.id)
    (tasks : List Task) : (modifyFirst p f tasks).map Task.id = tasks.map Task.id := by
  induction tasks with
  | nil => rfl
  | cons task rest ih =>
    unfold modifyFirst
    split
    · rw [map_cons, map_cons, keepsId]
    · rw [map_cons, map_cons, ih]

theorem DistinctIds.eq_of_id (distinct : DistinctIds tasks) {a b : Task} (first : a ∈ tasks)
    (second : b ∈ tasks) (same : a.id = b.id) : a = b :=
  inj_on_of_nodup_map (distinctIds_iff.mp distinct) first second same

theorem exists_modifyFirst (p : Task → Bool) (keepsId : ∀ task, (f task).id = task.id) {id : TaskId}
    (present : ∃ task ∈ tasks, task.id = id) : ∃ task ∈ modifyFirst p f tasks, task.id = id := by
  have inside : id ∈ tasks.map Task.id := mem_map.mpr present
  rw [← map_id_modifyFirst p keepsId] at inside
  exact mem_map.mp inside

theorem DistinctIds.modifyFirst (distinct : DistinctIds tasks) (p : Task → Bool)
    (keepsId : ∀ task, (f task).id = task.id) : DistinctIds (modifyFirst p f tasks) := by
  rw [distinctIds_iff, map_id_modifyFirst p keepsId]
  exact distinctIds_iff.mp distinct

theorem modifyFirst_found {p : Task → Bool} (distinct : DistinctIds tasks)
    (found : tasks.find? p = some task) : modifyFirst p f tasks = modifyFirst (·.id = task.id) f tasks := by
  induction tasks with
  | nil => cases found
  | cons head rest ih =>
    obtain ⟨apart, distinctRest⟩ := pairwise_cons.mp distinct
    rw [List.find?_cons] at found
    unfold TaskQueue.modifyFirst
    split at found
    · rename_i chosen
      cases found
      simp [chosen]
    · rename_i passed
      have other := apart task (mem_of_find?_eq_some found)
      simp [passed, other, ih distinctRest found]

theorem modifyFirst_eq_map (distinct : DistinctIds tasks) (id : TaskId) (p : Task → Bool) :
    modifyFirst (fun task => task.id = id && p task) f tasks =
      tasks.map fun task => if task.id = id && p task then f task else task := by
  induction tasks with
  | nil => rfl
  | cons head rest ih =>
    obtain ⟨apart, distinctRest⟩ := pairwise_cons.mp distinct
    unfold TaskQueue.modifyFirst
    rw [map_cons]
    split
    · rename_i chosen
      obtain ⟨named, _⟩ := Bool.and_eq_true_iff.mp chosen
      rw [decide_eq_true_eq] at named
      have kept : rest.map (fun task => if task.id = id && p task then f task else task) = rest := by
        have same : ∀ task ∈ rest, (if task.id = id && p task then f task else task) = task := by
          intro task member
          have other : ¬task.id = id := fun sameId => apart task member (named.trans sameId.symm)
          simp [other]
        rw [map_congr_left same, map_id']
      rw [kept]
    · rw [ih distinctRest]

theorem mem_modifyFirst_id (distinct : DistinctIds tasks) {id : TaskId} {p : Task → Bool}
    (member : t ∈ modifyFirst (fun task => task.id = id && p task) f tasks) :
    (t ∈ tasks ∧ t.id ≠ id) ∨ ∃ task ∈ tasks, task.id = id ∧ t = if p task then f task else task := by
  rw [modifyFirst_eq_map distinct] at member
  obtain ⟨task, inside, rfl⟩ := mem_map.mp member
  by_cases named : task.id = id
  · exact .inr ⟨task, inside, named, by simp [named]⟩
  · exact .inl (by simpa [named] using inside)

end Lists

def Fits (task : Task) : Option Claim → Prop
  | some claim => task.state = .claimed ∧ task.leaseExpiresAt = some claim.expiresAt
  | none => task.state = .pending

structure Consistent (q : PriorityQueue) : Prop where
  distinct : DistinctIds q.tasks
  fits : ∀ task ∈ q.tasks, Fits task (get q.claims task.id)
  owned : ∀ id claim, get q.claims id = some claim → ∃ task ∈ q.tasks, task.id = id

namespace Consistent
variable {q : PriorityQueue}

theorem new (maxAttempts : UInt32) : Consistent (.new maxAttempts) where
  distinct := List.Pairwise.nil
  fits := fun task member => by cases member
  owned := fun id claim found => by cases found

section
variable (consistent : Consistent q)
include consistent

theorem unclaimed {id : TaskId} (absent : ∀ task ∈ q.tasks, task.id ≠ id) :
    get q.claims id = none := by
  cases found : get q.claims id with
  | none => rfl
  | some claim =>
    obtain ⟨task, member, named⟩ := consistent.owned id claim found
    exact absurd named (absent task member)

theorem insertTask {task : Task} (pending : task.state = .pending)
    (absent : ∀ t ∈ q.tasks, t.id ≠ task.id) (sequence : Nat) :
    Consistent { q with tasks := insertTask task q.tasks, sequence := sequence } where
  distinct := consistent.distinct.insertTask absent
  fits := by
    intro t member
    rcases mem_insertTask member with rfl | old
    · show Fits t (get q.claims t.id)
      rw [consistent.unclaimed absent]
      exact pending
    · exact consistent.fits t old
  owned := by
    intro id claim found
    obtain ⟨t, member, named⟩ := consistent.owned id claim found
    exact ⟨t, (insertTask_perm absent).mem_iff.mpr (mem_cons_of_mem _ member), named⟩

theorem dropClaim (id : TaskId) : Consistent (q.dropClaim id) where
  distinct := consistent.distinct.modifyFirst _ fun _ => rfl
  fits := by
    intro t member
    show Fits t (get (q.claims.erase id) t.id)
    rcases mem_modifyFirst_id consistent.distinct member with ⟨old, other⟩ | ⟨task, inside, named, rfl⟩
    · rw [get_erase, if_neg other]
      exact consistent.fits t old
    · have before := consistent.fits task inside
      have sameId : (if decide (task.state = .claimed) then task.reset else task).id = id := by
        split <;> exact named
      rw [sameId, get_erase, if_pos rfl]
      split
      · rfl
      · rename_i unclaimed
        cases held : get q.claims task.id with
        | none =>
          rw [held] at before
          exact before
        | some claim =>
          rw [held] at before
          exact absurd (decide_eq_true before.1) unclaimed
  owned := by
    intro other claim found
    have found : get (q.claims.erase id) other = some claim := found
    rw [get_erase] at found
    split at found
    · cases found
    · apply exists_modifyFirst _ _ (consistent.owned other claim found)
      intro task
      rfl

theorem cleanup (expired : List TaskId) :
    Consistent (q.cleanupExpiredClaims expired) := by
  induction expired generalizing q with
  | nil => exact consistent
  | cons id rest ih => exact ih (consistent.dropClaim id)

theorem setClaim {id : TaskId} (present : ∃ task ∈ q.tasks, task.id = id) (claim : Claim)
    {f : Task → Task} (keepsId : ∀ task, (f task).id = task.id)
    (claims : ∀ task ∈ q.tasks, task.id = id → Fits (f task) (some claim)) :
    Consistent { q with
      tasks := modifyFirst (fun task => task.id = id) f q.tasks, claims := q.claims.insert id claim } where
  distinct := consistent.distinct.modifyFirst _ keepsId
  fits := by
    intro t member
    have member : t ∈ modifyFirst (fun task => task.id = id && true) f q.tasks := by
      simpa only [Bool.and_true] using member
    rcases mem_modifyFirst_id consistent.distinct member with ⟨old, other⟩ | ⟨task, inside, named, rfl⟩
    · rw [get_insert, if_neg other]
      exact consistent.fits t old
    · rw [if_pos rfl, keepsId, named, get_insert, if_pos rfl]
      exact claims task inside named
  owned := by
    refine forall_insert (fun other held found => ?_) (exists_modifyFirst _ keepsId present)
    exact exists_modifyFirst _ keepsId (consistent.owned other held found)

theorem claimFirst (worker : String) (timeoutMs now : UInt64) :
    Consistent (q.claimFirst worker timeoutMs now).1 := by
  unfold PriorityQueue.claimFirst
  split
  · rename_i task found
    simp only [modifyFirst_found consistent.distinct found]
    exact consistent.setClaim ⟨task, mem_of_find?_eq_some found, rfl⟩ _ (fun _ => rfl)
      fun _ _ _ => ⟨rfl, rfl⟩
  · exact consistent

theorem extendVisibility (id : TaskId) (additionalMs : UInt64) :
    Consistent (q.extendVisibility id additionalMs).1 := by
  unfold PriorityQueue.extendVisibility
  split
  · exact consistent
  · rename_i claim held
    refine consistent.setClaim (consistent.owned id claim held) _ ?_ ?_
    · intro task
      rfl
    intro task member named
    have before := consistent.fits task member
    rw [named, held] at before
    exact ⟨before.1, rfl⟩

theorem mem_remove {task t : Task} (member : task ∈ q.tasks) :
    t ∈ (q.remove task.key task.id).tasks ↔ t ∈ q.tasks ∧ t.id ≠ task.id := by
  simp only [PriorityQueue.remove, mem_filter, decide_eq_true_eq]
  constructor
  · rintro ⟨inside, otherKey⟩
    refine ⟨inside, fun sameId => otherKey ?_⟩
    rw [consistent.distinct.eq_of_id inside member sameId]
  · rintro ⟨inside, other⟩
    exact ⟨inside, fun sameKey => other (congrArg QueueKey.taskId sameKey)⟩

theorem remove {task : Task} (member : task ∈ q.tasks) :
    Consistent (q.remove task.key task.id) where
  distinct := consistent.distinct.sublist filter_sublist
  fits := by
    intro t kept
    obtain ⟨old, other⟩ := (consistent.mem_remove member).mp kept
    show Fits t (get (q.claims.erase task.id) t.id)
    rw [get_erase, if_neg other]
    exact consistent.fits t old
  owned := by
    intro id claim found
    have found : get (q.claims.erase task.id) id = some claim := found
    rw [get_erase] at found
    split at found
    · cases found
    · rename_i other
      obtain ⟨t, inside, named⟩ := consistent.owned id claim found
      exact ⟨t, (consistent.mem_remove member).mpr ⟨inside, named ▸ other⟩, named⟩

end

theorem found_id {id : TaskId} {task : Task} (found : q.tasks.find? (·.id = id) = some task) :
    task ∈ q.tasks ∧ task.id = id :=
  ⟨mem_of_find?_eq_some found, by simpa using List.find?_some found⟩

theorem ack (consistent : Consistent q) (id : TaskId) : Consistent (q.ack id).1 := by
  unfold PriorityQueue.ack
  split
  · rename_i found
    obtain ⟨member, rfl⟩ := found_id found
    exact consistent.remove member
  · exact consistent

theorem nack (consistent : Consistent q) (now : UInt64) (id : TaskId) (newPriority : Option Int64)
    (delayMs : Option UInt64) : Consistent (q.nack now id newPriority delayMs).1 := by
  unfold PriorityQueue.nack
  split
  · exact consistent
  · rename_i found
    obtain ⟨member, rfl⟩ := found_id found
    split
    · exact consistent.remove member
    · apply (consistent.remove member).insertTask
      · rfl
      · intro t kept
        exact ((consistent.mem_remove member).mp kept).2

end Consistent

structure NoNewIds (before after : PriorityQueue) : Prop where
  ids : ∀ task ∈ after.tasks, ∃ old ∈ before.tasks, old.id = task.id
  sequence : before.sequence ≤ after.sequence

namespace NoNewIds
variable (q : PriorityQueue)

theorem refl : NoNewIds q q := ⟨fun task member => ⟨task, member, rfl⟩, le_rfl⟩

theorem modified (p : Task → Bool) {f : Task → Task} (keepsId : ∀ task, (f task).id = task.id)
    (claims : Map TaskId Claim) :
    NoNewIds q { q with tasks := modifyFirst p f q.tasks, claims := claims } where
  ids := by
    intro task member
    have inside : task.id ∈ (modifyFirst p f q.tasks).map Task.id := mem_map_of_mem member
    rw [map_id_modifyFirst p keepsId] at inside
    exact mem_map.mp inside
  sequence := le_rfl

theorem cleanup (expired : List TaskId) : NoNewIds q (q.cleanupExpiredClaims expired) := by
  induction expired generalizing q with
  | nil => exact refl q
  | cons id rest ih =>
    have first : NoNewIds q (q.dropClaim id) := by
      apply modified
      intro task
      rfl
    have later := ih (q.dropClaim id)
    refine ⟨fun task member => ?_, first.sequence.trans later.sequence⟩
    obtain ⟨middle, inside, named⟩ := later.ids task member
    obtain ⟨old, before, same⟩ := first.ids middle inside
    exact ⟨old, before, same.trans named⟩

theorem claimFirst (worker : String) (timeoutMs now : UInt64) :
    NoNewIds q (q.claimFirst worker timeoutMs now).1 := by
  unfold PriorityQueue.claimFirst
  split
  · apply modified
    intro task
    rfl
  · exact refl q

theorem extendVisibility (id : TaskId) (additionalMs : UInt64) :
    NoNewIds q (q.extendVisibility id additionalMs).1 := by
  unfold PriorityQueue.extendVisibility
  split
  · exact refl q
  · apply modified
    intro task
    rfl

theorem remove (key : QueueKey) (id : TaskId) : NoNewIds q (q.remove key id) :=
  ⟨fun task member => ⟨task, (mem_filter.mp member).1, rfl⟩, le_rfl⟩

theorem ack (id : TaskId) : NoNewIds q (q.ack id).1 := by
  unfold PriorityQueue.ack
  split
  · exact remove ..
  · exact refl q

theorem nack (now : UInt64) (id : TaskId) (newPriority : Option Int64) (delayMs : Option UInt64) :
    NoNewIds q (q.nack now id newPriority delayMs).1 := by
  unfold PriorityQueue.nack
  split
  · exact refl q
  · rename_i task found
    split
    · exact remove ..
    · refine ⟨fun t member => ?_, Nat.le_succ _⟩
      rcases mem_insertTask member with rfl | old
      · exact ⟨task, mem_of_find?_eq_some found, rfl⟩
      · exact (remove q task.key id).ids t old

end NoNewIds

section Claims
variable (q : PriorityQueue)

theorem claims_cleanup (expired : List TaskId) (id : TaskId) :
    get (q.cleanupExpiredClaims expired).claims id = if id ∈ expired then none else get q.claims id := by
  induction expired generalizing q with
  | nil => rfl
  | cons first rest ih =>
    have step := ih (q.dropClaim first)
    have dropped : get (q.dropClaim first).claims id = if id = first then none else get q.claims id :=
      get_erase ..
    rw [dropped] at step
    refine step.trans ?_
    by_cases same : id = first <;> by_cases later : id ∈ rest <;> simp [same, later]

theorem claims_ack (id : TaskId) {other : TaskId} (differs : other ≠ id) :
    get (q.ack id).1.claims other = get q.claims other := by
  unfold PriorityQueue.ack
  split
  · exact (get_erase ..).trans (if_neg differs)
  · rfl

theorem claims_nack (now : UInt64) (id : TaskId) (newPriority : Option Int64) (delayMs : Option UInt64)
    {other : TaskId} (differs : other ≠ id) :
    get (q.nack now id newPriority delayMs).1.claims other = get q.claims other := by
  unfold PriorityQueue.nack
  split
  · rfl
  · split
    · exact (get_erase ..).trans (if_neg differs)
    · exact (get_erase ..).trans (if_neg differs)

theorem claimFirst_success {worker : String} {timeoutMs now : UInt64} {task : Task}
    (delivered : (q.claimFirst worker timeoutMs now).2 = .success task) :
    ∃ old ∈ q.tasks, old.id = task.id ∧ old.isVisible now = true ∧
      (q.claimFirst worker timeoutMs now).1.claims =
        q.claims.insert task.id ⟨worker, now, now + timeoutMs⟩ := by
  unfold PriorityQueue.claimFirst at delivered ⊢
  split at delivered
  · rename_i old found
    cases delivered
    have met := List.find?_some found
    refine ⟨old, mem_of_find?_eq_some found, rfl, (Bool.and_eq_true_iff.mp met).1, ?_⟩
    rfl
  · simp only at delivered
    split at delivered <;> cases delivered

theorem claimFirst_failure {worker : String} {timeoutMs now : UInt64}
    (failed : ∀ task, (q.claimFirst worker timeoutMs now).2 ≠ .success task) :
    (q.claimFirst worker timeoutMs now).1.claims = q.claims := by
  unfold PriorityQueue.claimFirst at failed ⊢
  split
  · rename_i found
    simp only [found] at failed
    exact absurd rfl (failed _)
  · rfl

end Claims
end TaskQueue
