import SochDB.Library.Runs
import SochDB.TaskQueue

/-!
Calls on the priority queue in any interleaving. A call is started with one reading of the
clock and then resumed section by section; a task's leases are followed from its deliveries
on, so that a later delivery can be compared with them.
-/
namespace QueueLeases
open KeyedMaps Runs TaskQueue

inductive Request where
  | enqueueDelayed (priority : Int64) (payload : List UInt8) (delayMs : UInt64)
  | dequeueWithTimeout (worker : String) (timeoutMs : UInt64)
  | cleanupExpiredClaims
  | nack (id : TaskId) (newPriority : Option Int64) (delayMs : Option UInt64)

/-- A call that has read the clock, and the section that it runs next. -/
inductive Call where
  | numbering (now : UInt64) (priority : Int64) (payload : List UInt8) (delayMs : UInt64)
  | inserting (now : UInt64) (sequence : Nat) (priority : Int64) (payload : List UInt8) (delayMs : UInt64)
  | collecting (now : UInt64) (order : Option (String × UInt64))
  | resetting (now : UInt64) (expired : List TaskId) (order : Option (String × UInt64))
  | claiming (now : UInt64) (worker : String) (timeoutMs : UInt64)
  | nacking (now : UInt64) (id : TaskId) (newPriority : Option Int64) (delayMs : Option UInt64)

def Request.first (now : UInt64) : Request → Call
  | .enqueueDelayed priority payload delayMs => .numbering now priority payload delayMs
  | .dequeueWithTimeout worker timeoutMs => .collecting now (some (worker, timeoutMs))
  | .cleanupExpiredClaims => .collecting now none
  | .nack id newPriority delayMs => .nacking now id newPriority delayMs

def advance (q : PriorityQueue) : Call → PriorityQueue × Option Call
  | .numbering now priority payload delayMs =>
    (q.nextSequence.1, some (.inserting now q.nextSequence.2 priority payload delayMs))
  | .inserting now sequence priority payload delayMs =>
    (q.enqueueDelayed now sequence priority payload delayMs, none)
  | .collecting now order => (q, some (.resetting now (q.expiredClaims now) order))
  | .resetting now expired order =>
    (q.cleanupExpiredClaims expired, order.map fun o => .claiming now o.1 o.2)
  | .claiming now worker timeoutMs => ((q.claimFirst worker timeoutMs now).1, none)
  | .nacking now id newPriority delayMs => ((q.nack now id newPriority delayMs).1, none)

structure System where
  queue : PriorityQueue
  clock : UInt64
  calls : Map Nat Call

inductive Step where
  | start (call : Nat) (now : UInt64) (request : Request)
  | resume (call : Nat)
  | ack (id : TaskId)
  | extendVisibility (id : TaskId) (additionalMs : UInt64)

namespace System

def new (maxAttempts : UInt32) : System := ⟨.new maxAttempts, 0, ∅⟩

def setCall (s : System) (call : Nat) : Option Call → Map Nat Call
  | some next => s.calls.insert call next
  | none => s.calls.erase call

/-- The clock never goes back, and a call has a name of its own. -/
def step (s : System) : Step → System
  | .start call now request =>
    if s.clock ≤ now ∧ get s.calls call = none then
      { s with clock := now, calls := s.calls.insert call (request.first now) }
    else s
  | .resume call =>
    match get s.calls call with
    | none => s
    | some current =>
      { s with
        queue := (advance s.queue current).1
        calls := s.setCall call (advance s.queue current).2 }
  | .ack id => { s with queue := (s.queue.ack id).1 }
  | .extendVisibility id additionalMs => { s with queue := (s.queue.extendVisibility id additionalMs).1 }

def running (s : System) : Step → Option Call
  | .resume call => get s.calls call
  | _ => none

def delivery (s : System) (step : Step) : Option (Task × String × UInt64) :=
  match s.running step with
  | some (.claiming now worker timeoutMs) =>
    match (s.queue.claimFirst worker timeoutMs now).2 with
    | .success task => some (task, worker, now)
    | _ => none
  | _ => none

end System

/-- A delivered lease: where it ends now, and the reading of the section that took it away,
    if one has. -/
structure Lease where
  task : TaskId
  worker : String
  ends : UInt64
  dropped : Option UInt64

def drop (ids : List TaskId) (now : UInt64) (leases : List Lease) : List Lease :=
  leases.map fun lease => if lease.task ∈ ids then { lease with dropped := lease.dropped.or (some now) } else lease

def forget (id : TaskId) (leases : List Lease) : List Lease := leases.filter (·.task ≠ id)

def move (id : TaskId) (ends : UInt64) (leases : List Lease) : List Lease :=
  leases.map fun lease => if lease.task = id ∧ lease.dropped = none then { lease with ends := ends } else lease

structure Watched where
  system : System
  leases : List Lease

namespace Watched

def new (maxAttempts : UInt32) : Watched := ⟨.new maxAttempts, []⟩

/-- An ack or nack that is called for a task ends the story of its leases. -/
def follow (w : Watched) (step : Step) : List Lease :=
  match step with
  | .start _ _ (.nack id _ _) => forget id w.leases
  | .start .. => w.leases
  | .ack id => forget id w.leases
  | .extendVisibility id additionalMs =>
    match get w.system.queue.claims id with
    | some claim => move id (claim.expiresAt + additionalMs) w.leases
    | none => w.leases
  | .resume call =>
    match get w.system.calls call with
    | some (.resetting now expired _) => drop expired now w.leases
    | some (.nacking _ id _ _) => forget id w.leases
    | some (.claiming now worker timeoutMs) =>
      match (w.system.queue.claimFirst worker timeoutMs now).2 with
      | .success task => drop [task.id] now w.leases ++ [⟨task.id, worker, now + timeoutMs, none⟩]
      | _ => w.leases
    | _ => w.leases

def step (w : Watched) (step : Step) : Watched := ⟨w.system.step step, w.follow step⟩

/-- A delivery comes at a reading of the clock at which every other worker's lease of the
    task has ended. -/
def Exclusive (w : Watched) (step : Step) : Prop :=
  ∀ task worker now, w.system.delivery step = some (task, worker, now) →
    ∀ lease ∈ w.leases, lease.task = task.id → lease.worker ≠ worker → lease.ends ≤ now

/-- A claim that is dropped as expired has not been renewed since it was collected, and a
    call does not take a task from which a call with a later reading has taken a lease. -/
def Calm (w : Watched) : Option Call → Prop
  | some (.resetting now expired _) =>
    ∀ id ∈ expired, (get w.system.queue.claims id).all fun claim => claim.isExpired now
  | some (.claiming now _ _) =>
    ∀ task ∈ w.system.queue.tasks, task.isVisible now = true →
      ∀ lease ∈ w.leases, lease.task = task.id → lease.dropped.all fun reading => reading ≤ now
  | _ => True

def Undisturbed (w : Watched) (step : Step) : Prop := w.Calm (w.system.running step)

instance (w : Watched) : (call : Option Call) → Decidable (w.Calm call)
  | some (.resetting _ expired _) => inferInstanceAs (Decidable (∀ id ∈ expired, _))
  | some (.claiming ..) => inferInstanceAs (Decidable (∀ task ∈ w.system.queue.tasks, _))
  | none | some (.numbering ..) | some (.inserting ..) | some (.collecting ..) | some (.nacking ..) =>
    inferInstanceAs (Decidable True)

instance (w : Watched) (step : Step) : Decidable (w.Undisturbed step) :=
  inferInstanceAs (Decidable (w.Calm (w.system.running step)))

end Watched

section Numbers

def Call.number : Call → Option Nat
  | .inserting _ sequence _ _ _ => some sequence
  | _ => none

structure Numbered (s : System) : Prop where
  issued : ∀ task ∈ s.queue.tasks, task.id.sequence < s.queue.sequence
  unused : ∀ name call n, get s.calls name = some call → call.number = some n →
    n < s.queue.sequence ∧ ∀ task ∈ s.queue.tasks, task.id.sequence ≠ n
  apart : ∀ first second a b n, get s.calls first = some a → get s.calls second = some b →
    a.number = some n → b.number = some n → first = second

theorem Numbered.new (maxAttempts : UInt32) : Numbered (.new maxAttempts) where
  issued := fun task member => by cases member
  unused := fun name call n found => by cases found
  apart := fun first second a b n found => by cases found

theorem Numbered.shrink {s t : System} (numbered : Numbered s) (ids : NoNewIds s.queue t.queue)
    (calls : ∀ name call n, get t.calls name = some call → call.number = some n →
      get s.calls name = some call) : Numbered t where
  issued := by
    intro task member
    obtain ⟨old, inside, same⟩ := ids.ids task member
    rw [← same]
    exact (numbered.issued old inside).trans_le ids.sequence
  unused := by
    intro name call n found isNumber
    obtain ⟨below, fresh⟩ := numbered.unused name call n (calls name call n found isNumber) isNumber
    refine ⟨below.trans_le ids.sequence, fun task member => ?_⟩
    obtain ⟨old, inside, same⟩ := ids.ids task member
    rw [← same]
    exact fresh old inside
  apart := by
    intro first second a b n atFirst atSecond isFirst isSecond
    exact numbered.apart first second a b n (calls _ _ _ atFirst isFirst) (calls _ _ _ atSecond isSecond)
      isFirst isSecond

theorem get_setCall (s : System) (name : Nat) (next : Option Call) (other : Nat) :
    get (s.setCall name next) other = if other = name then next else get s.calls other := by
  cases next with
  | none => exact get_erase ..
  | some call => exact get_insert ..

theorem Numbered.take_number {s : System} (numbered : Numbered s) (name : Nat) (now : UInt64)
    (priority : Int64) (payload : List UInt8) (delayMs : UInt64) :
    Numbered { s with
      queue := s.queue.nextSequence.1
      calls := s.setCall name (some (.inserting now s.queue.nextSequence.2 priority payload delayMs)) } where
  issued := fun task member => Nat.lt_succ_of_lt (numbered.issued task member)
  unused := by
    intro other call n found isNumber
    rw [get_setCall] at found
    split at found
    · cases found
      cases isNumber
      exact ⟨Nat.lt_succ_self _, fun task member => (numbered.issued task member).ne⟩
    · obtain ⟨below, fresh⟩ := numbered.unused other call n found isNumber
      exact ⟨Nat.lt_succ_of_lt below, fresh⟩
  apart := by
    intro first second a b n atFirst atSecond isFirst isSecond
    -- the counter itself is the number of no other call
    have above : ∀ other call, get s.calls other = some call → call.number ≠ some s.queue.sequence :=
      fun other call found isNumber => (numbered.unused other call _ found isNumber).1.ne rfl
    rw [get_setCall] at atFirst atSecond
    split at atFirst
    · rename_i here
      cases atFirst
      cases isFirst
      split at atSecond
      · rename_i there
        exact here.trans there.symm
      · exact absurd isSecond (above second b atSecond)
    · split at atSecond
      · cases atSecond
        cases isSecond
        exact absurd isFirst (above first a atFirst)
      · exact numbered.apart first second a b n atFirst atSecond isFirst isSecond

theorem Numbered.insert {s : System} (numbered : Numbered s) {name : Nat} {now : UInt64} {sequence : Nat}
    {priority : Int64} {payload : List UInt8} {delayMs : UInt64}
    (current : get s.calls name = some (.inserting now sequence priority payload delayMs)) :
    Numbered { s with
      queue := s.queue.enqueueDelayed now sequence priority payload delayMs
      calls := s.setCall name none } where
  issued := by
    intro task member
    rcases mem_insertTask member with rfl | old
    · exact (numbered.unused name _ sequence current rfl).1
    · exact numbered.issued task old
  unused := by
    intro other call n found isNumber
    rw [get_setCall] at found
    split at found
    · cases found
    · rename_i differs
      obtain ⟨below, fresh⟩ := numbered.unused other call n found isNumber
      refine ⟨below, fun task member => ?_⟩
      rcases mem_insertTask member with rfl | old
      · intro same
        have same : sequence = n := same
        subst same
        exact differs (numbered.apart other name call _ _ found current isNumber rfl)
      · exact fresh task old
  apart := by
    intro first second a b n atFirst atSecond isFirst isSecond
    rw [get_setCall] at atFirst atSecond
    split at atFirst
    · cases atFirst
    · split at atSecond
      · cases atSecond
      · exact numbered.apart first second a b n atFirst atSecond isFirst isSecond

end Numbers

section Orderly

structure Orderly (s : System) : Prop where
  consistent : Consistent s.queue
  numbered : Numbered s

theorem Orderly.new (maxAttempts : UInt32) : Orderly (.new maxAttempts) :=
  ⟨.new maxAttempts, .new maxAttempts⟩

theorem setCall_unnumbered (s : System) (name : Nat) {next : Option Call}
    (unnumbered : ∀ call, next = some call → call.number = none) :
    ∀ other call n, get (s.setCall name next) other = some call → call.number = some n →
      get s.calls other = some call := by
  intro other call n found isNumber
  rw [get_setCall] at found
  split at found
  · rw [unnumbered call found] at isNumber
    cases isNumber
  · exact found

theorem Orderly.resume {s : System} (orderly : Orderly s) {name : Nat} {call : Call}
    (current : get s.calls name = some call) :
    Orderly { s with
      queue := (advance s.queue call).1, calls := s.setCall name (advance s.queue call).2 } := by
  obtain ⟨consistent, numbered⟩ := orderly
  cases call with
  | numbering now priority payload delayMs =>
    exact ⟨⟨consistent.distinct, consistent.fits, consistent.owned⟩,
      numbered.take_number name now priority payload delayMs⟩
  | inserting now sequence priority payload delayMs =>
    refine ⟨consistent.insertTask rfl ?_ _, numbered.insert current⟩
    intro task member sameId
    have sameNumber : task.id.sequence = sequence := congrArg TaskId.sequence sameId
    exact (numbered.unused name _ sequence current rfl).2 task member sameNumber
  | collecting now order =>
    refine ⟨consistent, numbered.shrink (.refl _) (setCall_unnumbered s name ?_)⟩
    rintro call ⟨⟩
    rfl
  | resetting now expired order =>
    refine ⟨consistent.cleanup expired, numbered.shrink (.cleanup _ expired) (setCall_unnumbered s name ?_)⟩
    intro call isNext
    obtain ⟨o, _, rfl⟩ := Option.map_eq_some_iff.mp isNext
    rfl
  | claiming now worker timeoutMs =>
    refine ⟨consistent.claimFirst worker timeoutMs now,
      numbered.shrink (.claimFirst _ worker timeoutMs now) (setCall_unnumbered s name ?_)⟩
    rintro call ⟨⟩
  | nacking now id newPriority delayMs =>
    refine ⟨consistent.nack now id newPriority delayMs,
      numbered.shrink (.nack _ now id newPriority delayMs) (setCall_unnumbered s name ?_)⟩
    rintro call ⟨⟩

theorem Orderly.step {s : System} (orderly : Orderly s) (step : Step) : Orderly (s.step step) := by
  cases step with
  | start name now request =>
    unfold System.step
    dsimp only
    split
    · refine ⟨orderly.consistent, orderly.numbered.shrink (.refl _)
        (@setCall_unnumbered s name (some (request.first now)) ?_)⟩
      rintro call ⟨⟩
      cases request <;> rfl
    · exact orderly
  | resume name =>
    unfold System.step
    dsimp only
    split
    · exact orderly
    · rename_i current
      exact orderly.resume current
  | ack id =>
    exact ⟨orderly.consistent.ack id, orderly.numbered.shrink (.ack _ id) fun _ _ _ found _ => found⟩
  | extendVisibility id additionalMs =>
    exact ⟨orderly.consistent.extendVisibility id additionalMs,
      orderly.numbered.shrink (.extendVisibility _ id additionalMs) fun _ _ _ found _ => found⟩

end Orderly

section Leases

def Standing (claims : Map TaskId Claim) (lease : Lease) : Prop :=
  match lease.dropped with
  | none => ∃ claim, get claims lease.task = some claim ∧ claim.expiresAt = lease.ends
  | some reading => lease.ends ≤ reading

variable {claims changed : Map TaskId Claim} {leases : List Lease}

theorem Standing.congr {lease : Lease} (standing : Standing claims lease)
    (same : get changed lease.task = get claims lease.task) : Standing changed lease := by
  unfold Standing at standing ⊢
  rw [same]
  exact standing

variable (standing : ∀ lease ∈ leases, Standing claims lease)
include standing

theorem standing_drop (ids : List TaskId) (now : UInt64)
    (same : ∀ id, id ∉ ids → get changed id = get claims id)
    (ended : ∀ lease ∈ leases, lease.task ∈ ids → lease.dropped = none → lease.ends ≤ now) :
    ∀ lease ∈ drop ids now leases, Standing changed lease := by
  intro lease member
  obtain ⟨old, inside, rfl⟩ := List.mem_map.mp member
  have before := standing old inside
  split
  · rename_i named
    unfold Standing at before ⊢
    cases gone : old.dropped with
    | none => exact ended old inside named gone
    | some reading =>
      rw [gone] at before
      exact before
  · rename_i unnamed
    exact before.congr (same _ unnamed)

theorem standing_forget (id : TaskId)
    (same : ∀ other, other ≠ id → get changed other = get claims other) :
    ∀ lease ∈ forget id leases, Standing changed lease := by
  intro lease member
  obtain ⟨inside, other⟩ := List.mem_filter.mp member
  exact (standing lease inside).congr (same _ (by simpa using other))

theorem standing_move (id : TaskId) {claim : Claim} (now : get changed id = some claim)
    (same : ∀ other, other ≠ id → get changed other = get claims other) :
    ∀ lease ∈ move id claim.expiresAt leases, Standing changed lease := by
  intro lease member
  obtain ⟨old, inside, rfl⟩ := List.mem_map.mp member
  have before := standing old inside
  split
  · rename_i moved
    simp only [moved.2]
    exact ⟨claim, by rw [moved.1]; exact now, rfl⟩
  · rename_i unmoved
    by_cases named : old.task = id
    · unfold Standing at before ⊢
      cases gone : old.dropped with
      | none => exact absurd ⟨named, gone⟩ unmoved
      | some reading =>
        rw [gone] at before
        exact before
    · exact before.congr (same _ named)

end Leases

section Exclusion

structure Sound (w : Watched) : Prop where
  orderly : Orderly w.system
  standing : ∀ lease ∈ w.leases, Standing w.system.queue.claims lease

theorem Sound.new (maxAttempts : UInt32) : Sound (.new maxAttempts) :=
  ⟨.new maxAttempts, fun lease member => by cases member⟩

variable {w : Watched} {task : Task} {now : UInt64}

theorem ended_of_visible (sound : Sound w) (member : task ∈ w.system.queue.tasks)
    (visible : task.isVisible now = true) {lease : Lease} (held : lease ∈ w.leases)
    (named : lease.task = task.id) (kept : lease.dropped = none) :
    lease.ends ≤ now := by
  have standing := sound.standing lease held
  have fits := sound.orderly.consistent.fits task member
  unfold Standing at standing
  rw [kept] at standing
  obtain ⟨claim, found, ends⟩ := standing
  rw [← named, found] at fits
  unfold Task.isVisible at visible
  rw [fits.1, fits.2] at visible
  rw [← ends]
  simpa using visible

theorem delivery_inv {s : System} {step : Step} {worker : String}
    (delivered : s.delivery step = some (task, worker, now)) :
    ∃ timeoutMs, s.running step = some (.claiming now worker timeoutMs) ∧
      (s.queue.claimFirst worker timeoutMs now).2 = .success task := by
  unfold System.delivery at delivered
  split at delivered
  · rename_i timeoutMs isRunning
    split at delivered
    · rename_i result
      cases delivered
      exact ⟨timeoutMs, isRunning, result⟩
    · cases delivered
  · cases delivered

theorem exclusive_of_undisturbed (sound : Sound w) {step : Step} (undisturbed : w.Undisturbed step) :
    w.Exclusive step := by
  intro task worker now delivered lease held named _
  obtain ⟨timeoutMs, isRunning, result⟩ := delivery_inv delivered
  obtain ⟨old, member, sameId, visible, _⟩ := claimFirst_success _ result
  have named : lease.task = old.id := named.trans sameId.symm
  unfold Watched.Undisturbed at undisturbed
  rw [isRunning] at undisturbed
  cases gone : lease.dropped with
  | none => exact ended_of_visible sound member visible held named gone
  | some reading =>
    have standing := sound.standing lease held
    unfold Standing at standing
    rw [gone] at standing
    have earlier := undisturbed old member visible lease held named
    rw [gone] at earlier
    exact UInt64.le_trans standing (by simpa using earlier)

theorem standing_of_claiming (sound : Sound w) {timeoutMs : UInt64} {worker : String}
    (result : (w.system.queue.claimFirst worker timeoutMs now).2 = .success task) :
    ∀ lease ∈ drop [task.id] now w.leases ++ [⟨task.id, worker, now + timeoutMs, none⟩],
      Standing (w.system.queue.claimFirst worker timeoutMs now).1.claims lease := by
  obtain ⟨old, member, sameId, visible, claims⟩ := claimFirst_success _ result
  rw [claims]
  intro lease inside
  rcases List.mem_append.mp inside with earlier | last
  · refine standing_drop sound.standing [task.id] now ?_ ?_ lease earlier
    · intro id other
      rw [get_insert, if_neg (by simpa using other)]
    · intro lease held named kept
      have named : lease.task = old.id := (List.mem_singleton.mp named).trans sameId.symm
      exact ended_of_visible sound member visible held named kept
  · rw [List.mem_singleton.mp last]
    exact ⟨_, (get_insert ..).trans (if_pos rfl), rfl⟩

theorem standing_of_resume (sound : Sound w) {name : Nat} {call : Call}
    (current : get w.system.calls name = some call) (undisturbed : w.Undisturbed (.resume name)) :
    ∀ lease ∈ w.follow (.resume name), Standing (advance w.system.queue call).1.claims lease := by
  unfold Watched.Undisturbed System.running at undisturbed
  unfold Watched.follow
  simp only [current] at undisturbed ⊢
  cases call with
  | numbering | inserting | collecting => exact sound.standing
  | resetting now expired order =>
    refine standing_drop sound.standing expired now ?_ ?_
    · intro id other
      exact (claims_cleanup _ expired id).trans (if_neg other)
    · intro lease held named kept
      have standing := sound.standing lease held
      unfold Standing at standing
      rw [kept] at standing
      obtain ⟨claim, found, ends⟩ := standing
      have expired := undisturbed lease.task named
      rw [found] at expired
      rw [← ends]
      simpa [Claim.isExpired] using expired
  | claiming now worker timeoutMs =>
    dsimp only
    split
    · rename_i result
      exact standing_of_claiming sound result
    · rename_i failed
      have unchanged := claimFirst_failure w.system.queue failed
      intro lease held
      exact (sound.standing lease held).congr (congrArg (get · lease.task) unchanged)
  | nacking now id newPriority delayMs =>
    refine standing_forget sound.standing id ?_
    intro other differs
    exact claims_nack _ now id newPriority delayMs differs

theorem Sound.step (sound : Sound w) {step : Step} (undisturbed : w.Undisturbed step) :
    Sound (w.step step) := by
  refine ⟨sound.orderly.step step, ?_⟩
  show ∀ lease ∈ w.follow step, Standing (w.system.step step).queue.claims lease
  cases step with
  | start name now request =>
    have queue : (w.system.step (.start name now request)).queue = w.system.queue := by
      unfold System.step
      dsimp only
      split <;> rfl
    rw [queue]
    cases request with
    | nack id newPriority delayMs => exact standing_forget sound.standing id fun _ _ => rfl
    | _ => exact sound.standing
  | resume name =>
    cases current : get w.system.calls name with
    | none =>
      unfold Watched.follow System.step
      simp only [current]
      exact sound.standing
    | some call =>
      have resumed := standing_of_resume sound current undisturbed
      unfold System.step
      simp only [current]
      exact resumed
  | ack id => exact standing_forget sound.standing id fun other differs => claims_ack _ id differs
  | extendVisibility id additionalMs =>
    unfold Watched.follow System.step PriorityQueue.extendVisibility
    dsimp only
    cases held : get w.system.queue.claims id with
    | none => exact sound.standing
    | some claim =>
      let extended : Claim := { claim with expiresAt := claim.expiresAt + additionalMs }
      have moved : ∀ lease ∈ move id extended.expiresAt w.leases,
          Standing (w.system.queue.claims.insert id extended) lease := by
        apply standing_move sound.standing id
        · exact (get_insert ..).trans (if_pos rfl)
        · intro other differs
          exact (get_insert ..).trans (if_neg differs)
      exact moved

/-- In every interleaving in which expired claims are not renewed between the two sections
    of a cleanup, and no call takes a task after a call with a later reading has taken a lease
    from it, every delivery comes after the end of all leases that other workers hold. -/
theorem leases_are_exclusive (maxAttempts : UInt32) (steps : List Step)
    (undisturbed : Guarded Watched.step Watched.Undisturbed (.new maxAttempts) steps) :
    Guarded Watched.step Watched.Exclusive (.new maxAttempts) steps :=
  undisturbed.entails (fun _ _ sound calm => exclusive_of_undisturbed sound calm)
    (fun _ _ sound calm => sound.step calm) (Sound.new maxAttempts)

end Exclusion

section Runs

def firstLease : List Step :=
  [.start 0 0 (.enqueueDelayed 0 [] 0), .resume 0, .resume 0,
    .start 1 0 (.dequeueWithTimeout "a" 10), .resume 1, .resume 1, .resume 1]

/-- `b` reads the clock at time 10 and finds the claim expired; before it goes on, the lease
    is extended by a hundred milliseconds. -/
def cancelledExtension : List Step :=
  firstLease ++ [.start 2 10 (.dequeueWithTimeout "b" 10), .resume 2,
    .extendVisibility ⟨0, 0⟩ 100, .resume 2]

theorem extension_is_cancelled :
    let w := run Watched.step (.new 3) cancelledExtension
    (∃ lease ∈ w.leases, lease.task = ⟨0, 0⟩ ∧ lease.worker = "a" ∧ lease.ends = 110) ∧
    (w.system.delivery (.resume 2)).map (fun d => (d.1.id, d.2)) = some (⟨0, 0⟩, "b", 10) ∧
    ¬w.Exclusive (.resume 2) := by
  intro w
  have extended : ∃ lease ∈ w.leases, lease.task = ⟨0, 0⟩ ∧ lease.worker = "a" ∧ lease.ends = 110 := by
    decide +kernel
  have delivered : (w.system.delivery (.resume 2)).map (fun d => (d.1.id, d.2)) =
      some (⟨0, 0⟩, "b", 10) := by
    decide +kernel
  refine ⟨extended, delivered, fun exclusive => ?_⟩
  obtain ⟨⟨task, worker, now⟩, isDelivery, what⟩ := Option.map_eq_some_iff.mp delivered
  obtain ⟨named, rfl, rfl⟩ : task.id = ⟨0, 0⟩ ∧ worker = "b" ∧ now = 10 := by simpa using what
  obtain ⟨lease, held, ofTask, ofWorker, ends⟩ := extended
  have ended := exclusive task "b" 10 isDelivery lease held (ofTask.trans named.symm)
    (by rw [ofWorker]; decide)
  rw [ends] at ended
  exact absurd ended (by decide)

def takeover : List Step :=
  firstLease ++ [.start 2 10 (.dequeueWithTimeout "b" 10), .resume 2, .resume 2, .resume 2]

theorem takeover_is_exclusive :
    Guarded Watched.step Watched.Undisturbed (.new 3) takeover ∧
    ((run Watched.step (.new 3) takeover).leases.map fun lease => (lease.worker, lease.ends)) =
      [("a", 10), ("b", 20)] ∧
    Guarded Watched.step Watched.Exclusive (.new 3) takeover :=
  ⟨by decide +kernel, by decide +kernel, leases_are_exclusive 3 takeover (by decide +kernel)⟩

end Runs
end QueueLeases
