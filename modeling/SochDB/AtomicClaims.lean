import SochDB.Library.KeyedMaps
import SochDB.Library.Runs

/-!
The claim manager of the queues: claims with leases, and the number of a claim as a fencing
token. A call reads the clock before it takes its lock; what it does under the lock is one
step.
-/
namespace AtomicClaims
open KeyedMaps Runs List

structure ClaimToken where
  queueId : String
  taskId : String
  owner : String
  instanceId : Nat
  createdAt : UInt64
  expiresAt : UInt64
  deriving DecidableEq

inductive ClaimResult where
  | success (token : ClaimToken)
  | alreadyClaimed (owner : String) (expiresAt : UInt64)
  | tookOver (previousOwner : String) (token : ClaimToken)
  deriving DecidableEq

structure ClaimEntry where
  owner : String
  instanceId : Nat
  claimedAt : UInt64
  expiresAt : UInt64
  claimCount : UInt32
  deriving DecidableEq

def ClaimEntry.isExpired (e : ClaimEntry) (now : UInt64) : Bool := e.expiresAt ≤ now

def ClaimEntry.toToken (e : ClaimEntry) (queueId taskId : String) : ClaimToken :=
  ⟨queueId, taskId, e.owner, e.instanceId, e.claimedAt, e.expiresAt⟩

structure AtomicClaimManager where
  claims : Map String (Map String ClaimEntry)
  instanceCounter : Nat

namespace AtomicClaimManager
variable (m : AtomicClaimManager)

def new : AtomicClaimManager := ⟨∅, 1⟩

def queueClaims (queueId : String) : Map String ClaimEntry := (get m.claims queueId).getD ∅

def issue (now : UInt64) (queueId taskId owner : String) (leaseMs : UInt64) (claimCount : UInt32) :
    AtomicClaimManager × ClaimToken :=
  let entry : ClaimEntry := ⟨owner, m.instanceCounter, now, now + leaseMs, claimCount⟩
  (⟨m.claims.insert queueId ((m.queueClaims queueId).insert taskId entry), m.instanceCounter + 1⟩,
    entry.toToken queueId taskId)

def claim (now : UInt64) (queueId taskId owner : String) (leaseMs : UInt64) : AtomicClaimManager × ClaimResult :=
  match get (m.queueClaims queueId) taskId with
  | some existing =>
    if existing.owner = owner then
      let (issued, token) := m.issue now queueId taskId owner leaseMs (existing.claimCount + 1)
      (issued, .success token)
    else if !existing.isExpired now then
      ({ m with claims := m.claims.insert queueId (m.queueClaims queueId) },
        .alreadyClaimed existing.owner existing.expiresAt)
    else
      let (issued, token) := m.issue now queueId taskId owner leaseMs (existing.claimCount + 1)
      (issued, .tookOver existing.owner token)
  | none =>
    let (issued, token) := m.issue now queueId taskId owner leaseMs 1
    (issued, .success token)

def verify (queueId : String) (token : ClaimToken) : Except String (Map String ClaimEntry × ClaimEntry) :=
  match get m.claims queueId with
  | none => .error "Claim not found"
  | some queueClaims =>
    match get queueClaims token.taskId with
    | none => .error "Claim not found"
    | some existing =>
      if existing.instanceId ≠ token.instanceId then .error "Stale claim token"
      else if existing.owner ≠ token.owner then .error "Not claim owner"
      else .ok (queueClaims, existing)

def release (token : ClaimToken) : AtomicClaimManager × Except String Unit :=
  match m.verify token.queueId token with
  | .error message => (m, .error message)
  | .ok (queueClaims, _) =>
    ({ m with claims := m.claims.insert token.queueId (queueClaims.erase token.taskId) }, .ok ())

/-- The queue is a parameter of its own beside that of the token. -/
def extend (queueId : String) (token : ClaimToken) (additionalMs : UInt64) :
    AtomicClaimManager × Except String ClaimToken :=
  match m.verify queueId token with
  | .error message => (m, .error message)
  | .ok (queueClaims, existing) =>
    let entry := { existing with expiresAt := existing.expiresAt + additionalMs }
    ({ m with claims := m.claims.insert queueId (queueClaims.insert token.taskId entry) },
      .ok (entry.toToken queueId token.taskId))

def cleanupExpired (now : UInt64) : AtomicClaimManager :=
  { m with claims := mapValues (retain fun _ entry => !entry.isExpired now) m.claims }

end AtomicClaimManager

inductive Request where
  | claim (queueId taskId owner : String) (leaseMs : UInt64)
  | release (token : ClaimToken)
  | extend (queueId : String) (token : ClaimToken) (additionalMs : UInt64)
  | cleanupExpired

/-- A call starts with a reading of the clock and later runs its locked section. -/
inductive Step where
  | start (call : Nat) (now : UInt64) (request : Request)
  | resume (call : Nat)

/-- A claim that was made, with its lease as extended so far. -/
structure Issued where
  token : ClaimToken
  released : Bool
  deriving DecidableEq

structure Watched where
  manager : AtomicClaimManager
  clock : UInt64
  calls : Map Nat (UInt64 × Request)
  issued : List Issued

def ClaimResult.token : ClaimResult → Option ClaimToken
  | .success token | .tookOver _ token => some token
  | .alreadyClaimed .. => none

def amend (issued : List Issued) (number : Nat) (f : Issued → Issued) : List Issued :=
  issued.map fun i => if i.token.instanceId = number then f i else i

namespace Watched

def new : Watched := ⟨.new, 0, ∅, []⟩

def perform (w : Watched) (now : UInt64) : Request → Watched
  | .claim queueId taskId owner leaseMs =>
    let (manager, result) := w.manager.claim now queueId taskId owner leaseMs
    { w with manager, issued := w.issued ++ result.token.toList.map fun token => ⟨token, false⟩ }
  | .release token =>
    match w.manager.release token with
    | (manager, .ok _) =>
      { w with manager, issued := amend w.issued token.instanceId fun i => { i with released := true } }
    | (manager, .error _) => { w with manager }
  | .extend queueId token additionalMs =>
    match w.manager.extend queueId token additionalMs with
    | (manager, .ok extended) =>
      { w with manager, issued := amend w.issued token.instanceId fun i => { i with token := extended } }
    | (manager, .error _) => { w with manager }
  | .cleanupExpired => { w with manager := w.manager.cleanupExpired now }

/-- The clock never goes back, and a call has a name of its own. -/
def step (w : Watched) : Step → Watched
  | .start call now request =>
    if w.clock ≤ now ∧ get w.calls call = none then
      { w with clock := now, calls := w.calls.insert call (now, request) }
    else w
  | .resume call =>
    match get w.calls call with
    | none => w
    | some (now, request) => { w.perform now request with calls := w.calls.erase call }

end Watched

section Statement
variable (w : Watched)

def about (queueId taskId : String) (i : Issued) : Bool := i.token.queueId = queueId ∧ i.token.taskId = taskId

/-- The owner's last claim on the task has not been released and its lease runs. -/
def Holds (queueId taskId owner : String) : Prop :=
  ∃ i, (w.issued.filter fun i => about queueId taskId i && i.token.owner = owner).getLast? = some i ∧
    i.released = false ∧ w.clock < i.token.expiresAt

def Handed (token : ClaimToken) : Prop :=
  ∃ i ∈ w.issued, i.token.queueId = token.queueId ∧ i.token.taskId = token.taskId ∧ i.token.owner = token.owner ∧
    i.token.instanceId = token.instanceId

def Latest (token : ClaimToken) : Prop :=
  ∃ i, (w.issued.filter (about token.queueId token.taskId)).getLast? = some i ∧ i.released = false ∧
    i.token.owner = token.owner ∧ i.token.instanceId = token.instanceId

structure Fenced : Prop where
  exclusive : ∀ queueId taskId a b, Holds w queueId taskId a → Holds w queueId taskId b → a = b
  release_latest : ∀ token, Handed w token → (w.manager.release token).2.isOk → Latest w token
  extend_latest : ∀ queueId token additionalMs, Handed w token →
    (w.manager.extend queueId token additionalMs).2.isOk → Latest w token
  increasing : w.issued.Pairwise fun a b => a.token.queueId = b.token.queueId → a.token.taskId = b.token.taskId →
    a.token.instanceId < b.token.instanceId

end Statement

section Entries
variable (m : AtomicClaimManager)

def entryAt (queueId taskId : String) : Option ClaimEntry := get (m.queueClaims queueId) taskId

theorem entryAt_insert (queueId : String) (queueClaims : Map String ClaimEntry) (counter : Nat) (q t : String) :
    entryAt ⟨m.claims.insert queueId queueClaims, counter⟩ q t =
      if q = queueId then get queueClaims t else entryAt m q t := by
  unfold entryAt AtomicClaimManager.queueClaims
  rw [get_insert]
  split <;> rfl

theorem entryAt_issue (now : UInt64) (queueId taskId owner : String) (leaseMs : UInt64) (claimCount : UInt32)
    (q t : String) :
    entryAt (m.issue now queueId taskId owner leaseMs claimCount).1 q t =
      if q = queueId ∧ t = taskId then some ⟨owner, m.instanceCounter, now, now + leaseMs, claimCount⟩
      else entryAt m q t := by
  unfold AtomicClaimManager.issue
  rw [entryAt_insert, get_insert]
  by_cases sameQueue : q = queueId <;> by_cases sameTask : t = taskId <;> simp [sameQueue, sameTask, entryAt]

theorem claim_cases (now : UInt64) (queueId taskId owner : String) (leaseMs : UInt64) :
    (∃ count, (m.claim now queueId taskId owner leaseMs).1 = (m.issue now queueId taskId owner leaseMs count).1 ∧
      (m.claim now queueId taskId owner leaseMs).2.token = some (m.issue now queueId taskId owner leaseMs count).2 ∧
      ∀ e, entryAt m queueId taskId = some e → e.owner = owner ∨ e.expiresAt ≤ now) ∨
    ((m.claim now queueId taskId owner leaseMs).2.token = none ∧
      (m.claim now queueId taskId owner leaseMs).1.instanceCounter = m.instanceCounter ∧
      ∀ q t, entryAt (m.claim now queueId taskId owner leaseMs).1 q t = entryAt m q t) := by
  unfold AtomicClaimManager.claim
  cases found : get (m.queueClaims queueId) taskId with
  | none =>
    refine .inl ⟨1, rfl, rfl, fun e present => ?_⟩
    rw [entryAt, found] at present
    cases present
  | some existing =>
    have only : ∀ e, entryAt m queueId taskId = some e → e = existing := by
      intro e present
      rw [entryAt, found] at present
      exact (Option.some.inj present).symm
    dsimp only
    split
    · rename_i own
      exact .inl ⟨_, rfl, rfl, fun e present => .inl (only e present ▸ own)⟩
    · split
      · refine .inr ⟨rfl, rfl, fun q t => ?_⟩
        rw [entryAt_insert]
        split
        · rename_i same
          rw [same]
          rfl
        · rfl
      · rename_i expired
        refine .inl ⟨_, rfl, rfl, fun e present => .inr ?_⟩
        have ended : existing.isExpired now = true := by simpa using expired
        rw [only e present]
        exact of_decide_eq_true ended

theorem verify_cases (queueId : String) (token : ClaimToken) :
    (∃ queueClaims e, m.verify queueId token = .ok (queueClaims, e) ∧ m.queueClaims queueId = queueClaims ∧
      entryAt m queueId token.taskId = some e ∧ e.instanceId = token.instanceId ∧ e.owner = token.owner) ∨
    ∃ message, m.verify queueId token = .error message := by
  unfold AtomicClaimManager.verify
  split
  · exact .inr ⟨_, rfl⟩
  · rename_i queueClaims known
    have claims : m.queueClaims queueId = queueClaims := by rw [AtomicClaimManager.queueClaims, known, Option.getD_some]
    split
    · exact .inr ⟨_, rfl⟩
    · rename_i existing found
      split
      · exact .inr ⟨_, rfl⟩
      · rename_i sameNumber
        split
        · exact .inr ⟨_, rfl⟩
        · rename_i sameOwner
          refine .inl ⟨queueClaims, existing, rfl, claims, ?_, not_not.mp sameNumber, not_not.mp sameOwner⟩
          rw [entryAt, claims, found]

theorem release_cases (token : ClaimToken) :
    (∃ e, entryAt m token.queueId token.taskId = some e ∧ e.instanceId = token.instanceId ∧ e.owner = token.owner ∧
      (m.release token).2 = .ok () ∧ (m.release token).1.instanceCounter = m.instanceCounter ∧
      ∀ q t, entryAt (m.release token).1 q t =
        if q = token.queueId ∧ t = token.taskId then none else entryAt m q t) ∨
    ∃ message, m.release token = (m, .error message) := by
  unfold AtomicClaimManager.release
  rcases verify_cases m token.queueId token with ⟨queueClaims, e, verified, claims, found, number, owner⟩ | ⟨message, failed⟩
  · rw [verified]
    refine .inl ⟨e, found, number, owner, rfl, rfl, fun q t => ?_⟩
    rw [entryAt_insert, get_erase]
    by_cases sameQueue : q = token.queueId
    · by_cases sameTask : t = token.taskId <;> simp [sameQueue, sameTask, entryAt, claims]
    · simp [sameQueue]
  · rw [failed]
    exact .inr ⟨message, rfl⟩

theorem extend_cases (queueId : String) (token : ClaimToken) (additionalMs : UInt64) :
    (∃ e, entryAt m queueId token.taskId = some e ∧ e.instanceId = token.instanceId ∧ e.owner = token.owner ∧
      (m.extend queueId token additionalMs).2 =
        .ok ({ e with expiresAt := e.expiresAt + additionalMs }.toToken queueId token.taskId) ∧
      (m.extend queueId token additionalMs).1.instanceCounter = m.instanceCounter ∧
      ∀ q t, entryAt (m.extend queueId token additionalMs).1 q t =
        if q = queueId ∧ t = token.taskId then some { e with expiresAt := e.expiresAt + additionalMs }
        else entryAt m q t) ∨
    ∃ message, m.extend queueId token additionalMs = (m, .error message) := by
  unfold AtomicClaimManager.extend
  rcases verify_cases m queueId token with ⟨queueClaims, e, verified, claims, found, number, owner⟩ | ⟨message, failed⟩
  · rw [verified]
    refine .inl ⟨e, found, number, owner, rfl, rfl, fun q t => ?_⟩
    rw [entryAt_insert, get_insert]
    by_cases sameQueue : q = queueId
    · by_cases sameTask : t = token.taskId <;> simp [sameQueue, sameTask, entryAt, claims]
    · simp [sameQueue]
  · rw [failed]
    exact .inr ⟨message, rfl⟩

theorem entryAt_cleanup (now : UInt64) (q t : String) :
    entryAt (m.cleanupExpired now) q t = (entryAt m q t).filter fun e => !e.isExpired now := by
  unfold entryAt AtomicClaimManager.queueClaims AtomicClaimManager.cleanupExpired
  rw [get_mapValues]
  cases get m.claims q with
  | none => rfl
  | some queueClaims =>
    rw [Option.map_some, Option.getD_some, Option.getD_some, get_retain]

end Entries

section Sorted
variable {l : List Issued}

section
variable (sorted : l.Pairwise fun a b => a.token.instanceId < b.token.instanceId)
include sorted

theorem getLast_of_greatest {i : Issued} (member : i ∈ l)
    (greatest : ∀ j ∈ l, j.token.instanceId ≤ i.token.instanceId) : l.getLast? = some i := by
  obtain ⟨before, after, rfl⟩ := append_of_mem member
  cases after with
  | nil => rw [List.getLast?_append, List.getLast?_singleton, Option.some_or]
  | cons next rest =>
    have ordered := (pairwise_append.mp sorted).2.1
    have later := rel_of_pairwise_cons ordered (mem_cons_self (a := next) (l := rest))
    have bound := greatest next (by simp)
    omega

theorem greatest_of_getLast {i : Issued} (last : l.getLast? = some i) :
    ∀ j ∈ l, j.token.instanceId ≤ i.token.instanceId := by
  obtain ⟨before, rfl⟩ := List.getLast?_eq_some_iff.mp last
  have below := (pairwise_append.mp sorted).2.2
  exact forall_mem_append.mpr
    ⟨fun j earlier => (below j earlier i mem_cons_self).le, forall_mem_singleton.mpr (le_rfl)⟩

theorem eq_of_number {i j : Issued} (first : i ∈ l) (second : j ∈ l)
    (same : i.token.instanceId = j.token.instanceId) : i = j := by
  have nodup : (l.map fun k => k.token.instanceId).Nodup := pairwise_map.mpr (sorted.imp fun less => less.ne)
  exact inj_on_of_nodup_map nodup first second same

end

structure Identity where
  queueId : String
  taskId : String
  owner : String
  instanceId : Nat

def identity (i : Issued) : Identity := ⟨i.token.queueId, i.token.taskId, i.token.owner, i.token.instanceId⟩

variable {number : Nat} {f : Issued → Issued}

theorem identity_amend (keeps : ∀ i ∈ l, i.token.instanceId = number → identity (f i) = identity i) :
    (amend l number f).map identity = l.map identity := by
  unfold amend
  rw [map_map]
  apply map_congr_left
  intro i member
  rw [Function.comp]
  split
  · rename_i same
    exact keeps i member same
  · rfl

theorem mem_amend {i : Issued} :
    i ∈ amend l number f ↔ (i ∈ l ∧ i.token.instanceId ≠ number) ∨
      ∃ j ∈ l, j.token.instanceId = number ∧ i = f j := by
  unfold amend
  rw [mem_map]
  constructor
  · rintro ⟨j, member, rfl⟩
    split
    · rename_i same
      exact .inr ⟨j, member, same, rfl⟩
    · rename_i other
      exact .inl ⟨member, other⟩
  · rintro (⟨member, other⟩ | ⟨j, member, same, rfl⟩)
    · exact ⟨i, member, if_neg other⟩
    · exact ⟨j, member, if_pos same⟩

end Sorted

section Invariant
variable {w : Watched}

def Newest (ids : List Identity) (id : Identity) : Prop :=
  ∀ other ∈ ids, other.queueId = id.queueId → other.taskId = id.taskId → other.instanceId ≤ id.instanceId

def OwnersLast (ids : List Identity) (id : Identity) : Prop :=
  ∀ other ∈ ids, other.queueId = id.queueId → other.taskId = id.taskId → other.owner = id.owner →
    other.instanceId ≤ id.instanceId

structure Inv (w : Watched) : Prop where
  bounded : ∀ id ∈ w.issued.map identity, id.instanceId < w.manager.instanceCounter
  sorted : (w.issued.map identity).Pairwise fun a b => a.instanceId < b.instanceId
  entries : ∀ queueId taskId e, entryAt w.manager queueId taskId = some e →
    ∃ i ∈ w.issued, i.token = e.toToken queueId taskId ∧ i.released = false ∧
      Newest (w.issued.map identity) (identity i)
  running : ∀ i ∈ w.issued, i.released = false → w.clock < i.token.expiresAt →
    OwnersLast (w.issued.map identity) (identity i) →
    ∃ e, entryAt w.manager i.token.queueId i.token.taskId = some e ∧
      i.token = e.toToken i.token.queueId i.token.taskId

theorem Inv.new : Inv .new where
  bounded := fun i member => by cases member
  sorted := List.Pairwise.nil
  entries := fun queueId taskId e found => by cases found
  running := fun i member => by cases member

theorem Inv.ordered (inv : Inv w) : w.issued.Pairwise fun a b => a.token.instanceId < b.token.instanceId := by
  have sorted := inv.sorted
  rw [pairwise_map] at sorted
  exact sorted

theorem about_iff {queueId taskId : String} {i : Issued} :
    about queueId taskId i = true ↔ i.token.queueId = queueId ∧ i.token.taskId = taskId := by
  unfold about
  rw [decide_eq_true_eq]

theorem Inv.exclusive (inv : Inv w) {queueId taskId a b : String} (first : Holds w queueId taskId a)
    (second : Holds w queueId taskId b) : a = b := by
  have entry : ∀ owner, Holds w queueId taskId owner →
      ∃ e, entryAt w.manager queueId taskId = some e ∧ e.owner = owner := by
    rintro owner ⟨i, last, held, runs⟩
    have member := mem_of_getLast? last
    obtain ⟨inside, isAbout⟩ := mem_filter.mp member
    obtain ⟨here, own⟩ := Bool.and_eq_true_iff.mp isAbout
    obtain ⟨rfl, rfl⟩ := about_iff.mp here
    replace own : i.token.owner = owner := of_decide_eq_true own
    have ownersLast : OwnersLast (w.issued.map identity) (identity i) := by
      intro id present sameQueue sameTask sameOwner
      obtain ⟨j, known, rfl⟩ := mem_map.mp present
      apply greatest_of_getLast (inv.ordered.filter _) last
      apply mem_filter.mpr
      exact ⟨known, Bool.and_eq_true_iff.mpr
        ⟨about_iff.mpr ⟨sameQueue, sameTask⟩, decide_eq_true (sameOwner.trans own)⟩⟩
    obtain ⟨e, found, same⟩ := inv.running i inside held runs ownersLast
    refine ⟨e, found, ?_⟩
    rw [← own, same]
    rfl
  obtain ⟨e, found, ownerA⟩ := entry a first
  obtain ⟨f, again, ownerB⟩ := entry b second
  rw [found] at again
  cases again
  exact ownerA.symm.trans ownerB

theorem Inv.latest (inv : Inv w) {queueId : String} {token : ClaimToken} {e : ClaimEntry} (handed : Handed w token)
    (found : entryAt w.manager queueId token.taskId = some e) (number : e.instanceId = token.instanceId)
    (owner : e.owner = token.owner) : Latest w token := by
  obtain ⟨i, member, same, held, newest⟩ := inv.entries queueId token.taskId e found
  obtain ⟨j, inside, sameQueue, sameTask, _, sameNumber⟩ := handed
  have equal : i = j := by
    apply eq_of_number inv.ordered member inside
    rw [same, sameNumber]
    exact number
  subst equal
  refine ⟨i, ?_, held, ?_, sameNumber⟩
  · apply getLast_of_greatest (inv.ordered.filter _)
    · exact mem_filter.mpr ⟨member, about_iff.mpr ⟨sameQueue, sameTask⟩⟩
    · intro k kept
      obtain ⟨present, isAbout⟩ := mem_filter.mp kept
      obtain ⟨queue, task⟩ := about_iff.mp isAbout
      exact newest (identity k) (mem_map_of_mem present) (queue.trans sameQueue.symm) (task.trans sameTask.symm)
  · rw [same]
    exact owner

theorem Inv.fenced (inv : Inv w) : Fenced w where
  exclusive := fun _ _ _ _ first second => inv.exclusive first second
  release_latest := by
    intro token handed accepted
    rcases release_cases w.manager token with ⟨e, found, number, owner, _⟩ | ⟨message, failed⟩
    · exact inv.latest handed found number owner
    · rw [failed] at accepted
      cases accepted
  extend_latest := by
    intro queueId token additionalMs handed accepted
    rcases extend_cases w.manager queueId token additionalMs with ⟨e, found, number, owner, _⟩ | ⟨message, failed⟩
    · exact inv.latest handed found number owner
    · rw [failed] at accepted
      cases accepted
  increasing := inv.ordered.imp fun less _ _ => less

end Invariant

section Steps
variable {w : Watched}

theorem Inv.same (inv : Inv w) {v : Watched} (issued : v.issued = w.issued) (clock : w.clock ≤ v.clock)
    (counter : v.manager.instanceCounter = w.manager.instanceCounter)
    (entries : ∀ q t, entryAt v.manager q t = entryAt w.manager q t) : Inv v := by
  constructor
  · rw [issued, counter]
    exact inv.bounded
  · rw [issued]
    exact inv.sorted
  · intro q t e found
    rw [issued]
    exact inv.entries q t e ((entries q t).symm.trans found)
  · rw [issued]
    intro i member held runs last
    rw [entries]
    exact inv.running i member held (UInt64.lt_of_le_of_lt clock runs) last

variable {now : UInt64} {queueId taskId : String}

theorem Inv.claimed (inv : Inv w) (reading : now ≤ w.clock) {owner : String} {leaseMs : UInt64}
    {count : UInt32}
    (free : ∀ e, entryAt w.manager queueId taskId = some e → e.owner = owner ∨ e.expiresAt ≤ now) :
    Inv { w with
      manager := (w.manager.issue now queueId taskId owner leaseMs count).1
      issued := w.issued ++ [⟨(w.manager.issue now queueId taskId owner leaseMs count).2, false⟩] } := by
  let entry : ClaimEntry := ⟨owner, w.manager.instanceCounter, now, now + leaseMs, count⟩
  let claim : Issued := ⟨entry.toToken queueId taskId, false⟩
  have ids : (w.issued ++ [Issued.mk (w.manager.issue now queueId taskId owner leaseMs count).2 false]).map identity =
      w.issued.map identity ++ [identity claim] := map_append ..
  have above : ∀ id ∈ w.issued.map identity, id.instanceId < (identity claim).instanceId := inv.bounded
  constructor
  case bounded =>
    dsimp only
    rw [ids]
    exact forall_mem_append.mpr
      ⟨fun id old => Nat.lt_succ_of_lt (above id old), forall_mem_singleton.mpr (Nat.lt_succ_self _)⟩
  case sorted =>
    dsimp only
    rw [ids, pairwise_append]
    exact ⟨inv.sorted, pairwise_singleton _ _, fun a old => forall_mem_singleton.mpr (above a old)⟩
  case entries =>
    intro q t e found
    dsimp only at found ⊢
    rw [ids]
    rw [entryAt_issue] at found
    split at found
    · rename_i here
      cases found
      refine ⟨claim, mem_append_right _ mem_cons_self, by rw [here.1, here.2], rfl, ?_⟩
      intro id member _ _
      rcases mem_append.mp member with old | new
      · exact (above id old).le
      · rw [mem_singleton.mp new]
    · rename_i elsewhere
      obtain ⟨i, member, same, held, newest⟩ := inv.entries q t e found
      refine ⟨i, mem_append_left _ member, same, held, ?_⟩
      intro id present sameQueue sameTask
      rcases mem_append.mp present with old | new
      · exact newest id old sameQueue sameTask
      · have pair : i.token.queueId = q ∧ i.token.taskId = t := by
          rw [same]
          exact ⟨rfl, rfl⟩
        rw [mem_singleton.mp new] at sameQueue sameTask
        exact absurd ⟨pair.1.symm.trans sameQueue.symm, pair.2.symm.trans sameTask.symm⟩ elsewhere
  case running =>
    dsimp only
    rw [ids]
    intro i member held runs last
    rw [entryAt_issue]
    rcases mem_append.mp member with old | new
    · have before : OwnersLast (w.issued.map identity) (identity i) :=
        fun id present => last id (mem_append_left _ present)
      obtain ⟨e, found, same⟩ := inv.running i old held runs before
      split
      · rename_i here
        -- the new claim was made over the entry of this one
        exfalso
        rcases free e (here.1 ▸ here.2 ▸ found) with own | ended
        · have sameOwner : owner = i.token.owner := by
            rw [same]
            exact own.symm
          have later := last (identity claim) (by simp) here.1.symm here.2.symm sameOwner
          exact absurd (above (identity i) (mem_map_of_mem old)) (Nat.not_lt.mpr later)
        · have passed : i.token.expiresAt ≤ w.clock := by
            rw [same]
            exact UInt64.le_trans ended reading
          exact absurd runs (UInt64.not_lt.mpr passed)
      · exact ⟨e, found, same⟩
    · rw [mem_singleton.mp new]
      exact ⟨entry, if_pos ⟨rfl, rfl⟩, rfl⟩

theorem Inv.amended (inv : Inv w) {manager : AtomicClaimManager} {e : ClaimEntry} {f : Issued → Issued}
    {changed : Option ClaimEntry} (found : entryAt w.manager queueId taskId = some e)
    (counter : manager.instanceCounter = w.manager.instanceCounter)
    (entries : ∀ q t, entryAt manager q t = if q = queueId ∧ t = taskId then changed else entryAt w.manager q t)
    (keeps : ∀ i, i.token = e.toToken queueId taskId → identity (f i) = identity i)
    (fits : ∀ i, i.token = e.toToken queueId taskId → i.released = false →
      (∀ e', changed = some e' → (f i).token = e'.toToken queueId taskId ∧ (f i).released = false) ∧
        ((f i).released = false → ∃ e', changed = some e')) :
    Inv { w with manager := manager, issued := amend w.issued e.instanceId f } := by
  obtain ⟨claim, member, same, held, newest⟩ := inv.entries queueId taskId e found
  have number : claim.token.instanceId = e.instanceId := by rw [same]; rfl
  have only : ∀ i ∈ w.issued, i.token.instanceId = e.instanceId → i = claim :=
    fun i inside equal => eq_of_number inv.ordered inside member (equal.trans number.symm)
  have pair : claim.token.queueId = queueId ∧ claim.token.taskId = taskId := by
    rw [same]
    exact ⟨rfl, rfl⟩
  have ids : (amend w.issued e.instanceId f).map identity = w.issued.map identity := by
    apply identity_amend
    intro i inside equal
    rw [only i inside equal]
    exact keeps claim same
  have fitsHere := fits claim same held
  have changedHere : f claim ∈ amend w.issued e.instanceId f := mem_amend.mpr (.inr ⟨claim, member, number, rfl⟩)
  constructor
  case bounded =>
    rw [ids, counter]
    exact inv.bounded
  case sorted =>
    rw [ids]
    exact inv.sorted
  case entries =>
    intro q t e' atEntry
    dsimp only at atEntry ⊢
    rw [ids]
    rw [entries] at atEntry
    split at atEntry
    · rename_i here
      obtain ⟨token, unreleased⟩ := fitsHere.1 e' atEntry
      refine ⟨f claim, changedHere, by rw [here.1, here.2, token], unreleased, ?_⟩
      rw [keeps claim same]
      exact newest
    · rename_i elsewhere
      obtain ⟨i, inside, sameToken, unreleased, newestHere⟩ := inv.entries q t e' atEntry
      refine ⟨i, mem_amend.mpr (.inl ⟨inside, ?_⟩), sameToken, unreleased, newestHere⟩
      intro equal
      have isClaim := only i inside equal
      rw [isClaim] at sameToken
      rw [sameToken] at pair
      exact elsewhere pair
  case running =>
    dsimp only
    rw [ids]
    intro i inside unreleased runs last
    rw [entries]
    rcases mem_amend.mp inside with ⟨old, other⟩ | ⟨j, old, equal, rfl⟩
    · obtain ⟨e', atEntry, sameToken⟩ := inv.running i old unreleased runs last
      split
      · rename_i here
        rw [here.1, here.2, found] at atEntry
        cases atEntry
        exact absurd (by rw [sameToken]; rfl) other
      · exact ⟨e', atEntry, sameToken⟩
    · rw [only j old equal] at unreleased ⊢
      obtain ⟨e', isChanged⟩ := fitsHere.2 unreleased
      have token := (fitsHere.1 e' isChanged).1
      refine ⟨e', ?_, ?_⟩
      · rw [token, if_pos ⟨rfl, rfl⟩, isChanged]
      · rw [token]
        rfl

theorem Inv.cleaned (inv : Inv w) (reading : now ≤ w.clock) :
    Inv { w with manager := w.manager.cleanupExpired now } where
  bounded := inv.bounded
  sorted := inv.sorted
  entries := by
    intro q t e found
    replace found : entryAt (w.manager.cleanupExpired now) q t = some e := found
    rw [entryAt_cleanup] at found
    exact inv.entries q t e (Option.filter_eq_some_iff.mp found).1
  running := by
    intro i member held runs last
    obtain ⟨e, found, same⟩ := inv.running i member held runs last
    refine ⟨e, ?_, same⟩
    rw [entryAt_cleanup, found]
    apply Option.filter_eq_some_iff.mpr
    refine ⟨rfl, ?_⟩
    have runs_on : ¬e.expiresAt ≤ now := by
      intro ended
      rw [same] at runs
      exact absurd runs (UInt64.not_lt.mpr (UInt64.le_trans ended reading))
    simp [ClaimEntry.isExpired, runs_on]

theorem Inv.perform (inv : Inv w) (reading : now ≤ w.clock) (request : Request) :
    Inv (w.perform now request) := by
  cases request with
  | claim queueId taskId owner leaseMs =>
    unfold Watched.perform
    dsimp only
    rcases claim_cases w.manager now queueId taskId owner leaseMs with ⟨count, manager, token, free⟩ | ⟨token, counter, entries⟩
    · rw [manager, token]
      exact inv.claimed reading free
    · rw [token]
      exact inv.same (append_nil _) (UInt64.le_refl _) counter entries
  | release token =>
    unfold Watched.perform
    dsimp only
    rcases release_cases w.manager token with ⟨e, found, number, owner, accepted, counter, entries⟩ | ⟨message, failed⟩
    · have result : w.manager.release token = ((w.manager.release token).1, .ok ()) := Prod.ext rfl accepted
      rw [result, ← number]
      apply inv.amended found counter entries
      · exact fun i _ => rfl
      · intro i _ _
        exact ⟨fun e' impossible => (by cases impossible), fun impossible => (by cases impossible)⟩
    · rw [failed]
      exact inv.same rfl (UInt64.le_refl _) rfl fun _ _ => rfl
  | extend queueId token additionalMs =>
    unfold Watched.perform
    dsimp only
    rcases extend_cases w.manager queueId token additionalMs with ⟨e, found, number, owner, accepted, counter, entries⟩ | ⟨message, failed⟩
    · have result : w.manager.extend queueId token additionalMs =
          ((w.manager.extend queueId token additionalMs).1, .ok _) := Prod.ext rfl accepted
      rw [result, ← number]
      apply inv.amended found counter entries
      · intro i same
        rw [identity, identity, same]
        rfl
      · intro i _ held
        refine ⟨fun e' isChanged => ?_, fun _ => ⟨_, rfl⟩⟩
        cases isChanged
        exact ⟨rfl, held⟩
    · rw [failed]
      exact inv.same rfl (UInt64.le_refl _) rfl fun _ _ => rfl
  | cleanupExpired => exact inv.cleaned reading

def Timely (w : Watched) : Prop := ∀ name now request, get w.calls name = some (now, request) → now ≤ w.clock

theorem perform_clock (w : Watched) (now : UInt64) (request : Request) :
    (w.perform now request).clock = w.clock := by
  cases request with
  | claim => rfl
  | release | extend =>
    unfold Watched.perform
    dsimp only
    split <;> rfl
  | cleanupExpired => rfl

structure Sound (w : Watched) : Prop where
  inv : Inv w
  timely : Timely w

theorem Sound.step (sound : Sound w) (step : Step) : Sound (w.step step) := by
  obtain ⟨inv, timely⟩ := sound
  cases step with
  | start call now request =>
    unfold Watched.step
    dsimp only
    split
    · rename_i allowed
      refine ⟨inv.same rfl allowed.1 rfl fun _ _ => rfl, ?_⟩
      intro name reading other found
      replace found : get (w.calls.insert call (now, request)) name = some (reading, other) := found
      rw [get_insert] at found
      split at found
      · cases found
        exact UInt64.le_refl _
      · exact UInt64.le_trans (timely name reading other found) allowed.1
    · exact ⟨inv, timely⟩
  | resume call =>
    unfold Watched.step
    dsimp only
    split
    · exact ⟨inv, timely⟩
    · rename_i now request found
      have reading := timely call now request found
      refine ⟨(inv.perform reading request).same rfl (UInt64.le_refl _) rfl fun _ _ => rfl, ?_⟩
      intro name other later pending
      replace pending : get (w.calls.erase call) name = some (other, later) := pending
      rw [get_erase] at pending
      rw [perform_clock]
      split at pending
      · cases pending
      · exact timely name other later pending

/-- In every state of every interleaving claims are exclusive, only the last token of a task
    is accepted, and the numbers of a task's tokens increase. -/
theorem claims_are_fenced_leases (steps : List Step) : Fenced (run Watched.step .new steps) := by
  have start : Sound .new := ⟨.new, fun name now request found => by cases found⟩
  have free : Guarded Watched.step (fun _ _ => True) .new steps := Guarded.of_all (fun _ _ => trivial) _ _
  have sound : Sound (run Watched.step .new steps) := free.preserves (fun w step sound _ => sound.step step) start
  exact sound.inv.fenced

end Steps

end AtomicClaims
