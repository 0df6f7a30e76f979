import SochDB.Library.KeyedMaps
import SochDB.Library.Runs

/-!
The table of readers that processes share in mapped memory. Every load, store and
compare-and-swap of a call is a step of its own, in any interleaving; the two readings of
the clock, the snapshot of a registration and the existence of a process are inputs.
-/
namespace ReaderTable
open KeyedMaps Runs

/-- A slot with process id zero is free. -/
structure ReaderSlot where
  pid : Nat
  snapshotTs : Nat
  epoch : Nat
  lastHeartbeat : Nat
  deriving DecidableEq, Repr

def ReaderSlot.empty : ReaderSlot := ⟨0, 0, 0, 0⟩

def maxReaders : Nat := 1024

def staleReaderTimeoutUs : Nat := 60000000

def u64Max : Nat := 2 ^ 64 - 1

/-- What a reader does next: the loop of `register_reader` with the parts of `try_claim`, the
    time between the calls, and the parts of `release`. -/
inductive Stage where
  | seeking (slot : Nat)
  | claiming (slot : Nat) (currentPid : Nat)
  | storingTs (slot : Nat)
  | storingEpoch (slot : Nat)
  | storingHeartbeat (slot : Nat)
  | registered (slot : Nat)
  | releasing (slot : Nat)
  | clearingTs (slot : Nat)
  | clearingPid (slot : Nat)
  deriving DecidableEq, Repr

structure Reader where
  pid : Nat
  snapshotTs : Nat
  epoch : Nat
  stage : Stage
  deriving DecidableEq, Repr

/-- A run of `min_active_snapshot`: the slot it is at, whether it has seen a process there,
    and the least snapshot so far. The last field notes the readers that were registered at
    its latest step, which for a scan that has returned was the moment of its return. -/
structure Scan where
  slot : Nat
  sawPid : Bool
  minTs : Nat
  watching : List Nat
  deriving DecidableEq, Repr

inductive SweepStage where
  | loadingPid | loadingHeartbeat | removing
  deriving DecidableEq, Repr

/-- A run of `cleanup_stale_readers`. -/
structure Sweep where
  now : Nat
  slot : Nat
  stage : SweepStage
  deriving DecidableEq, Repr

structure Table where
  numSlots : Nat
  slots : Nat → ReaderSlot
  readers : Map Nat Reader
  nextReader : Nat
  scans : Map Nat Scan
  sweeps : Map Nat Sweep

inductive Step where
  | register (pid snapshotTs epoch : Nat)
  | advance (reader : Nat) (now : Nat)
  | unregister (reader : Nat)
  | exit (pid : Nat)
  | startScan (scan : Nat)
  | advanceScan (scan : Nat)
  | startSweep (sweep : Nat) (now : Nat)
  | advanceSweep (sweep : Nat) (processExists : Bool)

def setSlot (slots : Nat → ReaderSlot) (i : Nat) (f : ReaderSlot → ReaderSlot) : Nat → ReaderSlot :=
  fun j => if j = i then f (slots j) else slots j

def Reader.act (numSlots : Nat) (slots : Nat → ReaderSlot) (now : Nat) (r : Reader) :
    (Nat → ReaderSlot) × Option Reader :=
  match r.stage with
  | .seeking i =>
    if numSlots ≤ i then (slots, none)
    else if (slots i).pid ≠ 0 ∧ (slots i).pid ≠ r.pid then (slots, some { r with stage := .seeking (i + 1) })
    else (slots, some { r with stage := .claiming i (slots i).pid })
  | .claiming i currentPid =>
    if (slots i).pid = currentPid then
      (setSlot slots i fun slot => { slot with pid := r.pid }, some { r with stage := .storingTs i })
    else (slots, some { r with stage := .seeking (i + 1) })
  | .storingTs i =>
    (setSlot slots i fun slot => { slot with snapshotTs := r.snapshotTs },
      some { r with stage := .storingEpoch i })
  | .storingEpoch i =>
    (setSlot slots i fun slot => { slot with epoch := r.epoch }, some { r with stage := .storingHeartbeat i })
  | .storingHeartbeat i =>
    (setSlot slots i fun slot => { slot with lastHeartbeat := now }, some { r with stage := .registered i })
  | .registered _ => (slots, some r)
  | .releasing i =>
    if (slots i).pid = r.pid then (slots, some { r with stage := .clearingTs i }) else (slots, none)
  | .clearingTs i =>
    (setSlot slots i fun slot => { slot with snapshotTs := 0 }, some { r with stage := .clearingPid i })
  | .clearingPid i => (setSlot slots i fun slot => { slot with pid := 0 }, none)

def Scan.act (slots : Nat → ReaderSlot) (scan : Scan) : Scan :=
  if scan.sawPid then
    let ts := (slots scan.slot).snapshotTs
    { scan with
      slot := scan.slot + 1, sawPid := false, minTs := if 0 < ts ∧ ts < scan.minTs then ts else scan.minTs }
  else if (slots scan.slot).pid ≠ 0 then { scan with sawPid := true }
  else { scan with slot := scan.slot + 1 }

/-- The parts of `is_stale` and the store that follows it. -/
def Sweep.act (slots : Nat → ReaderSlot) (processExists : Bool) (sweep : Sweep) :
    (Nat → ReaderSlot) × Sweep :=
  match sweep.stage with
  | .loadingPid =>
    if (slots sweep.slot).pid = 0 then (slots, { sweep with slot := sweep.slot + 1 })
    else (slots, { sweep with stage := .loadingHeartbeat })
  | .loadingHeartbeat =>
    if staleReaderTimeoutUs < sweep.now - (slots sweep.slot).lastHeartbeat ∨ processExists = false then
      (slots, { sweep with stage := .removing })
    else (slots, { sweep with slot := sweep.slot + 1, stage := .loadingPid })
  | .removing =>
    (setSlot slots sweep.slot fun slot => { slot with pid := 0 },
      { sweep with slot := sweep.slot + 1, stage := .loadingPid })

def isRegistered (r : Reader) : Bool :=
  match r.stage with
  | .registered _ => true
  | _ => false

namespace Table

def new (numSlots : Nat) : Table := ⟨numSlots, fun _ => .empty, ∅, 0, ∅, ∅⟩

def registered (t : Table) : List Nat := ((pairs t.readers).filter fun e => isRegistered e.2).map Prod.fst

def setReader (t : Table) (id : Nat) : Option Reader → Map Nat Reader
  | some r => t.readers.insert id r
  | none => t.readers.erase id

/-- A process that ends takes its readers with it and leaves its slots as they are. -/
def step (t : Table) : Step → Table
  | .register pid snapshotTs epoch =>
    if pid = 0 then t
    else
      { t with
        readers := t.readers.insert t.nextReader ⟨pid, snapshotTs, epoch, .seeking 0⟩
        nextReader := t.nextReader + 1 }
  | .advance id now =>
    match get t.readers id with
    | none => t
    | some r =>
      { t with
        slots := (r.act t.numSlots t.slots now).1
        readers := t.setReader id (r.act t.numSlots t.slots now).2 }
  | .unregister id =>
    match get t.readers id with
    | some ⟨pid, snapshotTs, epoch, .registered i⟩ =>
      { t with readers := t.readers.insert id ⟨pid, snapshotTs, epoch, .releasing i⟩ }
    | _ => t
  | .exit pid => { t with readers := retain (fun _ r => r.pid ≠ pid) t.readers }
  | .startScan id => { t with scans := t.scans.insert id ⟨0, false, u64Max, t.registered⟩ }
  | .advanceScan id =>
    { t with scans := adjust t.scans id fun scan =>
        if scan.slot < t.numSlots then { scan.act t.slots with watching := t.registered } else scan }
  | .startSweep id now => { t with sweeps := t.sweeps.insert id ⟨now, 0, .loadingPid⟩ }
  | .advanceSweep id processExists =>
    match get t.sweeps id with
    | none => t
    | some sweep =>
      if sweep.slot < t.numSlots then
        { t with
          slots := (sweep.act t.slots processExists).1
          sweeps := t.sweeps.insert id (sweep.act t.slots processExists).2 }
      else t

/-- Every registered reader stands in a slot of its own with its process and its snapshot,
    and what a scan returned does not exceed the snapshot of any reader registered at its return. -/
structure Safe (t : Table) : Prop where
  stands : ∀ id r i, get t.readers id = some r → r.stage = .registered i →
    (t.slots i).pid = r.pid ∧ (t.slots i).snapshotTs = r.snapshotTs
  apart : ∀ a b r s i, get t.readers a = some r → get t.readers b = some s →
    r.stage = .registered i → s.stage = .registered i → a = b
  bounded : ∀ name scan, get t.scans name = some scan → t.numSlots ≤ scan.slot →
    ∀ id ∈ scan.watching, ∀ r i, get t.readers id = some r → r.stage = .registered i →
      scan.minTs ≤ r.snapshotTs

end Table

def Stage.taken : Stage → Option Nat
  | .seeking _ | .claiming .. => none
  | .storingTs i | .storingEpoch i | .storingHeartbeat i | .registered i | .releasing i | .clearingTs i
  | .clearingPid i => some i

def Stage.storing : Stage → Option Nat
  | .storingTs i => some i
  | _ => none

/-- A process has one reader at a time, with a snapshot after time zero; a reader stores its
    snapshot only while no scan that is under way has passed its slot; and a slot is removed as
    stale only while no reader has taken it. -/
def Table.Lone (t : Table) : Step → Prop
  | .register pid snapshotTs _ => 0 < snapshotTs ∧ ∀ e ∈ pairs t.readers, e.2.pid ≠ pid
  | .advance id _ => ∀ r ∈ get t.readers id, ∀ e ∈ pairs t.scans, e.2.slot < t.numSlots →
      ∀ i ∈ r.stage.storing, e.2.slot ≤ i
  | .advanceSweep id _ =>
    ∀ sweep ∈ get t.sweeps id, sweep.stage = .removing → ∀ e ∈ pairs t.readers,
      e.2.stage.taken ≠ some sweep.slot
  | _ => True

instance (t : Table) (step : Step) : Decidable (t.Lone step) :=
  match step with
  | .register .. => inferInstanceAs (Decidable (_ ∧ _))
  | .advance id _ => inferInstanceAs (Decidable (∀ r ∈ get t.readers id, _))
  | .advanceSweep id _ => inferInstanceAs (Decidable (∀ sweep ∈ get t.sweeps id, _))
  | .unregister _ | .exit _ | .startScan _ | .advanceScan _ | .startSweep .. =>
    inferInstanceAs (Decidable True)

section Holding

def Stage.published : Stage → Bool
  | .storingEpoch _ | .storingHeartbeat _ | .registered _ | .releasing _ | .clearingTs _ => true
  | _ => false

def Fits (numSlots : Nat) (slots : Nat → ReaderSlot) (r : Reader) : Prop :=
  (∀ i, r.stage.taken = some i → i < numSlots ∧ (slots i).pid = r.pid ∧
    (r.stage.published = true → (slots i).snapshotTs = r.snapshotTs)) ∧
  ∀ i pid, r.stage = .claiming i pid → i < numSlots ∧ (pid = 0 ∨ pid = r.pid)

structure Held (t : Table) : Prop where
  fits : ∀ id r, get t.readers id = some r → Fits t.numSlots t.slots r
  lone : ∀ a b r s, get t.readers a = some r → get t.readers b = some s → r.pid = s.pid → a = b
  real : ∀ id r, get t.readers id = some r → r.pid ≠ 0 ∧ 0 < r.snapshotTs ∧ id < t.nextReader

variable {t : Table}
variable {r : Reader} {i numSlots : Nat}

theorem Held.taken_by_other (held : Held t) {a b : Nat} {s : Reader} (first : get t.readers a = some r)
    (second : get t.readers b = some s) (differ : b ≠ a) (taken : s.stage.taken = some i) :
    (t.slots i).pid ≠ 0 ∧ (t.slots i).pid ≠ r.pid := by
  have pid := ((held.fits b s second).1 i taken).2.1
  rw [pid]
  exact ⟨(held.real b s second).1, fun same => differ (held.lone b a s r second first same)⟩

variable (slots : Nat → ReaderSlot)

theorem setSlot_other (f : ReaderSlot → ReaderSlot) {j : Nat} (other : i ≠ j) :
    setSlot slots j f i = slots i := if_neg other

theorem setSlot_same (f : ReaderSlot → ReaderSlot) (i : Nat) :
    setSlot slots i f i = f (slots i) := if_pos rfl

/-- The only slot that an access may change is one that no other reader has taken. -/
theorem act_frame (held : Held t) {id : Nat} (found : get t.readers id = some r) (now : Nat) {other : Nat}
    {s : Reader} (second : get t.readers other = some s) (differ : other ≠ id)
    (taken : s.stage.taken = some i) : (r.act t.numSlots t.slots now).1 i = t.slots i := by
  obtain ⟨occupied, foreign⟩ := held.taken_by_other found second differ taken
  have fits := held.fits id r found
  have elsewhere : ∀ j, r.stage.taken = some j → i ≠ j := by
    rintro j mine rfl
    exact foreign (fits.1 i mine).2.1
  obtain ⟨pid, snapshotTs, epoch, stage⟩ := r
  cases stage with
  | seeking j =>
    unfold Reader.act
    dsimp only
    split
    · rfl
    · split <;> rfl
  | claiming j seen =>
    unfold Reader.act
    dsimp only
    split
    · rename_i same
      dsimp only
      apply setSlot_other
      rintro rfl
      rcases (fits.2 i seen rfl).2 with free | own
      · exact occupied (same.trans free)
      · exact foreign (same.trans own)
    · rfl
  | registered j => rfl
  | releasing j =>
    unfold Reader.act
    dsimp only
    split <;> rfl
  | storingTs j | storingEpoch j | storingHeartbeat j | clearingTs j | clearingPid j =>
    unfold Reader.act
    dsimp only
    exact setSlot_other _ _ (elsewhere j rfl)

theorem act_keeps (numSlots : Nat) (slots : Nat → ReaderSlot) (now : Nat) {next : Reader}
    (goes : (r.act numSlots slots now).2 = some next) :
    next.pid = r.pid ∧ next.snapshotTs = r.snapshotTs := by
  unfold Reader.act at goes
  repeat' split at goes
  all_goals first
    | cases goes; exact ⟨rfl, rfl⟩
    | cases goes

theorem fits_of_taken {slots : Nat → ReaderSlot} (taken : r.stage.taken = some i) (inside : i < numSlots)
    (pid : (slots i).pid = r.pid) (ts : r.stage.published = true → (slots i).snapshotTs = r.snapshotTs) :
    Fits numSlots slots r := by
  constructor
  · intro j isTaken
    cases taken.symm.trans isTaken
    exact ⟨inside, pid, ts⟩
  · intro j seen claims
    rw [claims] at taken
    cases taken

theorem fits_of_seeking (seeks : r.stage = .seeking i) :
    Fits numSlots slots r := by
  constructor
  · intro j isTaken
    rw [seeks] at isTaken
    cases isTaken
  · intro j seen claims
    rw [seeks] at claims
    cases claims

theorem act_fits {slots : Nat → ReaderSlot} (now : Nat) {next : Reader} (fits : Fits numSlots slots r)
    (goes : (r.act numSlots slots now).2 = some next) :
    Fits numSlots (r.act numSlots slots now).1 next := by
  obtain ⟨pid, snapshotTs, epoch, stage⟩ := r
  cases stage with
  | seeking j =>
    unfold Reader.act at goes ⊢
    dsimp only at goes ⊢
    split
    · rename_i full
      rw [if_pos full] at goes
      cases goes
    · rename_i more
      rw [if_neg more] at goes
      split
      · rename_i busy
        rw [if_pos busy] at goes
        cases goes
        exact fits_of_seeking slots rfl
      · rename_i free
        rw [if_neg free] at goes
        cases goes
        refine ⟨fun i isTaken => (by cases isTaken), ?_⟩
        rintro i seen ⟨⟩
        refine ⟨Nat.lt_of_not_le more, ?_⟩
        by_contra neither
        exact free (not_or.mp neither)
  | claiming j seen =>
    have inside := (fits.2 j seen rfl).1
    unfold Reader.act at goes ⊢
    dsimp only at goes ⊢
    split
    · rename_i same
      rw [if_pos same] at goes
      cases goes
      apply fits_of_taken rfl inside
      · exact congrArg ReaderSlot.pid (setSlot_same ..)
      · intro published
        cases published
    · rename_i changed
      rw [if_neg changed] at goes
      cases goes
      exact fits_of_seeking slots rfl
  | storingTs j =>
    cases goes
    obtain ⟨inside, owned, _⟩ := fits.1 j rfl
    apply fits_of_taken rfl inside
    · exact (congrArg ReaderSlot.pid (setSlot_same ..)).trans owned
    · intro _
      exact congrArg ReaderSlot.snapshotTs (setSlot_same ..)
  | storingEpoch j | storingHeartbeat j =>
    cases goes
    obtain ⟨inside, owned, stored⟩ := fits.1 j rfl
    apply fits_of_taken rfl inside
    · exact (congrArg ReaderSlot.pid (setSlot_same ..)).trans owned
    · intro _
      exact (congrArg ReaderSlot.snapshotTs (setSlot_same ..)).trans (stored rfl)
  | registered j =>
    cases goes
    exact fits
  | releasing j =>
    obtain ⟨inside, owned, stored⟩ := fits.1 j rfl
    unfold Reader.act at goes ⊢
    dsimp only at goes ⊢
    split
    · rename_i mine
      rw [if_pos mine] at goes
      cases goes
      exact fits_of_taken rfl inside owned fun _ => stored rfl
    · rename_i lost
      exact absurd owned lost
  | clearingTs j =>
    cases goes
    obtain ⟨inside, owned, _⟩ := fits.1 j rfl
    apply fits_of_taken rfl inside
    · exact (congrArg ReaderSlot.pid (setSlot_same ..)).trans owned
    · intro published
      cases published
  | clearingPid j => cases goes

theorem get_setReader (t : Table) (id : Nat) (next : Option Reader) (other : Nat) :
    get (t.setReader id next) other = if other = id then next else get t.readers other := by
  cases next with
  | none => exact get_erase ..
  | some r => exact get_insert ..

theorem Fits.congr {slots changed : Nat → ReaderSlot} (fits : Fits numSlots slots r)
    (same : ∀ i, r.stage.taken = some i → changed i = slots i) :
    Fits numSlots changed r := by
  refine ⟨fun i taken => ?_, fits.2⟩
  rw [same i taken]
  exact fits.1 i taken

theorem Held.advance (held : Held t) {id : Nat} (found : get t.readers id = some r) (now : Nat) :
    Held { t with
      slots := (r.act t.numSlots t.slots now).1
      readers := t.setReader id (r.act t.numSlots t.slots now).2 } where
  fits := by
    intro other s second
    rw [get_setReader] at second
    split at second
    · exact act_fits now (held.fits id r found) second
    · rename_i differ
      exact (held.fits other s second).congr fun i taken => act_frame held found now second differ taken
  lone := by
    intro a b s u first second same
    rw [get_setReader] at first second
    split at first
    · rename_i isA
      split at second
      · rename_i isB
        exact isA.trans isB.symm
      · rw [(act_keeps _ _ _ first).1] at same
        exact isA.trans (held.lone id b r u found second same)
    · split at second
      · rename_i isB
        rw [(act_keeps _ _ _ second).1] at same
        exact (held.lone a id s r first found same).trans isB.symm
      · exact held.lone a b s u first second same
  real := by
    intro other s second
    rw [get_setReader] at second
    split at second
    · rename_i same
      obtain ⟨pid, ts⟩ := act_keeps _ _ _ second
      rw [pid, ts, same]
      exact held.real id r found
    · exact held.real other s second

theorem Held.shrink {readers : Map Nat Reader} (held : Held t)
    (from_old : ∀ id r, get readers id = some r → ∃ old, get t.readers id = some old ∧ r.pid = old.pid ∧
      r.snapshotTs = old.snapshotTs ∧ (Fits t.numSlots t.slots old → Fits t.numSlots t.slots r)) :
    Held { t with readers := readers } where
  fits := by
    intro id r found
    obtain ⟨old, before, _, _, still⟩ := from_old id r found
    exact still (held.fits id old before)
  lone := by
    intro a b r s first second same
    obtain ⟨oldFirst, beforeFirst, pidFirst, _⟩ := from_old a r first
    obtain ⟨oldSecond, beforeSecond, pidSecond, _⟩ := from_old b s second
    exact held.lone a b _ _ beforeFirst beforeSecond (by rw [← pidFirst, same, pidSecond])
  real := by
    intro id r found
    obtain ⟨old, before, pid, ts, _⟩ := from_old id r found
    rw [pid, ts]
    exact held.real id old before

theorem Held.register (held : Held t) {pid snapshotTs : Nat} (isProcess : pid ≠ 0) (late : 0 < snapshotTs)
    (alone : ∀ e ∈ pairs t.readers, e.2.pid ≠ pid) (epoch : Nat) :
    Held { t with
      readers := t.readers.insert t.nextReader ⟨pid, snapshotTs, epoch, .seeking 0⟩
      nextReader := t.nextReader + 1 } where
  fits := forall_insert held.fits (fits_of_seeking _ rfl)
  lone := by
    intro a b r s first second same
    have apart : ∀ id r, get t.readers id = some r → r.pid ≠ pid :=
      fun id r found => alone (id, r) (mem_pairs.mpr found)
    rw [get_insert] at first second
    split at first
    · rename_i isA
      cases first
      split at second
      · rename_i isB
        exact isA.trans isB.symm
      · exact absurd same.symm (apart b s second)
    · split at second
      · cases second
        exact absurd same (apart a r first)
      · exact held.lone a b r s first second same
  real := by
    refine forall_insert (fun id r found => ?_) ⟨isProcess, late, Nat.lt_succ_self _⟩
    obtain ⟨process, positive, issued⟩ := held.real id r found
    exact ⟨process, positive, Nat.lt_succ_of_lt issued⟩

theorem Held.sweep (held : Held t) {sweep : Sweep} (processExists : Bool) (sweeps : Map Nat Sweep)
    (lone : sweep.stage = .removing → ∀ e ∈ pairs t.readers, e.2.stage.taken ≠ some sweep.slot) :
    Held { t with slots := (sweep.act t.slots processExists).1, sweeps := sweeps } where
  fits := by
    intro id r found
    apply (held.fits id r found).congr
    intro i taken
    unfold Sweep.act
    cases stage : sweep.stage with
    | loadingPid | loadingHeartbeat =>
      dsimp only
      split <;> rfl
    | removing =>
      dsimp only
      apply setSlot_other
      rintro rfl
      exact lone stage (id, r) (mem_pairs.mpr found) taken
  lone := held.lone
  real := held.real

theorem Held.new (numSlots : Nat) : Held (.new numSlots) where
  fits := fun id r found => by cases found
  lone := fun a b r s found => by cases found
  real := fun id r found => by cases found

theorem Held.step (held : Held t) {step : Step} (lone : t.Lone step) : Held (t.step step) := by
  cases step with
  | register pid snapshotTs epoch =>
    unfold Table.step
    dsimp only
    split
    · exact held
    · rename_i isProcess
      exact held.register isProcess lone.1 lone.2 epoch
  | advance id now =>
    unfold Table.step
    dsimp only
    split
    · exact held
    · rename_i found
      exact held.advance found now
  | unregister id =>
    unfold Table.step
    dsimp only
    split
    · rename_i pid snapshotTs epoch i found
      apply held.shrink
      intro other r present
      rw [get_insert] at present
      split at present
      · rename_i same
        cases present
        subst same
        refine ⟨⟨pid, snapshotTs, epoch, .registered i⟩, found, rfl, rfl, fun fits => ?_⟩
        obtain ⟨inside, owned, stored⟩ := fits.1 i rfl
        exact fits_of_taken rfl inside owned stored
      · exact ⟨r, present, rfl, rfl, fun fits => fits⟩
    · exact held
  | exit pid =>
    apply held.shrink
    intro id r present
    rw [get_retain] at present
    exact ⟨r, (Option.filter_eq_some_iff.mp present).1, rfl, rfl, fun fits => fits⟩
  | startScan | advanceScan | startSweep => exact ⟨held.fits, held.lone, held.real⟩
  | advanceSweep id processExists =>
    unfold Table.step
    dsimp only
    split
    · exact held
    · rename_i sweep found
      split
      · exact held.sweep processExists _ (lone sweep found)
      · exact held

end Holding

section Scanning

def Stage.settled : Stage → Bool
  | .registered _ | .releasing _ | .clearingTs _ | .clearingPid _ => true
  | _ => false

structure Scanned (t : Table) : Prop where
  watched : ∀ name scan, get t.scans name = some scan → ∀ id ∈ scan.watching,
    id < t.nextReader ∧ ∀ r, get t.readers id = some r → r.stage.settled = true
  least : ∀ name scan, get t.scans name = some scan → ∀ id r i, get t.readers id = some r →
    (scan.slot < t.numSlots ∨ id ∈ scan.watching) → r.stage.taken = some i → r.stage.published = true →
      i < scan.slot → scan.minTs ≤ r.snapshotTs

theorem Scanned.new (numSlots : Nat) : Scanned (.new numSlots) where
  watched := fun name scan found => by cases found
  least := fun name scan found => by cases found

variable {t : Table}

/-- A reader is as it was, has moved on with its snapshot in the slot, or has just stored it. -/
structure Stage.Follows (r old : Reader) : Prop where
  settled : old.stage.settled = true → r.stage.settled = true
  published : ∀ i, r.stage.taken = some i → r.stage.published = true →
    old.stage = .storingTs i ∨
      old.stage.taken = some i ∧ old.stage.published = true ∧ old.snapshotTs = r.snapshotTs

theorem Stage.Follows.refl (r : Reader) : Stage.Follows r r :=
  ⟨fun settled => settled, fun _ taken published => .inr ⟨taken, published, rfl⟩⟩

theorem Scanned.readers (scanned : Scanned t) {readers : Map Nat Reader} {nextReader : Nat}
    {slots : Nat → ReaderSlot} {sweeps : Map Nat Sweep} (grows : t.nextReader ≤ nextReader)
    (from_old : ∀ id r, get readers id = some r → r.stage.taken = none ∧ t.nextReader ≤ id ∨
      ∃ old, get t.readers id = some old ∧ Stage.Follows r old ∧ ∀ i, old.stage = .storingTs i →
        r = old ∨ ∀ e ∈ pairs t.scans, e.2.slot < t.numSlots → e.2.slot ≤ i) :
    Scanned { t with slots := slots, readers := readers, nextReader := nextReader, sweeps := sweeps } where
  watched := by
    intro name scan found id member
    obtain ⟨issued, settled⟩ := scanned.watched name scan found id member
    refine ⟨issued.trans_le grows, fun r present => ?_⟩
    rcases from_old id r present with ⟨_, fresh⟩ | ⟨old, before, follows, _⟩
    · omega
    · exact follows.settled (settled old before)
  least := by
    intro name scan found id r i present concerned taken published passed
    rcases from_old id r present with ⟨free, _⟩ | ⟨old, before, follows, behind⟩
    · rw [free] at taken
      cases taken
    · rcases follows.published i taken published with storing | ⟨held, stored, same⟩
      · rcases behind i storing with rfl | behind
        · rw [storing] at published
          cases published
        · rcases concerned with running | member
          · have reached : scan.slot ≤ i := behind (name, scan) (mem_pairs.mpr found) running
            omega
          · have settled := (scanned.watched name scan found id member).2 old before
            rw [storing] at settled
            cases settled
      · rw [← same]
        exact scanned.least name scan found id old i before concerned held stored passed

theorem act_follows (numSlots : Nat) (slots : Nat → ReaderSlot) (now : Nat) {r next : Reader}
    (goes : (r.act numSlots slots now).2 = some next) : Stage.Follows next r := by
  obtain ⟨pid, snapshotTs, epoch, stage⟩ := r
  unfold Reader.act at goes
  cases stage with
  | seeking | claiming | releasing =>
    dsimp only at goes
    repeat' split at goes
    all_goals cases goes
    all_goals exact ⟨by simp [Stage.settled], by simp [Stage.taken, Stage.published]⟩
  | storingTs | storingEpoch | storingHeartbeat | registered | clearingTs =>
    cases goes
    exact ⟨by simp [Stage.settled], by simp [Stage.taken, Stage.published]⟩
  | clearingPid => cases goes

theorem settled_of_registered {r : Reader} (registered : isRegistered r = true) :
    r.stage.settled = true := by
  obtain ⟨pid, snapshotTs, epoch, stage⟩ := r
  cases stage <;> first | rfl | cases registered

theorem scan_act_least (held : Held t) (scanned : Scanned t) {name : Nat} {scan : Scan}
    (found : get t.scans name = some scan) (running : scan.slot < t.numSlots) :
    ∀ id r i, get t.readers id = some r → r.stage.taken = some i → r.stage.published = true →
      i < (scan.act t.slots).slot → (scan.act t.slots).minTs ≤ r.snapshotTs := by
  intro id r i present taken published passed
  have before := scanned.least name scan found id r i present (.inl running) taken published
  obtain ⟨_, owned, stored⟩ := (held.fits id r present).1 i taken
  obtain ⟨process, positive, _⟩ := held.real id r present
  have stored := stored published
  unfold Scan.act at passed ⊢
  by_cases saw : scan.sawPid = true
  · simp only [saw, if_true] at passed ⊢
    by_cases here : i = scan.slot
    · rw [← here, stored]
      split
      · exact le_rfl
      · omega
    · have earlier := before (by omega)
      split
      · omega
      · exact earlier
  · simp only [saw, Bool.false_eq_true, if_false] at passed ⊢
    split at passed
    · rename_i occupied
      rw [if_pos occupied]
      exact before passed
    · rename_i free
      rw [if_neg free]
      have other : i ≠ scan.slot := by
        rintro rfl
        exact free (owned ▸ process)
      exact before (by
        dsimp only at passed
        omega)

theorem registered_watched (held : Held t) : ∀ id ∈ t.registered,
    id < t.nextReader ∧ ∀ r, get t.readers id = some r → r.stage.settled = true := by
  intro id member
  obtain ⟨e, isRegistered, rfl⟩ := List.mem_map.mp member
  obtain ⟨present, settled⟩ := List.mem_filter.mp isRegistered
  have present := mem_pairs.mp present
  refine ⟨(held.real _ _ present).2.2, fun r again => ?_⟩
  cases present.symm.trans again
  exact settled_of_registered settled

theorem Scanned.startScan (scanned : Scanned t) (held : Held t) (name : Nat) :
    Scanned (t.step (.startScan name)) where
  watched := forall_insert scanned.watched (registered_watched held)
  least := forall_insert scanned.least fun _ _ i _ _ _ _ passed => absurd passed (Nat.not_lt_zero i)

theorem Scanned.advanceScan (scanned : Scanned t) (held : Held t) (name : Nat) :
    Scanned (t.step (.advanceScan name)) where
  watched := by
    refine forall_adjust scanned.watched fun before present => ?_
    split
    · exact registered_watched held
    · exact scanned.watched _ before present
  least := by
    refine forall_adjust scanned.least fun before present => ?_
    split
    · rename_i running
      exact fun id r i found _ => scan_act_least held scanned present running id r i found
    · exact scanned.least _ before present

theorem Scanned.step (held : Held t) (scanned : Scanned t) {step : Step} (lone : t.Lone step) :
    Scanned (t.step step) := by
  have kept : ∀ id r, get t.readers id = some r → r.stage.taken = none ∧ t.nextReader ≤ id ∨
      ∃ old, get t.readers id = some old ∧ Stage.Follows r old ∧ ∀ i, old.stage = .storingTs i →
        r = old ∨ ∀ e ∈ pairs t.scans, e.2.slot < t.numSlots → e.2.slot ≤ i :=
    fun id r present => .inr ⟨r, present, .refl r, fun _ _ => .inl rfl⟩
  cases step with
  | register pid snapshotTs epoch =>
    unfold Table.step
    dsimp only
    split
    · exact scanned
    · apply scanned.readers (Nat.le_succ _)
      intro id r present
      rw [get_insert] at present
      split at present
      · rename_i fresh
        cases present
        exact .inl ⟨rfl, fresh.ge⟩
      · exact kept id r present
  | advance id now =>
    unfold Table.step
    dsimp only
    split
    · exact scanned
    · rename_i r found
      apply scanned.readers le_rfl
      intro other s present
      rw [get_setReader] at present
      split at present
      · rename_i isId
        refine .inr ⟨r, isId ▸ found, act_follows _ _ _ present, fun i storing => .inr fun e scan running => ?_⟩
        exact lone r found e scan running i (by rw [storing]; rfl)
      · exact kept other s present
  | unregister id =>
    unfold Table.step
    dsimp only
    split
    · rename_i i found
      apply scanned.readers le_rfl
      intro other s present
      rw [get_insert] at present
      split at present
      · rename_i isId
        cases present
        refine .inr ⟨_, isId ▸ found, ⟨fun _ => rfl, ?_⟩, fun j storing => by cases storing⟩
        exact fun j taken _ => .inr ⟨taken, rfl, rfl⟩
      · exact kept other s present
    · exact scanned
  | exit pid =>
    apply scanned.readers le_rfl
    intro id r present
    rw [get_retain] at present
    exact kept id r (Option.filter_eq_some_iff.mp present).1
  | startSweep id now => exact scanned.readers le_rfl kept
  | advanceSweep id processExists =>
    unfold Table.step
    dsimp only
    repeat' split
    · exact scanned
    · exact scanned.readers le_rfl kept
    · exact scanned
  | startScan id => exact scanned.startScan held id
  | advanceScan id => exact scanned.advanceScan held id

theorem safe_of_scanned (held : Held t) (scanned : Scanned t) : t.Safe where
  stands := by
    intro id r i found registered
    obtain ⟨_, owned, stored⟩ := (held.fits id r found).1 i (by rw [registered]; rfl)
    exact ⟨owned, stored (by rw [registered]; rfl)⟩
  apart := by
    intro a b r s i first second here there
    obtain ⟨_, owned, _⟩ := (held.fits a r first).1 i (by rw [here]; rfl)
    obtain ⟨_, alsoOwned, _⟩ := (held.fits b s second).1 i (by rw [there]; rfl)
    exact held.lone a b r s first second (owned.symm.trans alsoOwned)
  bounded := by
    intro name scan found finished id member r i present registered
    obtain ⟨inside, _⟩ := (held.fits id r present).1 i (by rw [registered]; rfl)
    exact scanned.least name scan found id r i present (.inr member) (by rw [registered]; rfl)
      (by rw [registered]; rfl) (inside.trans_le finished)

end Scanning

/-- In every interleaving in which a process registers a reader only while it has no other, no
    reader stores its snapshot behind a running scan and a cleanup clears only slots that no
    reader has taken, every registration keeps its own slot and no scan returns more than a
    snapshot that is registered. -/
theorem registered_snapshots_are_protected (numSlots : Nat) (steps : List Step)
    (lone : Guarded Table.step Table.Lone (.new numSlots) steps) :
    (run Table.step (.new numSlots) steps).Safe := by
  have kept : ∀ t step, Held t ∧ Scanned t → t.Lone step → Held (t.step step) ∧ Scanned (t.step step) :=
    fun t step both meets => ⟨both.1.step meets, both.2.step both.1 meets⟩
  obtain ⟨held, scanned⟩ := lone.preserves kept ⟨.new numSlots, .new numSlots⟩
  exact safe_of_scanned held scanned

section Runs

def registration (reader pid snapshotTs : Nat) : List Step :=
  .register pid snapshotTs 0 :: List.replicate 5 (.advance reader 0)

def scanning (numSlots : Nat) : List Step :=
  [.startScan 0, .advanceScan 0, .advanceScan 0] ++ List.replicate (numSlots - 1) (.advanceScan 0)

theorem scan_passes_free_slots (k : Nat) {t : Table} {name : Nat} {scan : Scan}
    (found : get t.scans name = some scan) (unseen : scan.sawPid = false)
    (current : scan.watching = t.registered) (inside : scan.slot + k ≤ t.numSlots)
    (free : ∀ i, scan.slot ≤ i → (t.slots i).pid = 0) :
    get (run Table.step t (List.replicate k (.advanceScan name))).scans name =
      some { scan with slot := scan.slot + k } ∧
    (run Table.step t (List.replicate k (.advanceScan name))).readers = t.readers ∧
    (run Table.step t (List.replicate k (.advanceScan name))).numSlots = t.numSlots := by
  induction k generalizing t scan with
  | zero => exact ⟨found, rfl, rfl⟩
  | succ k ih =>
    have moved : get (t.step (.advanceScan name)).scans name = some { scan with slot := scan.slot + 1 } := by
      change get (adjust t.scans name _) name = _
      rw [get_adjust, if_pos rfl, found]
      have here : scan.slot < t.numSlots := by omega
      simp [here, Scan.act, unseen, free scan.slot le_rfl, current]
    obtain ⟨reached, kept⟩ := ih moved unseen current
      (show scan.slot + 1 + k ≤ t.numSlots by omega) (fun i later => free i (Nat.le_of_succ_le later))
    exact ⟨reached.trans (by simp only [Nat.add_assoc, Nat.add_comm 1 k]), kept⟩

/-- Process 1 registers a reader at time 5 and another one at time 9. -/
def secondReader : List Step :=
  registration 0 1 5 ++ registration 1 1 9

theorem second_reader_takes_the_slot :
    let t := run Table.step (.new maxReaders) secondReader
    let scanned := run Table.step t (scanning maxReaders)
    (get t.readers 0).map (fun r => (r.snapshotTs, r.stage)) = some (5, .registered 0) ∧
    (get t.readers 1).map (fun r => (r.snapshotTs, r.stage)) = some (9, .registered 0) ∧
    (get scanned.scans 0).map (fun scan => (scan.slot, scan.minTs, scan.watching)) =
      some (maxReaders, 9, [1, 0]) ∧
    ¬t.Safe ∧ ¬scanned.Safe := by
  intro t scanned
  have first : get t.readers 0 = some ⟨1, 5, 0, .registered 0⟩ := by decide +kernel
  have second : get t.readers 1 = some ⟨1, 9, 0, .registered 0⟩ := by decide +kernel
  let begun := run Table.step t [.startScan 0, .advanceScan 0, .advanceScan 0]
  have seen : get begun.scans 0 = some ⟨1, false, 9, [1, 0]⟩ := by decide +kernel
  have free : ∀ i, 1 ≤ i → (begun.slots i).pid = 0 := by
    intro i later
    obtain ⟨i, rfl⟩ := Nat.exists_eq_add_of_le' later
    rfl
  have whole : scanned = run Table.step begun (List.replicate (maxReaders - 1) (.advanceScan 0)) :=
    run_append ..
  obtain ⟨finished, readers, numSlots⟩ := scan_passes_free_slots (maxReaders - 1) seen rfl
    (by decide +kernel) le_rfl free
  rw [← whole] at finished readers numSlots
  refine ⟨by rw [first]; rfl, by rw [second]; rfl, ?_, fun safe => ?_, fun safe => ?_⟩
  · rw [finished]
    rfl
  · exact absurd (safe.apart 0 1 _ _ 0 first second rfl rfl) (by decide)
  · have exceeded : 9 ≤ 5 :=
      safe.bounded 0 _ finished numSlots.le 0 (by decide) _ 0 ((congrArg (get · 0) readers).trans first) rfl
    exact absurd exceeded (by decide)

/-- Two processes register, a scan runs while the first one unregisters. -/
def twoProcesses : List Step :=
  registration 0 1 5 ++ .register 2 9 0 :: List.replicate 6 (.advance 1 0) ++
    [.startScan 0, .unregister 0] ++ List.replicate 3 (.advance 0 0) ++ List.replicate 3 (.advanceScan 0)

theorem two_processes_are_protected :
    let t := run Table.step (.new 2) twoProcesses
    Guarded Table.step Table.Lone (.new 2) twoProcesses ∧
    get t.readers 1 = some ⟨2, 9, 0, .registered 1⟩ ∧ get t.scans 0 = some ⟨2, false, 9, [1]⟩ ∧ t.Safe :=
  ⟨by decide +kernel, by decide +kernel, by decide +kernel,
    registered_snapshots_are_protected 2 twoProcesses (by decide +kernel)⟩

end Runs
end ReaderTable
