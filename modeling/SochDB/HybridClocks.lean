import SochDB.Library.Runs
import SochDB.Library.SplitWords

/-!
The hybrid logical clock: microseconds in the upper 48 bits of a word and a counter in the
lower 16, moved on by the next and receive loops.
-/
namespace HybridClocks
open Runs SplitWords UInt64

def maxDriftUs : UInt64 := 1000000

def physicalTime (ts : UInt64) : UInt64 := ts >>> 16

/-- What a turn of the next loop wants to swap in; without a value the turn only yields. -/
def candidate (physical last lastPhysical : UInt64) : Option UInt64 :=
  if lastPhysical < physical then some (max (physical <<< 16) (last + 1))
  else
    let logical := (last &&& 0xFFFF) + 1
    if 0xFFFF < logical then none
    else some (max (last &&& ~~~(0xFFFF : UInt64) ||| logical) (last + 1))

def tooFar (physical remoteTs : UInt64) : Bool := physical + maxDriftUs < remoteTs >>> 16

/-- What a turn of the receive loop wants to swap in. -/
def offer (physical last remoteTs : UInt64) : UInt64 :=
  if tooFar physical remoteTs then max ((physical + maxDriftUs) <<< 16) (last + 1) else remoteTs

variable {physical last lastPhysical ts : UInt64}

theorem candidate_cases
    (wanted : candidate physical last lastPhysical = some ts) :
    lastPhysical < physical ∧ ts = max (physical <<< 16) (last + 1) ∨
      physical ≤ lastPhysical ∧ last.toNat % 65536 < 65535 ∧ ts.toNat = last.toNat + 1 := by
  simp only [candidate] at wanted
  split at wanted
  · exact .inl ⟨‹_›, (Option.some.inj wanted).symm⟩
  · rename_i behind
    refine .inr ⟨UInt64.not_lt.mp behind, ?_⟩
    have range := last.toNat_lt
    have counter : ((last &&& 0xFFFF) + 1).toNat = last.toNat % 65536 + 1 := by
      rw [toNat_succ (by rw [toNat_lower]; omega), toNat_lower]
    split at wanted
    · cases wanted
    · rename_i room
      rw [UInt64.not_lt, UInt64.le_iff_toNat_le, counter] at room
      change last.toNat % 65536 + 1 ≤ 65535 at room
      have kept : (last &&& ~~~(0xFFFF : UInt64)).toNat = last.toNat / 65536 * 65536 := by
        rw [upper_kept, toNat_shifted, toNat_upper]
        omega
      refine ⟨by omega, ?_⟩
      rw [← Option.some.inj wanted, toNat_max, toNat_joined (by rw [kept]; omega) (by rw [counter]; omega),
        kept, counter, toNat_succ (by omega)]
      omega

/-- The clock with the latest reading taken and, newest first, the readings and values of
    the next calls that have returned. -/
structure Session where
  lastTs : UInt64
  lastPhysical : UInt64
  latest : UInt64
  issued : List (UInt64 × UInt64)

def Session.new (physical : UInt64) : Session := ⟨physical <<< 16, physical, physical, []⟩

/-- One turn of a call's loop, with its reading and whether its weak swap goes through.
    A turn that returns before the clock is read repeats the latest reading. -/
inductive Turn
  | next (reading : UInt64) (swaps : Bool)
  | receive (remoteTs reading : UInt64) (swaps : Bool)

def Turn.reading : Turn → UInt64
  | .next reading _ => reading
  | .receive _ reading _ => reading

/-- What a turn leaves when no other call runs beside it. -/
def turn (s : Session) : Turn → Session
  | .next reading swaps =>
    match candidate reading s.lastTs s.lastPhysical, swaps with
    | some ts, true =>
      ⟨ts, if s.lastPhysical < reading then reading else s.lastPhysical, reading,
        (reading, ts) :: s.issued⟩
    | _, _ => { s with latest := reading }
  | .receive remoteTs reading swaps =>
    if remoteTs ≤ s.lastTs then s
    else if swaps then
      { s with
        lastTs := offer reading s.lastTs remoteTs
        lastPhysical :=
          if tooFar reading remoteTs then s.lastPhysical else max s.lastPhysical (remoteTs >>> 16)
        latest := reading }
    else { s with latest := reading }

def Steady (s : Session) (t : Turn) : Prop :=
  s.latest ≤ t.reading ∧ t.reading.toNat < 2 ^ 60

/-- The reading and the drift limit fit in the upper part of a word, and the clock does not
    stand on the last word that the limit allows. -/
def Fits (s : Session) (t : Turn) : Prop :=
  t.reading.toNat + 1000000 < 2 ^ 48 ∧
    s.lastTs.toNat ≠ (t.reading.toNat + 1000000) * 65536 + 65535

instance steadyDecidable (s : Session) (t : Turn) : Decidable (Steady s t) :=
  inferInstanceAs (Decidable (_ ∧ _))

instance fitsDecidable (s : Session) (t : Turn) : Decidable (Fits s t) :=
  inferInstanceAs (Decidable (_ ∧ _))

def Near (reading ts : UInt64) : Prop :=
  reading.toNat ≤ (physicalTime ts).toNat ∧ (physicalTime ts).toNat ≤ reading.toNat + 1000000

instance nearDecidable (reading ts : UInt64) : Decidable (Near reading ts) :=
  inferInstanceAs (Decidable (_ ∧ _))

structure Session.Sound (s : Session) : Prop where
  started : s.lastPhysical.toNat ≤ s.lastTs.toNat / 65536
  bounded : s.lastTs.toNat / 65536 ≤ s.latest.toNat + 1000000
  near : ∀ call ∈ s.issued, Near call.1 call.2

theorem drifted {reading : UInt64} (fits : reading.toNat + 1000000 < 2 ^ 48) :
    (reading + maxDriftUs).toNat = reading.toNat + 1000000 := by
  have drift : maxDriftUs.toNat = 1000000 := rfl
  rw [UInt64.toNat_add, drift]
  exact Nat.mod_eq_of_lt (by omega)

theorem turn_sound {s : Session} {t : Turn} (sound : s.Sound) (steady : Steady s t)
    (fits : Fits s t) : (turn s t).Sound := by
  obtain ⟨started, bounded, near⟩ := sound
  obtain ⟨ahead, -⟩ := steady
  obtain ⟨small, room⟩ := fits
  rw [le_iff_toNat_le] at ahead
  have waits : Session.Sound { s with latest := t.reading } := ⟨started, by dsimp only; omega, near⟩
  have succ : (s.lastTs + 1).toNat = s.lastTs.toNat + 1 := toNat_succ (by omega)
  cases t with
  | next reading swaps =>
    dsimp only [Turn.reading] at ahead small room waits
    simp only [turn]
    split
    · rename_i ts wanted
      have low : reading.toNat ≤ ts.toNat / 65536 ∧ s.lastTs.toNat ≤ ts.toNat ∧
          ts.toNat / 65536 ≤ reading.toNat + 1000000 := by
        rcases candidate_cases wanted with ⟨-, ts_eq⟩ | ⟨seen, counter, ts_eq⟩
        · rw [ts_eq, toNat_max, toNat_shifted, succ, Nat.mod_eq_of_lt (by omega)]
          omega
        · rw [le_iff_toNat_le] at seen
          omega
      refine ⟨?_, low.2.2, List.forall_mem_cons.mpr ⟨?_, near⟩⟩
      · dsimp only
        split <;> omega
      · rw [Near, physicalTime, toNat_upper]
        exact ⟨low.1, low.2.2⟩
    · exact waits
  | receive remoteTs reading swaps =>
    dsimp only [Turn.reading] at ahead small room waits
    simp only [turn]
    split
    · exact ⟨started, bounded, near⟩
    · rename_i newer
      rw [UInt64.not_le, UInt64.lt_iff_toNat_lt] at newer
      split
      · have limit := drifted small
        simp only [offer]
        split
        · refine ⟨?_, ?_, near⟩ <;> dsimp only <;>
            rw [toNat_max, toNat_shifted, succ, limit, Nat.mod_eq_of_lt small] <;> omega
        · rename_i close
          rw [tooFar, decide_eq_true_iff, lt_iff_toNat_lt, limit, toNat_upper] at close
          refine ⟨?_, by dsimp only; omega, near⟩
          dsimp only
          rw [toNat_max, toNat_upper]
          omega
      · exact waits

theorem timestamps_near_readings (start : UInt64) (turns : List Turn)
    (small : start.toNat + 1000000 < 2 ^ 48) (steady : Guarded turn Steady (Session.new start) turns)
    (fits : Guarded turn Fits (Session.new start) turns) :
    ∀ call ∈ (run turn (Session.new start) turns).issued, Near call.1 call.2 := by
  refine (Guarded.preserves (fun s t sound meets => turn_sound sound meets.1 meets.2) ?_
    (steady.and fits)).near
  have begun : (Session.new start).lastTs.toNat = start.toNat * 65536 := by
    rw [Session.new, toNat_shifted, Nat.mod_eq_of_lt (by omega)]
  refine ⟨?_, ?_, by simp [Session.new]⟩
  · rw [begun, Nat.mul_div_cancel _ (by omega)]
    exact le_rfl
  · rw [begun, Nat.mul_div_cancel _ (by omega)]
    exact Nat.le_add_right _ _

theorem hostile_remote_is_capped :
    let turns := [.next 1001 true, .receive 0xFFFFFFFFFFFFFFFF 1001 true, .next 1002 true]
    (run turn (Session.new 1000) turns).issued = [(1002, 65601601537), (1001, 65601536)] ∧
      ∀ call ∈ (run turn (Session.new 1000) turns).issued, Near call.1 call.2 := by
  intro turns
  exact ⟨by decide +kernel, timestamps_near_readings 1000 turns (by decide) (by decide +kernel)
    (by decide +kernel)⟩

theorem readings_lost_or_exceeded :
    let today : UInt64 := 1763200000000000
    let first := [Turn.next (today + 1) true]
    let edge : UInt64 := (1001000 : UInt64) <<< 16 ||| 0xFFFF
    let second := [Turn.receive edge 1000 true, .receive 0xFFFFFFFFFFFFFFFF 1000 true, .next 1000 true]
    Guarded turn Steady (Session.new today) first ∧
      (run turn (Session.new today) first).issued.map (fun call => (call.1, physicalTime call.2)) =
        [(today + 1, 74350139736065)] ∧
      Guarded turn Steady (Session.new 1000) second ∧
      (run turn (Session.new 1000) second).issued.map (fun call => (call.1, physicalTime call.2)) =
        [(1000, 1001001)] := by
  decide +kernel

/-- Where a thread stands in a call, with the values that the call has loaded. A next call
    also remembers what had been heard when it began. -/
inductive Phase
  | idle
  | reading (heard : List UInt64)
  | loading (heard : List UInt64) (physical : UInt64)
  | comparing (heard : List UInt64) (physical last : UInt64)
  | swapping (heard : List UInt64) (physical last lastPhysical : UInt64)
  | storing (physical : UInt64)
  | receiving (remoteTs : UInt64)
  | checking (remoteTs last : UInt64)
  | offering (remoteTs last physical : UInt64)
  | raising (remoteTs : UInt64)

/-- The two atomics and the threads. Kept beside them are the values that next returns, in
    the order of their swaps and the newest first, the timestamps of the receive calls that
    have returned without capping, and whether an addition has overflowed. -/
structure Threads where
  lastTs : UInt64
  lastPhysical : UInt64
  phase : Nat → Phase
  issued : List (UInt64 × List UInt64)
  heard : List UInt64
  overflowed : Bool

def Threads.new (physical : UInt64) : Threads :=
  ⟨physical <<< 16, physical, fun _ => .idle, [], [], false⟩

inductive Event
  | next
  | receive (remoteTs : UInt64)
  | proceed (reading : UInt64) (spurious : Bool)

def Event.reading : Event → UInt64
  | .proceed physical _ => physical
  | _ => 0

def Threads.go (s : Threads) (thread : Nat) (phase : Phase) : Threads :=
  { s with phase := Function.update s.phase thread phase }

def Threads.add (s : Threads) (wraps : Bool) : Threads := { s with overflowed := s.overflowed || wraps }

/-- A swap that fails, for another value or for no reason, sends the call back to its loop. -/
def act (s : Threads) (event : Nat × Event) : Threads :=
  let thread := event.1
  match s.phase thread, event.2 with
  | .idle, .next => s.go thread (.reading s.heard)
  | .idle, .receive remoteTs => s.go thread (.receiving remoteTs)
  | .reading heard, .proceed physical _ => s.go thread (.loading heard physical)
  | .loading heard physical, .proceed _ _ => s.go thread (.comparing heard physical s.lastTs)
  | .comparing heard physical last, .proceed _ _ =>
    s.go thread (.swapping heard physical last s.lastPhysical)
  | .swapping heard physical last lastPhysical, .proceed _ spurious =>
    match candidate physical last lastPhysical with
    | none => s.go thread (.reading heard)
    | some ts =>
      let s := s.add (last == 0xFFFFFFFFFFFFFFFF)
      if spurious ∨ s.lastTs ≠ last then s.go thread (.reading heard)
      else { s with lastTs := ts, issued := (ts, heard) :: s.issued }.go thread
        (if lastPhysical < physical then .storing physical else .idle)
  | .storing physical, .proceed _ _ => { s with lastPhysical := physical }.go thread .idle
  | .receiving remoteTs, .proceed _ _ =>
    if remoteTs ≤ s.lastTs then { s with heard := remoteTs :: s.heard }.go thread .idle
    else s.go thread (.checking remoteTs s.lastTs)
  | .checking remoteTs last, .proceed physical _ => s.go thread (.offering remoteTs last physical)
  | .offering remoteTs last physical, .proceed _ spurious =>
    let capped := tooFar physical remoteTs
    let s := s.add (physical + maxDriftUs < physical || capped && last == 0xFFFFFFFFFFFFFFFF)
    if spurious ∨ s.lastTs ≠ last then s.go thread (.receiving remoteTs)
    else { s with lastTs := offer physical last remoteTs }.go thread
      (if capped then .idle else .raising remoteTs)
  | .raising remoteTs, .proceed _ _ =>
    { s with lastPhysical := max s.lastPhysical (remoteTs >>> 16), heard := remoteTs :: s.heard }.go
      thread .idle
  | _, _ => s

/-- The clock does not stand on the last word of all, and the drift limit can be added to
    the reading. -/
def Roomy (s : Threads) (event : Nat × Event) : Prop :=
  s.lastTs < 0xFFFFFFFFFFFFFFFF ∧ event.2.reading ≤ event.2.reading + maxDriftUs

instance roomyDecidable (s : Threads) (event : Nat × Event) : Decidable (Roomy s event) :=
  inferInstanceAs (Decidable (_ ∧ _))

def Phase.Behind (top : UInt64) : Phase → Prop
  | .reading heard | .loading heard _ => ∀ r ∈ heard, r ≤ top
  | .comparing heard _ last | .swapping heard _ last _ => (∀ r ∈ heard, r ≤ top) ∧ last ≤ top
  | .checking remoteTs last => last ≤ top ∧ last < remoteTs
  | .offering remoteTs last physical =>
    last ≤ top ∧ last < remoteTs ∧ physical ≤ physical + maxDriftUs
  | .raising remoteTs => remoteTs ≤ top
  | _ => True

theorem Phase.Behind.mono {phase : Phase} {low high : UInt64} (behind : phase.Behind low)
    (higher : low ≤ high) : phase.Behind high := by
  cases phase <;> grind [Phase.Behind]

structure Threads.Sound (s : Threads) : Prop where
  exact : s.overflowed = false
  increasing : s.issued.Pairwise fun newer older => older.1 < newer.1
  covered : ∀ call ∈ s.issued, call.1 ≤ s.lastTs ∧ ∀ r ∈ call.2, r < call.1
  told : ∀ r ∈ s.heard, r ≤ s.lastTs
  threads : ∀ thread, (s.phase thread).Behind s.lastTs

variable {s : Threads}

theorem Threads.Sound.go (sound : s.Sound) {thread : Nat} {phase : Phase}
    (behind : phase.Behind s.lastTs) : (s.go thread phase).Sound := by
  refine ⟨sound.exact, sound.increasing, sound.covered, sound.told, fun other => ?_⟩
  by_cases same : other = thread
  · subst same
    simpa [Threads.go] using behind
  · simpa [Threads.go, same] using sound.threads other

theorem Threads.Sound.add (sound : s.Sound) {wraps : Bool} (exact : wraps = false) :
    (s.add wraps).Sound :=
  ⟨by simp [Threads.add, sound.exact, exact], sound.increasing, sound.covered, sound.told,
    sound.threads⟩

theorem Threads.Sound.rise (sound : s.Sound) {ts : UInt64} (higher : s.lastTs ≤ ts) :
    Threads.Sound { s with lastTs := ts } where
  exact := sound.exact
  increasing := sound.increasing
  covered call issued :=
    ⟨UInt64.le_trans (sound.covered call issued).1 higher, (sound.covered call issued).2⟩
  told r heard := UInt64.le_trans (sound.told r heard) higher
  threads thread := (sound.threads thread).mono higher

theorem Threads.Sound.issue (sound : s.Sound) {ts : UInt64} {heard : List UInt64}
    (higher : s.lastTs < ts) (told : ∀ r ∈ heard, r ≤ s.lastTs) :
    Threads.Sound { s with lastTs := ts, issued := (ts, heard) :: s.issued } where
  exact := sound.exact
  increasing := List.pairwise_cons.mpr
    ⟨fun call issued => UInt64.lt_of_le_of_lt (sound.covered call issued).1 higher, sound.increasing⟩
  covered := List.forall_mem_cons.mpr
    ⟨⟨UInt64.le_refl ts, fun r known => UInt64.lt_of_le_of_lt (told r known) higher⟩,
      (sound.rise (UInt64.le_of_lt higher)).covered⟩
  told := (sound.rise (UInt64.le_of_lt higher)).told
  threads := (sound.rise (UInt64.le_of_lt higher)).threads

/-- The other atomic plays no part in the order. -/
theorem Threads.Sound.store (sound : s.Sound) (physical : UInt64) :
    Threads.Sound { s with lastPhysical := physical } :=
  ⟨sound.exact, sound.increasing, sound.covered, sound.told, sound.threads⟩

theorem Threads.Sound.hear (sound : s.Sound) {r : UInt64} (reached : r ≤ s.lastTs) :
    Threads.Sound { s with heard := r :: s.heard } :=
  ⟨sound.exact, sound.increasing, sound.covered, List.forall_mem_cons.mpr ⟨reached, sound.told⟩,
    sound.threads⟩

theorem lt_candidate
    (wanted : candidate physical last lastPhysical = some ts) (room : last < 0xFFFFFFFFFFFFFFFF) :
    last < ts := by
  rw [lt_iff_toNat_lt] at room ⊢
  rcases candidate_cases wanted with ⟨-, ts_eq⟩ | ⟨-, -, ts_eq⟩
  · rw [ts_eq, toNat_max, toNat_succ (Nat.lt_of_lt_of_le (Nat.succ_lt_succ room) (by decide))]
    omega
  · omega

theorem lt_offer {physical last remoteTs : UInt64} (newer : last < remoteTs)
    (room : last < 0xFFFFFFFFFFFFFFFF) : last < offer physical last remoteTs := by
  unfold offer
  split
  · rw [lt_iff_toNat_lt] at room ⊢
    rw [toNat_max, toNat_succ (Nat.lt_of_lt_of_le (Nat.succ_lt_succ room) (by decide))]
    omega
  · exact newer

theorem act_sound {event : Nat × Event} (sound : s.Sound) (roomy : Roomy s event) :
    (act s event).Sound := by
  obtain ⟨room, drift⟩ := roomy
  have behind {phase : Phase} (stands : s.phase event.1 = phase) : phase.Behind s.lastTs :=
    stands ▸ sound.threads event.1
  unfold act
  dsimp only
  split
  · exact sound.go sound.told
  · exact sound.go trivial
  · rename_i stands _
    have told := behind stands
    exact sound.go told
  · rename_i stands _
    have told := behind stands
    exact sound.go ⟨told, UInt64.le_refl _⟩
  · rename_i stands _
    have told := behind stands
    exact sound.go told
  · rename_i last lastPhysical _ spurious stands _
    obtain ⟨told, stale⟩ := behind stands
    have low := UInt64.lt_of_le_of_lt stale room
    split
    · exact sound.go told
    · have exact := sound.add (beq_false_of_ne (UInt64.ne_of_lt low))
      split
      · exact exact.go told
      · rename_i wanted swaps
        obtain rfl : s.lastTs = last := by
          by_contra other
          exact swaps (.inr other)
        refine (exact.issue (lt_candidate wanted room) told).go ?_
        split <;> trivial
  · exact (sound.store _).go trivial
  · split
    · exact (sound.hear ‹_›).go trivial
    · exact sound.go ⟨UInt64.le_refl _, UInt64.not_le.mp ‹_›⟩
  · rename_i stands read
    obtain ⟨stale, newer⟩ := behind stands
    rw [read] at drift
    exact sound.go ⟨stale, newer, drift⟩
  · rename_i remoteTs last physical _ spurious stands _
    obtain ⟨stale, newer, added⟩ := behind stands
    have low := UInt64.lt_of_le_of_lt stale room
    have fits : (decide (physical + maxDriftUs < physical) ||
        tooFar physical remoteTs && last == 0xFFFFFFFFFFFFFFFF) = false := by
      simp [UInt64.not_lt.mpr added, UInt64.ne_of_lt low]
    have exact := sound.add fits
    split
    · exact exact.go trivial
    · rename_i swaps
      obtain rfl : s.lastTs = last := by
        by_contra other
        exact swaps (.inr other)
      refine (exact.rise (UInt64.le_of_lt (lt_offer newer room))).go ?_
      split
      · trivial
      · rename_i close
        simp [Phase.Behind, offer, close]
  · rename_i remoteTs _ _ stands _
    have reached := behind stands
    have heard := (sound.hear reached).store (max s.lastPhysical (remoteTs >>> 16))
    exact heard.go trivial
  · exact sound

/-- In every interleaving whose steps are all roomy, the values of next increase in the order
    of their swaps, and each is above all that had been heard when its call began. -/
theorem clock_orders_events (start : UInt64) (events : List (Nat × Event))
    (roomy : Guarded act Roomy (Threads.new start) events) :
    let s := run act (Threads.new start) events
    (s.issued.Pairwise fun newer older => older.1 < newer.1) ∧ s.overflowed = false ∧
      ∀ call ∈ s.issued, ∀ r ∈ call.2, r < call.1 := by
  have fresh : (Threads.new start).Sound :=
    ⟨rfl, .nil, by simp [Threads.new], by simp [Threads.new], fun _ => trivial⟩
  have sound := Guarded.preserves (fun _ _ sound meets => act_sound sound meets) fresh roomy
  exact ⟨sound.increasing, sound.exact, fun call issued => (sound.covered call issued).2⟩

def receiveThenNext (remoteTs first second : UInt64) : List (Nat × Event) :=
  (0, .receive remoteTs) :: List.replicate 4 (0, .proceed first false) ++
    (1, .next) :: List.replicate 5 (1, .proceed second false)

theorem near_remote_is_passed :
    let s := run act (Threads.new 1000) (receiveThenNext 65601536 1001 1002)
    s.issued = [(65667072, [65601536])] ∧ ∀ call ∈ s.issued, ∀ r ∈ call.2, r < call.1 := by
  exact ⟨by decide +kernel, (clock_orders_events 1000 _ (by decide +kernel)).2.2⟩

theorem last_word_overflows :
    let today : UInt64 := 1763200000000000
    let s := run act (Threads.new today) (receiveThenNext 0xFFFFFFFFFFFFFFFF today (today + 1))
    tooFar today 0xFFFFFFFFFFFFFFFF = false ∧ s.overflowed = true ∧
      s.issued = [(4872610757742755840, [0xFFFFFFFFFFFFFFFF])] := by
  decide +kernel

end HybridClocks
