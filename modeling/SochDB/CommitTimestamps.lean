import SochDB.Library.Runs
import SochDB.Library.SplitWords

/-!
Commit timestamps of the concurrent store: milliseconds in the upper 48 bits of a word and
a counter in the lower 16, which stays at its largest value instead of carrying.
-/
namespace CommitTimestamps
open Runs SplitWords

def saturatingAdd (counter : UInt16) : UInt16 := if counter = 0xFFFF then counter else counter + 1

/-- One call, from the word that its swap replaces and its clock reading. -/
def allocateNext (last physicalNow : UInt64) : UInt64 :=
  let lastPhys := last >>> 16
  let lastLog := (last &&& 0xFFFF).toUInt16
  let newPhys := if lastPhys < physicalNow then physicalNow else lastPhys
  let newLog := if lastPhys < physicalNow then 0 else saturatingAdd lastLog
  newPhys <<< 16 ||| newLog.toUInt64

def allocateAll (last : UInt64) : List UInt64 → List UInt64
  | [] => []
  | now :: later => allocateNext last now :: allocateAll (allocateNext last now) later

/-- The clock has moved on, also in the 48 bits that are kept of it, or else the counter
    has not reached its last value. -/
def Advances (last physicalNow : UInt64) : Prop :=
  if last >>> 16 < physicalNow then last >>> 16 < physicalNow % 0x1000000000000
  else last &&& 0xFFFF ≠ 0xFFFF

theorem toNat_saturatingAdd (counter : UInt16) :
    (saturatingAdd counter).toNat = min 65535 (counter.toNat + 1) := by
  have range := counter.toNat_lt
  unfold saturatingAdd
  split
  · subst counter
    rfl
  · rename_i other
    have below : counter.toNat ≠ (0xFFFF : UInt16).toNat := mt UInt16.toNat_inj.mp other
    change counter.toNat ≠ 65535 at below
    rw [UInt16.toNat_add, UInt16.toNat_one]
    omega

theorem toNat_allocateNext (last now : UInt64) :
    (allocateNext last now).toNat =
      if last.toNat / 65536 < now.toNat then now.toNat % 2 ^ 48 * 65536
      else last.toNat / 65536 * 65536 + min 65535 (last.toNat % 65536 + 1) := by
  have range := last.toNat_lt
  have packing (phys : UInt64) (log : UInt16) :
      (phys <<< 16 ||| log.toUInt64).toNat = phys.toNat % 2 ^ 48 * 65536 + log.toNat :=
    toNat_packed phys log.toNat_lt
  simp only [allocateNext, packing, UInt64.lt_iff_toNat_lt, toNat_upper]
  split
  · rw [UInt16.toNat_zero, Nat.add_zero]
  · have counter : (last &&& 0xFFFF).toUInt16.toNat = last.toNat % 65536 := by
      rw [UInt64.toNat_toUInt16, toNat_lower, Nat.mod_mod]
    rw [toNat_saturatingAdd, toNat_upper, counter]
    omega

theorem lt_allocateNext_iff (last now : UInt64) :
    last < allocateNext last now ↔ Advances last now := by
  have range := last.toNat_lt
  have full : last &&& 0xFFFF ≠ 0xFFFF ↔ last.toNat % 65536 ≠ 65535 := by
    rw [ne_eq, ← UInt64.toNat_inj, toNat_lower]
    rfl
  have kept : (now % 0x1000000000000).toNat = now.toNat % 2 ^ 48 := UInt64.toNat_mod _ _
  simp only [Advances, full, UInt64.lt_iff_toNat_lt, toNat_allocateNext, toNat_upper, kept]
  split <;> omega

theorem increasing_iff_advances (last first : UInt64) (later : List UInt64) :
    (allocateAll last (first :: later)).IsChain (· < ·) ↔
      Guarded allocateNext Advances (allocateNext last first) later := by
  rw [allocateAll]
  generalize allocateNext last first = cell
  induction later generalizing cell with
  | nil => simp [allocateAll, Guarded]
  | cons now later ih =>
    rw [allocateAll, List.isChain_cons_cons, ih, lt_allocateNext_iff, Guarded]

/-- While the clock does not pass the word's milliseconds, the counter counts the calls. -/
theorem counter_counts (ms now : UInt64) (n : Nat) (back : now.toNat ≤ ms.toNat)
    (small : ms.toNat < 2 ^ 48) (room : n ≤ 65535) :
    (run allocateNext (ms <<< 16) (List.replicate n now)).toNat = ms.toNat * 65536 + n := by
  induction n with
  | zero => rw [List.replicate_zero, run_nil, toNat_shifted, Nat.mod_eq_of_lt small, Nat.add_zero]
  | succ n ih =>
    rw [List.replicate_succ', run_append, run_cons, run_nil, toNat_allocateNext, ih (by omega),
      if_neg (by omega)]
    omega

theorem full_counter_repeats {full : UInt64} (now : UInt64) (ms : Nat) (counted : full.toNat = ms * 65536 + 65535)
    (back : now.toNat ≤ ms) : allocateNext full now = full := by
  rw [← UInt64.toNat_inj, toNat_allocateNext, if_neg (by omega)]
  omega

theorem clock_set_back_repeats :
    let now : UInt64 := 1700000000000
    let full := run allocateNext ((now + 1) <<< 16) (List.replicate 65535 now)
    allocateAll full [now, now] = [full, full] ∧
      ¬(allocateAll full [now, now]).IsChain (· < ·) := by
  intro now full
  have counted : full.toNat = 1700000000001 * 65536 + 65535 :=
    counter_counts (now + 1) now 65535 (by decide) (by decide) le_rfl
  have again := full_counter_repeats now 1700000000001 counted (by decide)
  simp [allocateAll, again]

end CommitTimestamps
