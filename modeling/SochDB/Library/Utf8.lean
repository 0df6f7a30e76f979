import Mathlib

/-!
UTF-8 text as byte strings. A reader keeps how many continuation bytes are owed and the
bounds of the next one; a byte string is text when the reader ends between characters.
-/
namespace Utf8
open List

structure Owed where
  count : Nat
  low : UInt8
  high : UInt8
  deriving DecidableEq, Repr

def between : Owed := ⟨0, 0x80, 0xBF⟩

/-- The first byte of a character. Overlong forms, surrogates and values past U+10FFFF
    are excluded by the bounds of the second byte. -/
def lead (b : UInt8) : Option Owed :=
  if b < 0x80 then some between
  else if b < 0xC2 then none
  else if b < 0xE0 then some ⟨1, 0x80, 0xBF⟩
  else if b = 0xE0 then some ⟨2, 0xA0, 0xBF⟩
  else if b = 0xED then some ⟨2, 0x80, 0x9F⟩
  else if b < 0xF0 then some ⟨2, 0x80, 0xBF⟩
  else if b = 0xF0 then some ⟨3, 0x90, 0xBF⟩
  else if b < 0xF4 then some ⟨3, 0x80, 0xBF⟩
  else if b = 0xF4 then some ⟨3, 0x80, 0x8F⟩
  else none

def accept (owed : Owed) (b : UInt8) : Option Owed :=
  match owed.count with
  | 0 => lead b
  | count + 1 => if owed.low ≤ b ∧ b ≤ owed.high then some ⟨count, 0x80, 0xBF⟩ else none

def isUtf8 (bytes : List UInt8) : Bool := decide (bytes.foldlM accept between = some between)

theorem isUtf8_append {a b : List UInt8} (first : isUtf8 a = true) (second : isUtf8 b = true) :
    isUtf8 (a ++ b) = true := by
  simp only [isUtf8, decide_eq_true_eq] at first second ⊢
  rw [foldlM_append, first]
  exact second

theorem isUtf8_ascii {bytes : List UInt8} (ascii : ∀ b ∈ bytes, b < 0x80) : isUtf8 bytes = true := by
  simp only [isUtf8, decide_eq_true_eq]
  induction bytes with
  | nil => rfl
  | cons b bytes ih =>
    have first : accept between b = some between := if_pos (ascii b mem_cons_self)
    rw [foldlM_cons, first]
    exact ih fun c member => ascii c (mem_cons_of_mem b member)

/-- Inside a character only continuation bytes are taken, and none of these is ASCII. -/
structure Settled (owed : Owed) : Prop where
  high_bit : 0x80 ≤ owed.low
  whole : owed.count = 0 → owed = between

theorem accept_settled {owed next : Owed} {b : UInt8} (accepted : accept owed b = some next) :
    Settled next := by
  unfold accept at accepted
  split at accepted
  · unfold lead at accepted
    repeat' split at accepted
    all_goals first
      | (cases accepted
         exact ⟨by decide, by decide⟩)
      | cases accepted
  · split at accepted
    · cases accepted
      refine ⟨UInt8.le_refl _, ?_⟩
      intro done
      subst done
      rfl
    · cases accepted

theorem foldlM_settled {bytes : List UInt8} {owed next : Owed} (settled : Settled owed)
    (read : bytes.foldlM accept owed = some next) : Settled next := by
  induction bytes generalizing owed with
  | nil =>
    cases read
    exact settled
  | cons b bytes ih =>
    rw [foldlM_cons] at read
    obtain ⟨middle, accepted, rest⟩ := Option.bind_eq_some_iff.mp read
    exact ih (accept_settled accepted) rest

theorem isUtf8_cut {before after : List UInt8} {b : UInt8} (ascii : b < 0x80)
    (valid : isUtf8 (before ++ b :: after) = true) : isUtf8 before = true ∧ isUtf8 after = true := by
  simp only [isUtf8, decide_eq_true_eq] at valid ⊢
  rw [foldlM_append] at valid
  obtain ⟨middle, read, rest⟩ := Option.bind_eq_some_iff.mp valid
  have settled : Settled middle := foldlM_settled ⟨by decide, fun _ => rfl⟩ read
  rw [foldlM_cons] at rest
  obtain ⟨next, accepted, rest⟩ := Option.bind_eq_some_iff.mp rest
  have whole : middle.count = 0 := by
    by_contra inside
    obtain ⟨count, more⟩ := Nat.exists_eq_succ_of_ne_zero inside
    have taken : middle.low ≤ b := by
      by_contra low
      simp [accept, more, low] at accepted
    exact absurd (UInt8.le_trans settled.high_bit taken) (UInt8.not_le.mpr ascii)
  have start := settled.whole whole
  subst start
  have ends : next = between := by
    have first : accept between b = some between := if_pos ascii
    rw [first] at accepted
    cases accepted
    rfl
  subst ends
  exact ⟨read, rest⟩

theorem isUtf8_splitOn {sep : UInt8} (ascii : sep < 0x80) {bytes : List UInt8}
    (valid : isUtf8 bytes = true) : ∀ piece ∈ bytes.splitOn sep, isUtf8 piece = true := by
  induction size : bytes.length using Nat.strong_induction_on generalizing bytes with
  | _ n ih =>
    by_cases cut : sep ∈ bytes
    · obtain ⟨before, after, rfl, plain⟩ := eq_append_cons_of_mem cut
      obtain ⟨first, rest⟩ := isUtf8_cut ascii valid
      rw [splitOn_append_cons_self, splitOn_eq_singleton plain]
      intro piece member
      rcases mem_append.mp member with here | later
      · rw [mem_singleton.mp here]
        exact first
      · refine ih after.length ?_ rest rfl piece later
        rw [← size, length_append, length_cons]
        omega
    · rw [splitOn_eq_singleton cut]
      intro piece member
      rw [mem_singleton.mp member]
      exact valid

/-- U+FFFD. -/
def replacement : List UInt8 := [0xEF, 0xBF, 0xBD]

/-- `String::from_utf8_lossy`: every longest start of a character that does not go on as
    one, and every byte that starts none, is replaced. -/
def repair (pending : List UInt8) (owed : Owed) : List UInt8 → List UInt8
  | [] => if pending = [] then [] else replacement
  | b :: rest =>
    match accept owed b with
    | some next =>
      if next.count = 0 then pending ++ b :: repair [] between rest
      else repair (pending ++ [b]) next rest
    | none =>
      (if pending = [] then [] else replacement) ++
        match lead b with
        | some next => if next.count = 0 then b :: repair [] between rest else repair [b] next rest
        | none => replacement ++ repair [] between rest

theorem isUtf8_gap (pending : List UInt8) :
    isUtf8 (if pending = [] then [] else replacement) = true := by
  split <;> decide

theorem isUtf8_repair {pending : List UInt8} {owed : Owed} (bytes : List UInt8)
    (read : pending.foldlM accept between = some owed) : isUtf8 (repair pending owed bytes) = true := by
  have start : Settled between := ⟨by decide, fun _ => rfl⟩
  induction bytes generalizing pending owed with
  | nil => exact isUtf8_gap pending
  | cons b rest ih =>
    unfold repair
    split
    · rename_i next accepted
      have reads : (pending ++ [b]).foldlM accept between = some next := by
        rw [foldlM_append, read]
        simp [accepted]
      split
      · rename_i done
        have whole : isUtf8 (pending ++ [b]) = true := by
          rw [isUtf8, decide_eq_true_eq, reads, (foldlM_settled start reads).whole done]
        rw [append_cons]
        exact isUtf8_append whole (ih rfl)
      · exact ih reads
    · refine isUtf8_append (isUtf8_gap pending) ?_
      split
      · rename_i next led
        have reads : [b].foldlM accept between = some next := by
          simp [accept, between, led]
        split
        · rename_i done
          have whole : isUtf8 [b] = true := by
            rw [isUtf8, decide_eq_true_eq, reads, (foldlM_settled start reads).whole done]
          exact isUtf8_append whole (ih rfl)
        · exact ih reads
      · exact isUtf8_append (by decide) (ih rfl)

structure Str where
  bytes : List UInt8
  valid : isUtf8 bytes = true
  deriving DecidableEq

namespace Str

theorem ext_bytes {a b : Str} (same : a.bytes = b.bytes) : a = b := by
  cases a
  cases b
  cases same
  rfl

def append (a b : Str) : Str := ⟨a.bytes ++ b.bytes, isUtf8_append a.valid b.valid⟩

def empty : Str := ⟨[], rfl⟩

/-- The string with the given characters, which are taken to be in the ASCII range. -/
def ascii (s : String) : Str where
  bytes := s.toList.map fun c => UInt8.ofNat (c.toNat % 128)
  valid := by
    apply isUtf8_ascii
    intro b member
    obtain ⟨c, _, rfl⟩ := List.mem_map.mp member
    have low : c.toNat % 128 < 128 := Nat.mod_lt _ (by omega)
    rw [UInt8.lt_iff_toNat_lt, UInt8.toNat_ofNat_of_lt' (by
      rw [UInt8.size]
      omega)]
    exact low

def display (s : Str) : String := (String.fromUTF8? ⟨s.bytes.toArray⟩).getD ""

def fromUtf8 (bytes : List UInt8) : Option Str :=
  if valid : isUtf8 bytes = true then some ⟨bytes, valid⟩ else none

theorem fromUtf8_some {bytes : List UInt8} {s : Str} : fromUtf8 bytes = some s ↔ bytes = s.bytes := by
  unfold fromUtf8
  constructor
  · intro read
    split at read
    · cases read
      rfl
    · cases read
  · rintro rfl
    rw [dif_pos s.valid]

def split (s : Str) (sep : UInt8) : List Str := (s.bytes.splitOn sep).filterMap fromUtf8

theorem split_bytes (s : Str) {sep : UInt8} (ascii : sep < 0x80) :
    (s.split sep).map bytes = s.bytes.splitOn sep := by
  have texts : ∀ piece ∈ s.bytes.splitOn sep, (fromUtf8 piece).map bytes = some piece := by
    intro piece member
    rw [fromUtf8, dif_pos (isUtf8_splitOn ascii s.valid piece member)]
    rfl
  rw [split, map_filterMap, filterMap_congr texts, filterMap_some]

def join (sep : Str) : List Str → Str
  | [] => empty
  | [s] => s
  | s :: rest => (s.append sep).append (join sep rest)

def fromUtf8Lossy (bytes : List UInt8) : Str := ⟨repair [] between bytes, isUtf8_repair bytes rfl⟩

end Str
end Utf8
