import Mathlib

/-!
Logs of self-delimiting frames. A codec reads back what it wrote whatever follows,
and reports end of file on every proper cut of one frame. From these laws alone,
scanning a log cut at any byte yields the records that lie wholly before the cut.
-/
namespace Framing
open List

structure Codec (α ε : Type) where
  encode : α → List UInt8
  read : List UInt8 → Except ε (α × List UInt8)
  Fits : α → Prop
  eof : ε
  read_nil : read [] = .error eof
  read_encode : ∀ a rest, Fits a → read (encode a ++ rest) = .ok (a, rest)
  read_torn : ∀ a n, Fits a → n < (encode a).length → read ((encode a).take n) = .error eof
  read_shrinks : ∀ bytes a rest, read bytes = .ok (a, rest) → rest.length < bytes.length

/-- One pass of a reader, with the records read and the error that ended it. The
    fuel bounds the number of records; `none` means that it ran out. -/
def readAll {α ε : Type} (read : List UInt8 → Except ε (α × List UInt8)) :
    Nat → List UInt8 → List α × Option ε
  | 0, _ => ([], none)
  | fuel + 1, bytes => match read bytes with
    | .error e => ([], some e)
    | .ok (a, rest) => (a :: (readAll read fuel rest).1, (readAll read fuel rest).2)

/-- Every successful read consumes input, so this much fuel is never used up. -/
def scan {α ε : Type} (read : List UInt8 → Except ε (α × List UInt8)) (bytes : List UInt8) :
    List α × Option ε :=
  readAll read (bytes.length + 1) bytes

section Reader
variable {α ε : Type} {read : List UInt8 → Except ε (α × List UInt8)}

theorem readAll_error {bytes : List UInt8} {e : ε} (stop : read bytes = .error e) (fuel : Nat) :
    readAll read (fuel + 1) bytes = ([], some e) := by
  simp [readAll, stop]

theorem readAll_ok {bytes rest : List UInt8} {a : α} (more : read bytes = .ok (a, rest))
    (fuel : Nat) :
    readAll read (fuel + 1) bytes = (a :: (readAll read fuel rest).1, (readAll read fuel rest).2) := by
  simp [readAll, more]

theorem readAll_fuel (shrinks : ∀ bytes a rest, read bytes = .ok (a, rest) → rest.length < bytes.length)
    {fuel more : Nat} {bytes : List UInt8} (enough : bytes.length < fuel)
    (also : bytes.length < more) : readAll read fuel bytes = readAll read more bytes := by
  induction fuel generalizing bytes more with
  | zero => omega
  | succ fuel ih =>
    cases more with
    | zero => omega
    | succ more =>
      cases step : read bytes with
      | error e => rw [readAll_error step, readAll_error step]
      | ok pair =>
        obtain ⟨a, rest⟩ := pair
        have smaller := shrinks bytes a rest step
        rw [readAll_ok step, readAll_ok step, @ih more rest (by omega) (by omega)]

theorem scan_error {bytes : List UInt8} {e : ε} (stop : read bytes = .error e) :
    scan read bytes = ([], some e) :=
  readAll_error stop _

theorem scan_ok (shrinks : ∀ bytes a rest, read bytes = .ok (a, rest) → rest.length < bytes.length)
    {bytes rest : List UInt8} {a : α} (more : read bytes = .ok (a, rest)) :
    scan read bytes = (a :: (scan read rest).1, (scan read rest).2) := by
  have smaller := shrinks bytes a rest more
  simp only [scan]
  rw [readAll_ok more, readAll_fuel shrinks smaller (Nat.lt_succ_self _)]

end Reader

namespace Codec
variable {α ε : Type} (c : Codec α ε)

def encodeAll (as : List α) : List UInt8 := (as.map c.encode).flatten

@[simp] theorem encodeAll_nil : c.encodeAll [] = [] := rfl

@[simp] theorem encodeAll_cons (a : α) (as : List α) :
    c.encodeAll (a :: as) = c.encode a ++ c.encodeAll as := rfl

@[simp] theorem encodeAll_append (as bs : List α) :
    c.encodeAll (as ++ bs) = c.encodeAll as ++ c.encodeAll bs := by
  simp [encodeAll]

/-- The records of a log whose last byte is at or before offset `n`, the first
    record starting at offset `start`. -/
def recordsWithin (n : Nat) : Nat → List α → List α
  | _, [] => []
  | start, a :: as =>
    (if start + (c.encode a).length ≤ n then [a] else []) ++
      recordsWithin n (start + (c.encode a).length) as

theorem scan_encode_append {a : α} (fits : c.Fits a) (rest : List UInt8) :
    scan c.read (c.encode a ++ rest) = (a :: (scan c.read rest).1, (scan c.read rest).2) :=
  scan_ok c.read_shrinks (c.read_encode a rest fits)

variable {as : List α}

theorem scan_encodeAll_append (fits : ∀ a ∈ as, c.Fits a) (rest : List UInt8) :
    scan c.read (c.encodeAll as ++ rest) = (as ++ (scan c.read rest).1, (scan c.read rest).2) := by
  induction as with
  | nil => simp
  | cons a as ih =>
    rw [encodeAll_cons, append_assoc, c.scan_encode_append (fits a (by simp)),
      ih (fun x hx => fits x (by simp [hx]))]
    rfl

theorem scan_encodeAll (fits : ∀ a ∈ as, c.Fits a) :
    scan c.read (c.encodeAll as) = (as, some c.eof) := by
  have whole := c.scan_encodeAll_append fits []
  rw [append_nil, scan_error c.read_nil, append_nil] at whole
  exact whole

theorem recordsWithin_none {n start : Nat} (past : n < start) :
    c.recordsWithin n start as = [] := by
  induction as generalizing start with
  | nil => rfl
  | cons a as ih =>
    rw [recordsWithin, if_neg (by omega), ih (by omega)]
    rfl

theorem mem_of_mem_recordsWithin {n start : Nat} {a : α}
    (member : a ∈ c.recordsWithin n start as) : a ∈ as := by
  induction as generalizing start with
  | nil => cases member
  | cons b as ih =>
    rw [recordsWithin, mem_append] at member
    rcases member with first | later
    · split at first
      · exact mem_cons.mpr (Or.inl (mem_singleton.mp first))
      · cases first
    · exact mem_cons_of_mem b (ih later)

theorem recordsWithin_mono {n m start : Nat} (earlier : n ≤ m) :
    c.recordsWithin n start as <+: c.recordsWithin m start as := by
  induction as generalizing start with
  | nil => exact prefix_refl _
  | cons a as ih =>
    simp only [recordsWithin]
    by_cases whole : start + (c.encode a).length ≤ n
    · rw [if_pos whole, if_pos (by omega)]
      exact prefix_append_right_inj [a] |>.mpr ih
    · rw [if_neg whole, c.recordsWithin_none (by omega)]
      exact nil_prefix

/-- A log cut after `n` bytes yields its whole records and then end of file. The
    induction carries the offset at which the remaining records start. -/
theorem scan_cut (fits : ∀ a ∈ as, c.Fits a) (start n : Nat) :
    scan c.read ((c.encodeAll as).take n) = (c.recordsWithin (start + n) start as, some c.eof) := by
  induction as generalizing start n with
  | nil =>
    rw [encodeAll_nil, take_nil]
    exact scan_error c.read_nil
  | cons a as ih =>
    have first : c.Fits a := fits a (by simp)
    have later : ∀ x ∈ as, c.Fits x := fun x hx => fits x (by simp [hx])
    rw [encodeAll_cons, recordsWithin]
    by_cases whole : (c.encode a).length ≤ n
    · have step := ih later (start + (c.encode a).length) (n - (c.encode a).length)
      have total : start + (c.encode a).length + (n - (c.encode a).length) = start + n := by omega
      rw [total] at step
      rw [take_append, take_of_length_le whole, c.scan_encode_append first, step,
        if_pos (by omega)]
      rfl
    · have torn := c.read_torn a n first (by omega)
      rw [take_append_of_le_length (by omega), scan_error torn, if_neg (by omega),
        c.recordsWithin_none (by omega)]
      rfl

end Codec
end Framing
