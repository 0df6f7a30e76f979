import Mathlib

/-!
Logs whose frames can be read at one position only. The reader knows the position from its
own count, so frames that were moved, repeated, left out or brought in from elsewhere stop
it at the first place where the log differs from a front part of the original.
-/
namespace PositionedFrames
open List

section Frames
variable {α : Type} (R : Nat → α → List UInt8 → Prop)

/-- The frames hold these values, each frame at its place, the first at `position`. -/
def InPlace : Nat → List α → List (List UInt8) → Prop
  | _, [], [] => True
  | position, a :: as, frame :: frames => R position a frame ∧ InPlace (position + 1) as frames
  | _, _, _ => False

variable {R} {S : Nat → α → List UInt8 → Prop} {position : Nat} {as : List α}
variable {frames : List (List UInt8)}

theorem InPlace.length (inPlace : InPlace R position as frames) : as.length = frames.length := by
  fun_induction InPlace R position as frames with
  | case1 => rfl
  | case2 position a as frame frames ih =>
    have rest := ih inPlace.2
    simp only [length_cons]
    omega
  | case3 => exact inPlace.elim

theorem InPlace.imp (implies : ∀ p a frame, R p a frame → S p a frame)
    (inPlace : InPlace R position as frames) : InPlace S position as frames := by
  fun_induction InPlace R position as frames with
  | case1 => trivial
  | case2 position a as frame frames ih => exact ⟨implies position a frame inPlace.1, ih inPlace.2⟩
  | case3 => exact inPlace.elim

variable (inPlace : InPlace R position as frames)
include inPlace

theorem InPlace.append {bs : List α} {more : List (List UInt8)}
    (behind : InPlace R (position + as.length) bs more) :
    InPlace R position (as ++ bs) (frames ++ more) := by
  fun_induction InPlace R position as frames with
  | case1 => simpa using behind
  | case2 position a as frame frames ih =>
    refine ⟨inPlace.1, ih inPlace.2 ?_⟩
    have shifted : position + 1 + as.length = position + (as.length + 1) := by omega
    rw [shifted]
    exact behind
  | case3 => exact inPlace.elim

theorem InPlace.at_index {i : Nat} {frame : List UInt8} (there : frames[i]? = some frame) :
    ∃ a, R (position + i) a frame := by
  fun_induction InPlace R position as frames generalizing i with
  | case1 => simp at there
  | case2 position a as first frames ih =>
    cases i with
    | zero =>
      obtain rfl : first = frame := by simpa using there
      exact ⟨a, inPlace.1⟩
    | succ i =>
      obtain ⟨b, found⟩ := ih inPlace.2 (by simpa using there : frames[i]? = some frame)
      have shifted : position + 1 + i = position + (i + 1) := by omega
      rw [shifted] at found
      exact ⟨b, found⟩
  | case3 => exact inPlace.elim

theorem InPlace.front {front : List (List UInt8)} (first : front <+: frames) :
    InPlace R position (as.take front.length) front := by
  induction front generalizing position as frames with
  | nil => trivial
  | cons frame front ih =>
    obtain ⟨behind, rfl⟩ := first
    cases as with
    | nil => exact inPlace.elim
    | cons a as => exact ⟨inPlace.1, ih inPlace.2 (prefix_append front behind)⟩

end Frames

section Reader
variable {α ε : Type} (read : Nat → List UInt8 → Except ε (α × List UInt8)) (eof : ε)

def Reads (position : Nat) (a : α) (frame : List UInt8) : Prop :=
  frame ≠ [] ∧ ∀ rest, read position (frame ++ rest) = .ok (a, rest)

/-- Whatever follows the frame, the reader reports an error that is not the end of file. -/
def Refuses (position : Nat) (frame : List UInt8) : Prop :=
  ∃ e, e ≠ eof ∧ ∀ rest, read position (frame ++ rest) = .error e

variable [DecidableEq ε]

/-- Read to the end. The end of file ends the loop, every other error is passed on. -/
def readFrom : Nat → Nat → List UInt8 → Except ε (List α)
  | 0, _, _ => .ok []
  | fuel + 1, position, bytes => match read position bytes with
    | .error e => if e = eof then .ok [] else .error e
    | .ok (a, rest) => match readFrom fuel (position + 1) rest with
      | .error e => .error e
      | .ok as => .ok (a :: as)

/-- Every frame has a byte, so this much fuel is enough. -/
def readAll (bytes : List UInt8) : Except ε (List α) := readFrom read eof (bytes.length + 1) 0 bytes

variable {read} {eof}

omit [DecidableEq ε] in
theorem length_le_of_reads {position : Nat} {as : List α} {frames : List (List UInt8)}
    (inPlace : InPlace (Reads read) position as frames) : frames.length ≤ frames.flatten.length := by
  fun_induction InPlace (Reads read) position as frames with
  | case1 => exact Nat.le_refl _
  | case2 position a as frame frames ih =>
    have nonempty : 0 < frame.length := length_pos_iff.mpr inPlace.1.1
    have rest := ih inPlace.2
    rw [length_cons, flatten_cons, length_append]
    omega
  | case3 => exact inPlace.elim

/-- Frames in place are read one by one, then the loop goes on with what follows them. -/
theorem readFrom_inPlace {position fuel : Nat} {as : List α} {frames : List (List UInt8)}
    (inPlace : InPlace (Reads read) position as frames) (rest : List UInt8) :
    readFrom read eof (frames.length + fuel) position (frames.flatten ++ rest) =
      match readFrom read eof fuel (position + as.length) rest with
      | .error e => .error e
      | .ok more => .ok (as ++ more) := by
  fun_induction InPlace (Reads read) position as frames with
  | case1 =>
    simp only [length_nil, Nat.zero_add, flatten_nil, nil_append, Nat.add_zero]
    split
    · assumption
    · assumption
  | case2 position a as frame frames ih =>
    have fuelLeft : (frame :: frames).length + fuel = frames.length + fuel + 1 := by
      rw [length_cons]
      omega
    have next : position + (a :: as).length = position + 1 + as.length := by
      rw [length_cons]
      omega
    rw [fuelLeft, readFrom, flatten_cons, append_assoc, inPlace.1.2, next]
    simp only
    rw [ih inPlace.2]
    cases readFrom read eof fuel (position + 1 + as.length) rest <;> rfl
  | case3 => exact inPlace.elim

theorem readAll_stops {bytes : List UInt8} {e : ε} (stops : read 0 bytes = .error e)
    (hard : e ≠ eof) : readAll read eof bytes = .error e := by
  rw [readAll, readFrom, stops]
  simp [hard]

theorem readAll_inPlace (ends : ∀ position, read position [] = .error eof) {as : List α}
    {frames : List (List UInt8)} (inPlace : InPlace (Reads read) 0 as frames) :
    readAll read eof frames.flatten = .ok as := by
  obtain ⟨spare, size⟩ := Nat.exists_eq_add_of_le (length_le_of_reads inPlace)
  have fuel : frames.flatten.length + 1 = frames.length + (spare + 1) := by omega
  have whole := @readFrom_inPlace α ε read eof _ 0 (spare + 1) as frames inPlace []
  rw [append_nil] at whole
  rw [readAll, fuel, whole]
  simp [readFrom, ends]

theorem readAll_refused {as : List α} {front : List (List UInt8)}
    (inPlace : InPlace (Reads read) 0 as front) {frame : List UInt8} (nonempty : frame ≠ [])
    (refused : Refuses read eof as.length frame) (rest : List UInt8) :
    ∃ e, e ≠ eof ∧ readAll read eof (front.flatten ++ (frame ++ rest)) = .error e := by
  obtain ⟨e, hard, stops⟩ := refused
  refine ⟨e, hard, ?_⟩
  have bytes : 0 < frame.length := length_pos_iff.mpr nonempty
  have enough := length_le_of_reads inPlace
  have fuel : (front.flatten ++ (frame ++ rest)).length + 1 = front.length +
      (front.flatten.length - front.length + frame.length + rest.length + 1) := by
    simp only [length_append]
    omega
  rw [readAll, fuel, readFrom_inPlace inPlace, readFrom, Nat.zero_add, stops]
  simp [hard]

end Reader
theorem leaves_of_not_prefix {β : Type} {xs ys : List β} (not_front : ¬ xs <+: ys) :
    ∃ front x behind, xs = front ++ x :: behind ∧ front <+: ys ∧ ys[front.length]? ≠ some x := by
  induction xs generalizing ys with
  | nil => exact absurd nil_prefix not_front
  | cons x xs ih =>
    cases ys with
    | nil => exact ⟨[], x, xs, rfl, prefix_refl [], by simp⟩
    | cons y ys =>
      by_cases same : x = y
      · subst same
        have deeper : ¬ xs <+: ys := fun front => not_front (cons_prefix_cons.mpr ⟨rfl, front⟩)
        obtain ⟨front, z, behind, rfl, first, other⟩ := ih deeper
        exact ⟨x :: front, z, behind, rfl, cons_prefix_cons.mpr ⟨rfl, first⟩, by simpa using other⟩
      · exact ⟨[], x, xs, rfl, nil_prefix, by simpa using Ne.symm same⟩

end PositionedFrames
