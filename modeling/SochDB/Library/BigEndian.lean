import SochDB.Library.LittleEndian

/-!
Big-endian words, and pieces that carry their own length in front.
-/
namespace BigEndian
open LittleEndian List

def beBytes (w n : Nat) : List UInt8 := (leBytes w n).reverse

def ofBe (bytes : List UInt8) : Nat := ofLe bytes.reverse

@[simp] theorem beBytes_length (w n : Nat) : (beBytes w n).length = w := by
  simp [beBytes]

theorem ofBe_beBytes {w n : Nat} (fits : n < 256 ^ w) : ofBe (beBytes w n) = n := by
  rw [ofBe, beBytes, reverse_reverse, ofLe_leBytes fits]

theorem beBytes_injective {w n m : Nat} (small : n < 256 ^ w) (also : m < 256 ^ w)
    (same : beBytes w n = beBytes w m) : n = m :=
  leBytes_injective small also (reverse_injective same)

def lengthFirst (w : Nat) (piece : List UInt8) : List UInt8 := beBytes w piece.length ++ piece

def readLengthFirst (w : Nat) (bytes : List UInt8) : Option (List UInt8 × List UInt8) :=
  if bytes.length < w then none
  else
    let length := ofBe (bytes.take w)
    let rest := bytes.drop w
    if rest.length < length then none else some (rest.take length, rest.drop length)

/-- What comes back has the length that the written field kept. -/
theorem readLengthFirst_lengthFirst (w : Nat) (piece rest : List UInt8) :
    readLengthFirst w (lengthFirst w piece ++ rest) =
      some ((piece ++ rest).take (piece.length % 256 ^ w), (piece ++ rest).drop (piece.length % 256 ^ w)) := by
  have head : (lengthFirst w piece ++ rest).take w = beBytes w piece.length := by
    rw [lengthFirst, append_assoc, take_left' (beBytes_length w _)]
  have body : (lengthFirst w piece ++ rest).drop w = piece ++ rest := by
    rw [lengthFirst, append_assoc, drop_left' (beBytes_length w _)]
  have long : ¬(lengthFirst w piece ++ rest).length < w := by
    simp only [lengthFirst, length_append, beBytes_length]
    omega
  have kept : ofBe (beBytes w piece.length) = piece.length % 256 ^ w := by
    rw [ofBe, beBytes, reverse_reverse, ofLe_leBytes_mod]
  have enough : ¬(piece ++ rest).length < piece.length % 256 ^ w := by
    have := Nat.mod_le piece.length (256 ^ w)
    rw [length_append]
    omega
  unfold readLengthFirst
  rw [if_neg long, head, body, kept]
  exact if_neg enough

theorem readLengthFirst_length {w : Nat} {bytes first rest : List UInt8}
    (read : readLengthFirst w bytes = some (first, rest)) : first.length < 256 ^ w := by
  unfold readLengthFirst at read
  dsimp only at read
  split_ifs at read with short cut
  have field := ofLe_lt (bytes.take w).reverse
  rw [length_reverse, length_take_of_le (by omega)] at field
  rw [← (Prod.mk.inj (Option.some.inj read)).1, length_take_of_le (by omega)]
  exact field

variable {w : Nat} {piece other rest tail : List UInt8}

variable (fits : piece.length < 256 ^ w)
include fits

theorem readLengthFirst_append (rest : List UInt8) :
    readLengthFirst w (lengthFirst w piece ++ rest) = some (piece, rest) := by
  rw [readLengthFirst_lengthFirst, Nat.mod_eq_of_lt fits, take_left, drop_left]

theorem lengthFirst_injective (also : other.length < 256 ^ w)
    (same : lengthFirst w piece ++ rest = lengthFirst w other ++ tail) : piece = other ∧ rest = tail := by
  have read := readLengthFirst_append fits rest
  rw [same, readLengthFirst_append also tail] at read
  obtain ⟨pieces, rests⟩ := Prod.mk.inj (Option.some.inj read)
  exact ⟨pieces.symm, rests.symm⟩

theorem lengthFirst_last_injective (also : other.length < 256 ^ w)
    (same : lengthFirst w piece = lengthFirst w other) : piece = other := by
  have extended : lengthFirst w piece ++ [] = lengthFirst w other ++ [] := congrArg (· ++ []) same
  exact (lengthFirst_injective fits also extended).1

end BigEndian
