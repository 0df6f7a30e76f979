import Mathlib

/-!
Vectors of bits kept in 64-bit words. Setting bits never clears one, and two vectors
that have one bit in common have a word in common.
-/
namespace BitWords

def setBit (words : List (BitVec 64)) (i : Nat) : List (BitVec 64) :=
  words.modify (i / 64) (· ||| 1#64 <<< (i % 64))

def testBit (words : List (BitVec 64)) (i : Nat) : Bool :=
  match words[i / 64]? with
  | some w => w &&& 1#64 <<< (i % 64) != 0#64
  | none => false

def intersects (xs ys : List (BitVec 64)) : Bool :=
  (List.zipWith (· &&& ·) xs ys).any (· != 0#64)

@[simp] theorem setBit_length (words : List (BitVec 64)) (i : Nat) :
    (setBit words i).length = words.length := by
  simp [setBit]

theorem masked_iff {w : BitVec 64} {p : Nat} (inside : p < 64) :
    (w &&& 1#64 <<< p != 0#64) = w.getLsbD p := by
  have power : BitVec.twoPow 64 p ≠ 0#64 := by
    intro zero
    have bit := congrArg (BitVec.getLsbD · p) zero
    simp [inside] at bit
  rw [← BitVec.twoPow_eq, BitVec.and_twoPow]
  cases w.getLsbD p <;> simp [power]

theorem testBit_eq (words : List (BitVec 64)) (i : Nat) :
    testBit words i = (words[i / 64]?.map (·.getLsbD (i % 64))).getD false := by
  unfold testBit
  cases words[i / 64]? with
  | none => rfl
  | some w => exact masked_iff (Nat.mod_lt i (by omega))

theorem testBit_setBit_same {words : List (BitVec 64)} {i : Nat} (inside : i < words.length * 64) :
    testBit (setBit words i) i = true := by
  have word : i / 64 < words.length := by omega
  have bit : i % 64 < 64 := Nat.mod_lt i (by omega)
  simp [testBit_eq, setBit, word, bit]

theorem testBit_setBit_mono {words : List (BitVec 64)} {i j : Nat} (set : testBit words j = true) :
    testBit (setBit words i) j = true := by
  rw [testBit_eq] at set ⊢
  simp only [setBit, List.getElem?_modify]
  cases found : words[j / 64]? with
  | none => simp [found] at set
  | some w =>
    simp only [found, Option.map_some, Option.getD_some] at set ⊢
    split <;> simp [set]

theorem intersects_of_testBit {xs ys : List (BitVec 64)} {i : Nat} (left : testBit xs i = true)
    (right : testBit ys i = true) : intersects xs ys = true := by
  rw [testBit_eq] at left right
  cases first : xs[i / 64]? with
  | none => simp [first] at left
  | some x =>
    cases second : ys[i / 64]? with
    | none => simp [second] at right
    | some y =>
      simp only [first, second, Option.map_some, Option.getD_some] at left right
      refine List.any_eq_true.mpr ⟨x &&& y, ?_, ?_⟩
      · refine List.mem_of_getElem? (i := i / 64) ?_
        simp [List.getElem?_zipWith, first, second]
      · rw [bne_iff_ne]
        intro zero
        have bit : (x &&& y).getLsbD (i % 64) = false := by rw [zero, BitVec.getLsbD_zero]
        rw [BitVec.getLsbD_and, left, right] at bit
        cases bit

end BitWords
