import SochDB.Library.BitWords
import SochDB.WalRecords

/-!
The Bloom filters of the serializability validator. The two hash functions come from
the standard library and from a dependency, so they are parameters. A filter never
forgets a key, and two filters of one capacity that share a key intersect.
-/
namespace BloomFilter
open BitWords WalRecords List

structure KeyHashes where
  hash1 : Bytes → UInt64
  hash2 : Bytes → UInt64

def lengthHashes : KeyHashes := ⟨fun key => UInt64.ofNat key.length, fun _ => 1⟩

/-- `ceil(9.6 * capacity)` bits, rounded up to whole words. -/
def wordsFor (expectedCapacity : Nat) : Nat :=
  let numBits := (expectedCapacity * 96 + 9) / 10
  (numBits + 63) / 64

def defaultNumHashes : Nat := 7
def minCapacity : Nat := 64

/-- The words are allocated on the first insert. -/
structure SsiBloomFilter where
  bits : Option (List (BitVec 64))
  expectedCapacity : Nat
  numHashes : Nat
  sized : ∀ words ∈ bits, words.length = wordsFor expectedCapacity
  roomy : 0 < expectedCapacity
  hashed : 0 < numHashes

namespace SsiBloomFilter

def new (expectedItems : Nat) : SsiBloomFilter where
  bits := none
  expectedCapacity := max expectedItems minCapacity
  numHashes := defaultNumHashes
  sized := by simp
  roomy := Nat.lt_of_lt_of_le (by decide) (Nat.le_max_right _ minCapacity)
  hashed := by decide

def allocated (filter : SsiBloomFilter) : List (BitVec 64) :=
  filter.bits.getD (List.replicate (wordsFor filter.expectedCapacity) 0#64)

theorem allocated_length (filter : SsiBloomFilter) :
    filter.allocated.length = wordsFor filter.expectedCapacity := by
  unfold allocated
  cases present : filter.bits with
  | none => simp
  | some words => exact filter.sized words present

section
variable (H : KeyHashes)

def bitIdx (key : Bytes) (numBits i : Nat) : Nat :=
  (H.hash1 key + UInt64.ofNat i * H.hash2 key).toNat % numBits

def setAll (words : List (BitVec 64)) (key : Bytes) (numHashes : Nat) : List (BitVec 64) :=
  (List.range numHashes).foldl (fun bits i => setBit bits (bitIdx H key (words.length * 64) i)) words

theorem foldl_setBit_length (words : List (BitVec 64)) (indices : List Nat) :
    (indices.foldl setBit words).length = words.length := by
  induction indices generalizing words with
  | nil => rfl
  | cons i indices ih => rw [foldl_cons, ih, setBit_length]

theorem setAll_eq (words : List (BitVec 64)) (key : Bytes) (numHashes : Nat) :
    setAll H words key numHashes =
      ((List.range numHashes).map (bitIdx H key (words.length * 64))).foldl setBit words := by
  rw [setAll, foldl_map]

def insert (filter : SsiBloomFilter) (key : Bytes) : SsiBloomFilter where
  bits := some (
    if filter.allocated.length * 64 = 0 then filter.allocated
    else setAll H filter.allocated key filter.numHashes)
  expectedCapacity := filter.expectedCapacity
  numHashes := filter.numHashes
  sized := by
    intro words present
    simp only [Option.mem_def, Option.some.injEq] at present
    rw [← present]
    split
    · exact filter.allocated_length
    · rw [setAll_eq, foldl_setBit_length, filter.allocated_length]
  roomy := filter.roomy
  hashed := filter.hashed

def mayContain (filter : SsiBloomFilter) (key : Bytes) : Bool :=
  match filter.bits with
  | none => false
  | some bits =>
    let numBits := bits.length * 64
    if numBits = 0 then false
    else (List.range filter.numHashes).all fun i => testBit bits (bitIdx H key numBits i)

def mayIntersect (filter other : SsiBloomFilter) : Bool :=
  match filter.bits, other.bits with
  | some selfBits, some otherBits => intersects selfBits otherBits
  | _, _ => false

theorem words_positive (filter : SsiBloomFilter) : filter.allocated.length * 64 ≠ 0 := by
  have roomy := filter.roomy
  rw [allocated_length]
  simp only [wordsFor]
  omega

theorem testBit_foldl_mono {words : List (BitVec 64)} {j : Nat} (indices : List Nat)
    (set : testBit words j = true) : testBit (indices.foldl setBit words) j = true := by
  induction indices generalizing words with
  | nil => exact set
  | cons i indices ih => exact ih (testBit_setBit_mono set)

theorem testBit_foldl_mem {words : List (BitVec 64)} {j : Nat} {indices : List Nat}
    (member : j ∈ indices) (inside : j < words.length * 64) :
    testBit (indices.foldl setBit words) j = true := by
  induction indices generalizing words with
  | nil => cases member
  | cons i indices ih =>
    rcases mem_cons.mp member with rfl | later
    · exact testBit_foldl_mono indices (testBit_setBit_same inside)
    · exact ih later (by rwa [setBit_length])

theorem bitIdx_lt {numBits : Nat} (positive : numBits ≠ 0) (key : Bytes) (i : Nat) :
    bitIdx H key numBits i < numBits :=
  Nat.mod_lt _ (Nat.pos_of_ne_zero positive)

theorem mayContain_insert (filter : SsiBloomFilter) (key : Bytes) :
    (filter.insert H key).mayContain H key = true := by
  have positive := filter.words_positive
  simp only [mayContain, insert, if_neg positive, setAll_eq, foldl_setBit_length]
  refine all_eq_true.mpr fun i member => ?_
  exact testBit_foldl_mem (mem_map_of_mem member) (bitIdx_lt H positive key i)

theorem mayContain_insert_mono {filter : SsiBloomFilter} {key : Bytes} (other : Bytes)
    (present : filter.mayContain H key = true) : (filter.insert H other).mayContain H key = true := by
  have positive := filter.words_positive
  cases held : filter.bits with
  | none => simp [mayContain, held] at present
  | some words =>
    have same : filter.allocated = words := by rw [allocated, held]; rfl
    rw [same] at positive
    simp only [mayContain, held, if_neg positive, all_eq_true] at present
    simp only [mayContain, insert, same, if_neg positive, setAll_eq, foldl_setBit_length,
      all_eq_true]
    exact fun i member => testBit_foldl_mono _ (present i member)

theorem mayIntersect_of_common {filter other : SsiBloomFilter} {key : Bytes}
    (sameCapacity : filter.expectedCapacity = other.expectedCapacity)
    (left : filter.mayContain H key = true) (right : other.mayContain H key = true) :
    filter.mayIntersect other = true := by
  unfold mayContain at left right
  unfold mayIntersect
  cases first : filter.bits with
  | none => simp [first] at left
  | some xs =>
    cases second : other.bits with
    | none => simp [second] at right
    | some ys =>
      have sameLength : xs.length = ys.length := by
        rw [filter.sized xs first, other.sized ys second, sameCapacity]
      simp only [first, second, sameLength] at left right ⊢
      split at left
      · cases left
      · rename_i positive
        rw [if_neg positive] at right
        have firstBit := all_eq_true.mp left 0 (mem_range.mpr filter.hashed)
        have secondBit := all_eq_true.mp right 0 (mem_range.mpr other.hashed)
        exact intersects_of_testBit firstBit secondBit

end
end SsiBloomFilter
end BloomFilter
