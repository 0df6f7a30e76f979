import SochDB.Library.BitWords
import SochDB.Library.SortedKeys

/-!
The set of documents that a filter allows. Every executor asks it before it returns a
document. Document ids are numbers.
-/
namespace CandidateGate
open SortedKeys BitWords

abbrev DocId := Nat

structure SortedIds where
  ids : List DocId
  increasing : Increasing ids

namespace SortedIds

def new : SortedIds := ⟨[], List.Pairwise.nil⟩

def fromVec (ids : List DocId) : SortedIds := ⟨sortDedup ids, sortDedup_increasing ids⟩

def add (s : SortedIds) (doc : DocId) : SortedIds :=
  ⟨insertKey doc s.ids, insertKey_increasing doc s.increasing⟩

def union (s t : SortedIds) : SortedIds :=
  ⟨merge s.ids t.ids, merge_increasing s.increasing t.increasing⟩

end SortedIds

structure AllowedBitmap where
  words : List (BitVec 64)
  count : Nat
  all : Bool

namespace AllowedBitmap

def contains (bitmap : AllowedBitmap) (doc : DocId) : Bool := testBit bitmap.words doc

def isEmpty (bitmap : AllowedBitmap) : Bool := bitmap.count = 0

def countOnes (word : BitVec 64) : Nat := ((List.range 64).filter word.getLsbD).length

def intersect (a b : AllowedBitmap) : AllowedBitmap :=
  let words := List.zipWith (· &&& ·) a.words b.words
  ⟨words, (words.map countOnes).sum, false⟩

/-- The iterator adds the offset of a bit in its word twice. -/
def iter (bitmap : AllowedBitmap) : List DocId :=
  (bitmap.words.zipIdx.flatMap fun (word, w) =>
    ((List.range 64).filter word.getLsbD).map fun bit => w * 64 + bit + bit).take bitmap.count

end AllowedBitmap

inductive AllowedSet where
  | all
  | bitmap (bits : AllowedBitmap)
  | sortedVec (ids : SortedIds)
  | hashSet (ids : Finset DocId)
  | none

namespace AllowedSet

def fromBitmap (bitmap : AllowedBitmap) : AllowedSet :=
  if bitmap.isEmpty then .none else if bitmap.all then .all else .bitmap bitmap

def fromSortedVec (ids : List DocId) : AllowedSet :=
  if ids.isEmpty then .none else .sortedVec (.fromVec ids)

def fromIter (ids : Finset DocId) : AllowedSet := if ids = ∅ then .none else .hashSet ids

/-- The binary search in an increasing vector finds what is in it. -/
def contains (doc : DocId) : AllowedSet → Bool
  | .all => true
  | .bitmap bits => bits.contains doc
  | .sortedVec s => doc ∈ s.ids
  | .hashSet s => doc ∈ s
  | .none => false

def isEmpty : AllowedSet → Bool
  | .none => true
  | _ => false

def isAll : AllowedSet → Bool
  | .all => true
  | _ => false

/-- Nothing is iterated for all documents. -/
def iter : AllowedSet → Finset DocId
  | .all => ∅
  | .bitmap bits => bits.iter.toFinset
  | .sortedVec s => s.ids.toFinset
  | .hashSet s => s
  | .none => ∅

def intersect : AllowedSet → AllowedSet → AllowedSet
  | .all, x => x
  | x, .all => x
  | .none, _ => .none
  | _, .none => .none
  | .sortedVec a, .sortedVec b => fromSortedVec (common a.ids b.ids)
  | .bitmap a, .bitmap b => fromBitmap (a.intersect b)
  | a, b => fromIter (a.iter ∩ b.iter)

def union : AllowedSet → AllowedSet → AllowedSet
  | .all, _ => .all
  | _, .all => .all
  | .none, x => x
  | x, .none => x
  | a, b => .hashSet (a.iter ∪ b.iter)

/-- Not a bitmap: what is iterated is what is contained. -/
def Listed : AllowedSet → Prop
  | .bitmap _ => False
  | _ => True

section Listed
variable {s t : AllowedSet} {doc : DocId}

@[simp] theorem contains_all : contains doc .all = true := rfl

@[simp] theorem contains_none : contains doc .none = false := rfl

@[simp] theorem contains_sortedVec (ids : SortedIds) :
    contains doc (.sortedVec ids) = true ↔ doc ∈ ids.ids := decide_eq_true_iff

variable (ids : Finset DocId)

@[simp] theorem contains_hashSet :
    contains doc (.hashSet ids) = true ↔ doc ∈ ids := decide_eq_true_iff

theorem isEmpty_iff : s.isEmpty = true ↔ s = .none := by
  cases s <;> simp [isEmpty]

@[simp] theorem contains_fromSortedVec (ids : List DocId) :
    (fromSortedVec ids).contains doc = true ↔ doc ∈ ids := by
  unfold fromSortedVec
  split
  · rename_i empty
    rw [List.isEmpty_iff.mp empty]
    simp
  · simp [SortedIds.fromVec]

@[simp] theorem contains_fromIter :
    (fromIter ids).contains doc = true ↔ doc ∈ ids := by
  unfold fromIter
  split
  · rename_i empty
    rw [empty]
    simp
  · simp

theorem listed_fromSortedVec (ids : List DocId) : (fromSortedVec ids).Listed := by
  unfold fromSortedVec
  split <;> trivial

theorem listed_fromIter : (fromIter ids).Listed := by
  unfold fromIter
  split <;> trivial

theorem listed_intersect (first : s.Listed) (second : t.Listed) : (s.intersect t).Listed := by
  cases s <;> cases t <;>
    first
    | exact first.elim
    | exact second.elim
    | trivial
    | exact listed_fromSortedVec _
    | exact listed_fromIter _

theorem contains_intersect (first : s.Listed) (second : t.Listed) :
    (s.intersect t).contains doc = true ↔ s.contains doc = true ∧ t.contains doc = true := by
  cases s <;> cases t <;>
    first
    | exact first.elim
    | exact second.elim
    | simp [intersect, iter, mem_common, SortedIds.increasing]

theorem listed_union (first : s.Listed) (second : t.Listed) : (s.union t).Listed := by
  cases s <;> cases t <;>
    first
    | exact first.elim
    | exact second.elim
    | trivial

end Listed

end AllowedSet

end CandidateGate
