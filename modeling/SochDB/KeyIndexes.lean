import SochDB.Library.ByteOrder
import SochDB.Library.SortedKeys
import SochDB.WalRecords

/-!
The two key indexes of the memtables: the deferred index, which sorts its hot buffer on
the first scan, and the skip list, which keeps its keys in order all the time. A slice
whose ends are out of order panics.
-/
namespace KeyIndexes
open Timeline SortedKeys ByteOrder WalRecords

inductive Panic where
  | sliceIndexOrder (start finish : Nat)
  deriving DecidableEq, Repr

/-- `vec[start..finish]`. Both ends come from binary searches, so they are in bounds. -/
def slice {α : Type} (l : List α) (start finish : Nat) : Except Panic (List α) :=
  if start ≤ finish then .ok ((l.take finish).drop start) else .error (.sliceIndexOrder start finish)

structure DeferredSortedIndex where
  sortedVec : List Bytes
  hotBuffer : List Bytes
  needsCompaction : Bool
  maxUnsortedEntries : Nat
  sorted : Increasing sortedVec

namespace DeferredSortedIndex
variable (idx : DeferredSortedIndex)

def withConfig (maxUnsortedEntries : Nat) : DeferredSortedIndex :=
  ⟨[], [], false, maxUnsortedEntries, List.Pairwise.nil⟩

def insert (key : Bytes) : DeferredSortedIndex :=
  { idx with
    hotBuffer := idx.hotBuffer ++ [key]
    needsCompaction :=
      if (idx.hotBuffer ++ [key]).length ≥ idx.maxUnsortedEntries then true
      else idx.needsCompaction }

def compact : DeferredSortedIndex :=
  if idx.hotBuffer.isEmpty then idx
  else
    let newEntries := sortDedup idx.hotBuffer
    { sortedVec := if idx.sortedVec.isEmpty then newEntries else merge idx.sortedVec newEntries
      hotBuffer := []
      needsCompaction := false
      maxUnsortedEntries := idx.maxUnsortedEntries
      sorted := by
        split
        · exact sortDedup_increasing _
        · exact merge_increasing idx.sorted (sortDedup_increasing _) }

def ensureCompacted : DeferredSortedIndex :=
  if idx.needsCompaction || !idx.hotBuffer.isEmpty then idx.compact else idx

def rangeFrom (start : Bytes) : DeferredSortedIndex × List Bytes :=
  let idx := idx.ensureCompacted
  let startIdx := partitionPoint (fun k => k < start) idx.sortedVec
  (idx, idx.sortedVec.drop startIdx)

def range (start finish : Bytes) : DeferredSortedIndex × Except Panic (List Bytes) :=
  let idx := idx.ensureCompacted
  let startIdx := partitionPoint (fun k => k < start) idx.sortedVec
  let endIdx := partitionPoint (fun k => k < finish) idx.sortedVec
  (idx, slice idx.sortedVec startIdx endIdx)

end DeferredSortedIndex

/-- A concurrent skip list used as an ordered set. Its range iterator starts at the
    first key not before the lower bound and ends at the first key not before the upper
    one, so an inverted range is empty. -/
structure SkipMap (κ : Type) [LinearOrder κ] where
  keys : List κ
  sorted : Increasing keys

namespace SkipMap
variable {κ : Type} [LinearOrder κ] (idx : SkipMap κ)

def new : SkipMap κ := ⟨[], List.Pairwise.nil⟩

def insert (key : κ) : SkipMap κ := ⟨insertKey key idx.keys, insertKey_increasing key idx.sorted⟩

def rangeFrom (start : κ) : List κ := idx.keys.dropWhile fun k => k < start

def range (start finish : κ) : List κ :=
  (idx.keys.dropWhile fun k => k < start).takeWhile fun k => k < finish

end SkipMap

/-- Key storage with small keys inline: 24 bytes of which the first `len` count. -/
inductive KeyData where
  | inline (len : UInt8) (bytes : List UInt8)
  | heap (bytes : Bytes)
  deriving DecidableEq, Repr

namespace KeyData

def inlineMax : Nat := 24

def ofBytes (data : Bytes) : KeyData :=
  if data.length ≤ inlineMax then
    .inline (UInt8.ofNat data.length) (data ++ List.replicate (inlineMax - data.length) 0)
  else .heap data

def asBytes : KeyData → Bytes
  | inline len bytes => bytes.take len.toNat
  | heap bytes => bytes

def len : KeyData → Nat
  | inline len _ => len.toNat
  | heap bytes => bytes.length

theorem asBytes_ofBytes (data : Bytes) : (ofBytes data).asBytes = data := by
  unfold ofBytes
  split
  · rename_i short
    have count : (UInt8.ofNat data.length).toNat = data.length :=
      Nat.mod_eq_of_lt (Nat.lt_of_le_of_lt short (by decide))
    simp [asBytes, count]
  · rfl

end KeyData

/-- FNV-1a. -/
def computeHash (data : Bytes) : UInt64 :=
  data.foldl (fun h b => (h ^^^ b.toUInt64) * 0x00000100000001B3) 0xcbf29ce484222325

/-- A key with its hash. Handles are only made from byte strings. -/
structure ArenaKeyHandle where
  hash : UInt64
  data : KeyData
  made : ∃ bytes, hash = computeHash bytes ∧ data = KeyData.ofBytes bytes

namespace ArenaKeyHandle

def new (bytes : Bytes) : ArenaKeyHandle :=
  ⟨computeHash bytes, KeyData.ofBytes bytes, bytes, rfl, rfl⟩

def asBytes (handle : ArenaKeyHandle) : Bytes := handle.data.asBytes

@[simp] theorem asBytes_new (bytes : Bytes) : (new bytes).asBytes = bytes :=
  KeyData.asBytes_ofBytes bytes

theorem new_asBytes (handle : ArenaKeyHandle) : new handle.asBytes = handle := by
  obtain ⟨hash, data, bytes, rfl, rfl⟩ := handle
  simp only [asBytes, KeyData.asBytes_ofBytes]
  rfl

theorem asBytes_injective : Function.Injective asBytes := by
  intro a b same
  rw [← a.new_asBytes, ← b.new_asBytes, same]

/-- Equality as the source tests it: hash and length first, then the bytes. -/
def eq (a b : ArenaKeyHandle) : Bool :=
  a.hash == b.hash && a.data.len == b.data.len && a.asBytes == b.asBytes

theorem eq_iff (a b : ArenaKeyHandle) : a.eq b = true ↔ a = b := by
  constructor
  · intro same
    simp only [eq, Bool.and_eq_true, beq_iff_eq] at same
    exact asBytes_injective same.2
  · rintro rfl
    simp [eq]

instance : DecidableEq ArenaKeyHandle := fun a b => decidable_of_iff _ (eq_iff a b)

/-- Order as the source tests it: by the bytes alone. -/
instance : LinearOrder ArenaKeyHandle where
  le a b := a.asBytes ≤ b.asBytes
  lt a b := a.asBytes < b.asBytes
  le_refl a := le_refl a.asBytes
  le_trans a b c := le_trans (a := a.asBytes)
  lt_iff_le_not_ge a b := lt_iff_le_not_ge (a := a.asBytes)
  le_antisymm _ _ first second := asBytes_injective (le_antisymm first second)
  le_total a b := le_total a.asBytes b.asBytes
  toDecidableLE a b := inferInstanceAs (Decidable (a.asBytes ≤ b.asBytes))
  toDecidableLT a b := inferInstanceAs (Decidable (a.asBytes < b.asBytes))
  toDecidableEq := inferInstance

end ArenaKeyHandle
end KeyIndexes
