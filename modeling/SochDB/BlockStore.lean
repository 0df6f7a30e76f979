import SochDB.WalRecords
import SochDB.Library.Runs

/-!
The block store under concurrent writers. A write reserves its offset outside the lock; under
the lock it sets the store's length to the end of its own block and copies the block in.
-/
namespace BlockStore
open LittleEndian WalRecords Runs List

inductive BlockCompression
  | none | lz4 | zstd
  deriving DecidableEq

def BlockCompression.toByte : BlockCompression → UInt8
  | .none => 0
  | .lz4 => 1
  | .zstd => 2

inductive Failure
  | notFound
  | headerTooShort (len : Nat)
  | invalidMagic (found : Bytes)
  | checksumMismatch
  | decompressionFailed (compression : BlockCompression)
  deriving DecidableEq

/-- The checksum and the two compressors; LZ4 is also told the original size, cast to `i32`. -/
structure Codec where
  hash : Bytes → Nat
  pack : BlockCompression → Bytes → Option Bytes
  unpack : BlockCompression → Bytes → Int → Option Bytes

def asI32 (n : Nat) : Int := (BitVec.ofNat 32 n).toInt

def Codec.Inverts (codec : Codec) : Prop :=
  ∀ compression data packed, codec.pack compression data = some packed →
    codec.unpack compression packed (asI32 data.length) = some data

structure BlockHeader where
  compression : UInt8
  originalSize : Nat
  compressedSize : Nat
  checksum : Nat

def magic : Bytes := [84, 66, 76, 75]

def headerSize : Nat := 17

def BlockHeader.toBytes (header : BlockHeader) : Bytes :=
  magic ++ header.compression ::
    (leBytes 4 header.originalSize ++ leBytes 4 header.compressedSize ++ leBytes 4 header.checksum)

def BlockHeader.fromBytes (buf : Bytes) : Except Failure BlockHeader :=
  if buf.length < headerSize then .error (.headerTooShort buf.length)
  else if buf.take 4 ≠ magic then .error (.invalidMagic (buf.take 4))
  else
    let word := fun start => ofLe ((buf.drop start).take 4)
    .ok ⟨buf.getD 4 0, word 5, word 9, word 13⟩

structure BlockRef where
  storeOffset : Nat
  compressedLen : Nat
  originalLen : Nat
  compression : BlockCompression
  checksum : Nat

/-- One call of `write_block_with_compression`, from the reservation of its offset on. -/
structure Block where
  offset : Nat
  data : Bytes
  compression : BlockCompression
  deriving DecidableEq

def resize (store : Bytes) (len : Nat) : Bytes :=
  store.take len ++ List.replicate (len - store.length) 0

section Calls
variable (codec : Codec)

/-- The bytes themselves are kept when packing fails or gains nothing. -/
def compress (data : Bytes) (compression : BlockCompression) : Bytes :=
  if compression = .none then data
  else match codec.pack compression data with
    | some packed => if data.length ≤ packed.length then data else packed
    | none => data

def decompress (data : Bytes) (compression : BlockCompression) (originalSize : Nat) : Except Failure Bytes :=
  if compression = .none then .ok data
  else if data.length = originalSize then .ok data
  else match codec.unpack compression data (asI32 originalSize) with
    | some bytes => .ok bytes
    | none => .error (.decompressionFailed compression)

namespace Block
variable (block : Block)

def compressed : Bytes := compress codec block.data block.compression

def totalSize : Nat := headerSize + (block.compressed codec).length

def header : BlockHeader :=
  ⟨block.compression.toByte, block.data.length % 2 ^ 32, (block.compressed codec).length % 2 ^ 32,
    codec.hash (block.compressed codec)⟩

def bytes : Bytes := (block.header codec).toBytes ++ block.compressed codec

def blockRef : BlockRef :=
  ⟨block.offset, (block.compressed codec).length % 2 ^ 32, block.data.length % 2 ^ 32, block.compression,
    codec.hash (block.compressed codec)⟩

def writeTo (store : Bytes) : Bytes :=
  let grown := resize store (block.offset + block.totalSize codec)
  copyFromSlice (copyFromSlice grown block.offset (block.header codec).toBytes) (block.offset + headerSize)
    (block.compressed codec)

end Block

def readBlock (store : Bytes) (blockRef : BlockRef) : Except Failure Bytes :=
  if store.length < blockRef.storeOffset + (headerSize + blockRef.compressedLen) then .error .notFound
  else do
    let _header ← BlockHeader.fromBytes ((store.drop blockRef.storeOffset).take headerSize)
    let compressed := (store.drop (blockRef.storeOffset + headerSize)).take blockRef.compressedLen
    if codec.hash compressed ≠ blockRef.checksum then .error .checksumMismatch
    else decompress codec compressed blockRef.compression blockRef.originalLen

/-- The blocks that wait for the lock and those whose call has returned. -/
structure State where
  store : Bytes := []
  nextOffset : Nat := 0
  pending : List Block := []
  returned : List Block := []

inductive Event
  | reserve (data : Bytes) (compression : BlockCompression)
  | store (block : Block)

def step (s : State) : Event → State
  | .reserve data compression =>
    let block : Block := ⟨s.nextOffset, data, compression⟩
    { s with nextOffset := (s.nextOffset + block.totalSize codec) % 2 ^ 64, pending := block :: s.pending }
  | .store block =>
    if block ∈ s.pending then
      { s with
        store := block.writeTo codec s.store
        pending := s.pending.erase block
        returned := block :: s.returned }
    else s

/-- The lengths fit their fields, and a block is stored before any that was reserved after it. -/
def InTurn (s : State) : Event → Prop
  | .reserve data compression =>
    data.length < 2 ^ 32 ∧ s.nextOffset + (Block.mk s.nextOffset data compression).totalSize codec < 2 ^ 64
  | .store block => s.store.length ≤ block.offset + block.totalSize codec

instance (s : State) : (e : Event) → Decidable (InTurn codec s e)
  | .reserve .. => inferInstanceAs (Decidable (_ ∧ _))
  | .store _ => inferInstanceAs (Decidable (_ ≤ _))

def Apart (b c : Block) : Prop :=
  b.offset + b.totalSize codec ≤ c.offset ∨ c.offset + c.totalSize codec ≤ b.offset

def Holds (store : Bytes) (block : Block) : Prop :=
  ∃ front : Bytes, front.length = block.offset ∧ front ++ block.bytes codec <+: store

structure Sound (s : State) : Prop where
  apart : (s.pending ++ s.returned).Pairwise (Apart codec)
  below : ∀ b ∈ s.pending ++ s.returned,
    b.offset + b.totalSize codec ≤ s.nextOffset ∧ b.data.length < 2 ^ 32
  kept : ∀ b ∈ s.returned, Holds codec s.store b

end Calls

variable {codec : Codec}

theorem compress_cases (codec : Codec) (data : Bytes) (compression : BlockCompression) :
    compress codec data compression = data ∨ compression ≠ .none ∧
      (compress codec data compression).length < data.length ∧
      codec.pack compression data = some (compress codec data compression) := by
  unfold compress
  split_ifs with raw
  · exact .inl rfl
  · split
    · split_ifs with longer
      · exact .inl rfl
      · exact .inr ⟨raw, by omega, ‹_›⟩
    · exact .inl rfl

theorem decompress_compress (inverts : codec.Inverts) (data : Bytes) (compression : BlockCompression) :
    decompress codec (compress codec data compression) compression data.length = .ok data := by
  unfold decompress
  obtain raw | ⟨packed, shorter, inverse⟩ := compress_cases codec data compression
  · rw [raw, if_pos rfl, ite_self]
  · rw [if_neg packed, if_neg shorter.ne, inverts _ _ _ inverse]

@[simp] theorem toBytes_length (header : BlockHeader) : header.toBytes.length = headerSize := by
  simp [BlockHeader.toBytes, magic, headerSize]

@[simp] theorem bytes_length (block : Block) : (block.bytes codec).length = block.totalSize codec := by
  simp [Block.bytes, Block.totalSize]

theorem fromBytes_toBytes (header : BlockHeader) : ∃ read, BlockHeader.fromBytes header.toBytes = .ok read := by
  unfold BlockHeader.fromBytes
  rw [if_neg (by simp), if_neg (by simp [BlockHeader.toBytes, magic])]
  exact ⟨_, rfl⟩

variable {store : Bytes} {b block : Block}

theorem Holds.end_le (holds : Holds codec store block) :
    block.offset + block.totalSize codec ≤ store.length := by
  obtain ⟨front, length, within⟩ := holds
  have shorter := within.length_le
  rwa [length_append, bytes_length, length] at shorter

theorem readBlock_of_holds (inverts : codec.Inverts) (small : block.data.length < 2 ^ 32)
    (holds : Holds codec store block) :
    readBlock codec store (block.blockRef codec) = .ok block.data := by
  have fits : (block.compressed codec).length % 2 ^ 32 = (block.compressed codec).length := by
    apply Nat.mod_eq_of_lt
    obtain raw | ⟨-, shorter, -⟩ := compress_cases codec block.data block.compression
    · rwa [Block.compressed, raw]
    · exact shorter.trans small
  have within := holds.end_le
  unfold Block.totalSize at within
  obtain ⟨front, length, back, rfl⟩ := holds
  obtain ⟨read, accepted⟩ := fromBytes_toBytes (block.header codec)
  unfold readBlock Block.blockRef
  dsimp only
  rw [fits, Nat.mod_eq_of_lt small, if_neg (Nat.not_lt.mpr within), ← length, ← drop_drop, append_assoc,
    drop_left, Block.bytes, append_assoc, take_left' (toBytes_length _),
    drop_left' (toBytes_length _), take_left, accepted]
  exact (if_neg (not_not.mpr rfl)).trans (decompress_compress inverts ..)

theorem copyFromSlice_twice {start : Nat} (x y : Bytes) (inside : start ≤ store.length) :
    copyFromSlice (copyFromSlice store start x) (start + x.length) y = copyFromSlice store start (x ++ y) := by
  obtain ⟨front, rest, rfl, rfl⟩ : ∃ front rest, store = front ++ rest ∧ start = front.length :=
    ⟨store.take start, store.drop start, (take_append_drop ..).symm, (length_take_of_le inside).symm⟩
  simp [copyFromSlice, take_length_add_append, Nat.add_assoc]

@[simp] theorem resize_length (len : Nat) : (resize store len).length = len := by
  rw [resize, length_append, length_take, length_replicate]
  omega

theorem writeTo_eq : block.writeTo codec store =
    (resize store (block.offset + block.totalSize codec)).take block.offset ++ block.bytes codec := by
  unfold Block.writeTo
  dsimp only
  rw [← toBytes_length (block.header codec), copyFromSlice_twice _ _ (by simp), copyFromSlice, ← Block.bytes,
    bytes_length, drop_eq_nil_of_le (by simp), append_nil]

theorem Holds.writeTo : Holds codec (block.writeTo codec store) block := by
  rw [writeTo_eq]
  refine ⟨_, length_take_of_le ?_, prefix_rfl⟩
  rw [resize_length]
  exact Nat.le_add_right ..

/-- A block that does not reach past the offset is left as it is. -/
theorem Holds.after_writeTo (longer : store.length ≤ block.offset + block.totalSize codec)
    (before : b.offset + b.totalSize codec ≤ block.offset) (holds : Holds codec store b) :
    Holds codec (block.writeTo codec store) b := by
  obtain ⟨front, length, within⟩ := holds
  refine ⟨front, length, ?_⟩
  rw [writeTo_eq, resize, take_of_length_le longer]
  refine List.IsPrefix.trans (prefix_take_iff.mpr ⟨within.trans (prefix_append ..), ?_⟩)
    (prefix_append ..)
  rwa [length_append, bytes_length, length]

theorem Sound.step {s : State} (sound : Sound codec s) (e : Event) (inTurn : InTurn codec s e) :
    Sound codec (step codec s e) := by
  cases e with
  | reserve data compression =>
    obtain ⟨small, fits⟩ := inTurn
    have next := Nat.mod_eq_of_lt fits
    refine ⟨pairwise_cons.mpr ⟨fun b reserved => .inr (sound.below b reserved).1, sound.apart⟩, ?_, sound.kept⟩
    intro b reserved
    dsimp only [BlockStore.step]
    rw [next]
    cases reserved with
    | head => exact ⟨Nat.le_refl _, small⟩
    | tail _ earlier =>
      obtain ⟨ends, fitted⟩ := sound.below b earlier
      exact ⟨by omega, fitted⟩
  | store block =>
    by_cases waiting : block ∈ s.pending
    · have first : (s.pending ++ s.returned).Perm (block :: (s.pending.erase block ++ s.returned)) :=
        (perm_cons_erase waiting).append_right s.returned
      have moved := first.trans perm_middle.symm
      have symmetric : ∀ {b c}, Apart codec b c → Apart codec c b := Or.symm
      have others := (pairwise_cons.mp ((first.pairwise_iff symmetric).mp sound.apart)).1
      rw [BlockStore.step, if_pos waiting]
      refine ⟨(moved.pairwise_iff symmetric).mp sound.apart,
        fun b reserved => sound.below b (moved.mem_iff.mpr reserved), ?_⟩
      intro b returned
      cases returned with
      | head => exact .writeTo
      | tail _ earlier =>
        have held := sound.kept b earlier
        refine held.after_writeTo inTurn ?_
        have ends := held.end_le
        have apart := others b (mem_append_right _ earlier)
        unfold InTurn at inTurn
        unfold Apart at apart
        have positive : 0 < b.totalSize codec := Nat.add_pos_left (by decide) _
        omega
    · rw [BlockStore.step, if_neg waiting]
      exact sound

theorem blocks_read_back (codec : Codec) (inverts : codec.Inverts) (events : List Event)
    (inTurn : Guarded (step codec) (InTurn codec) {} events) :
    (∀ b ∈ (run (step codec) {} events).returned,
      readBlock codec (run (step codec) {} events).store (b.blockRef codec) = .ok b.data) ∧
    ((run (step codec) {} events).pending ++ (run (step codec) {} events).returned).Pairwise (Apart codec) := by
  have sound : Sound codec (run (step codec) {} events) :=
    inTurn.preserves (fun s e sound guard => sound.step e guard) ⟨.nil, by simp, by simp⟩
  exact ⟨fun b returned => readBlock_of_holds inverts (sound.below b (mem_append_right _ returned)).2
    (sound.kept b returned), sound.apart⟩

/-- No compressor at all, so that every block is stored as it is. -/
def unpacked : Codec := ⟨List.length, fun _ _ => none, fun _ _ _ => none⟩

theorem unpacked_inverts : unpacked.Inverts := fun _ _ _ never => nomatch never

theorem blocks_in_turn_read_back :
    readBlock unpacked (run (step unpacked) {} [.reserve [7] .none, .reserve [8, 9] .lz4, .store ⟨0, [7], .none⟩,
      .store ⟨18, [8, 9], .lz4⟩]).store (Block.blockRef unpacked ⟨18, [8, 9], .lz4⟩) = .ok [8, 9] :=
  (blocks_read_back unpacked unpacked_inverts _ (by decide)).1 _ (by decide)

theorem overtaken_writer_truncates :
    let s := run (step unpacked) {} [.reserve [7] .none, .reserve [8, 9] .lz4, .store ⟨18, [8, 9], .lz4⟩,
      .store ⟨0, [7], .none⟩]
    ⟨18, [8, 9], .lz4⟩ ∈ s.returned ∧
    readBlock unpacked s.store (Block.blockRef unpacked ⟨18, [8, 9], .lz4⟩) = .error .notFound := by
  decide

end BlockStore
