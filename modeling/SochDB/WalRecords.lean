import SochDB.Library.LittleEndian
import SochDB.Library.Framing

/-!
Plaintext WAL records: the record types, the hand-written encoders and the one
parser they share. `crc32fast` is a dependency outside the repository, so its
streaming hasher is a parameter; no law about it is needed, because every encoder
and the parser feed it the same chunks in the same order.
-/
namespace WalRecords
open LittleEndian

/-- The variants of the engine's error type that the modelled functions return. -/
inductive SochDBError where
  | unexpectedEof
  | corruption (message : String)
  | internal (message : String)
  | validation (message : String)
  | encryption (message : String)
  | invalidArgument (message : String)
  deriving DecidableEq, Repr

inductive WalRecordType where
  | data | pageUpdate | delete
  | txnBegin | txnCommit | txnAbort | savepoint | rollbackToSavepoint | txnEnd
  | checkpoint | checkpointEnd
  | schemaChange
  | compensationLogRecord
  | compaction | flush
  | batchBegin | batchCommit
  deriving DecidableEq, Repr

namespace WalRecordType

def toU8 : WalRecordType → UInt8
  | data => 0x01
  | pageUpdate => 0x02
  | delete => 0x03
  | txnBegin => 0x10
  | txnCommit => 0x11
  | txnAbort => 0x12
  | savepoint => 0x13
  | rollbackToSavepoint => 0x14
  | txnEnd => 0x15
  | checkpoint => 0x20
  | checkpointEnd => 0x21
  | schemaChange => 0x30
  | compensationLogRecord => 0x40
  | compaction => 0x50
  | flush => 0x51
  | batchBegin => 0x60
  | batchCommit => 0x61

def tryFrom (value : UInt8) : Option WalRecordType :=
  match value.toNat with
  | 0x01 => some data
  | 0x02 => some pageUpdate
  | 0x03 => some delete
  | 0x10 => some txnBegin
  | 0x11 => some txnCommit
  | 0x12 => some txnAbort
  | 0x13 => some savepoint
  | 0x14 => some rollbackToSavepoint
  | 0x15 => some txnEnd
  | 0x20 => some checkpoint
  | 0x21 => some checkpointEnd
  | 0x30 => some schemaChange
  | 0x40 => some compensationLogRecord
  | 0x50 => some compaction
  | 0x51 => some flush
  | 0x60 => some batchBegin
  | 0x61 => some batchCommit
  | _ => none

@[simp] theorem tryFrom_toU8 (t : WalRecordType) : tryFrom t.toU8 = some t := by
  cases t <;> rfl

end WalRecordType

/-- The streaming interface of `crc32fast::Hasher`. -/
structure Crc32fast where
  State : Type
  new : State
  update : State → Bytes → State
  finalize : State → UInt32

/-- CRC-32 with the reflected polynomial `0xEDB88320`, which is what the crate computes. -/
def crcBits : Nat → UInt32 → UInt32
  | 0, c => c
  | n + 1, c => crcBits n (if c &&& 1 = 1 then (c >>> 1) ^^^ 0xEDB88320 else c >>> 1)

def ieee : Crc32fast where
  State := UInt32
  new := 0xFFFFFFFF
  update := fun c bytes => bytes.foldl (fun c b => crcBits 8 (c ^^^ b.toUInt32)) c
  finalize := fun c => c ^^^ 0xFFFFFFFF

def recordHeaderSize : Nat := 4 + 1 + 8 + 8 + 4 + 4
def checksumSize : Nat := 4
def maxWalFrameLen : Nat := 512 * 1024 * 1024

structure TxnWalEntry where
  recordType : WalRecordType
  txnId : UInt64
  timestampUs : UInt64
  key : Bytes
  value : Bytes
  deriving DecidableEq, Repr

namespace TxnWalEntry

def data (txnId timestampUs : UInt64) (key value : Bytes) : TxnWalEntry :=
  ⟨.data, txnId, timestampUs, key, value⟩
def txnBegin (txnId timestampUs : UInt64) : TxnWalEntry := ⟨.txnBegin, txnId, timestampUs, [], []⟩
def txnCommit (txnId timestampUs : UInt64) : TxnWalEntry := ⟨.txnCommit, txnId, timestampUs, [], []⟩
def txnAbort (txnId timestampUs : UInt64) : TxnWalEntry := ⟨.txnAbort, txnId, timestampUs, [], []⟩

end TxnWalEntry

section Encoders
variable (crc : Crc32fast)

def encodeRecordBody (recordType : WalRecordType) (txnId timestampUs : UInt64)
    (key value : Bytes) : Bytes :=
  let rt := [recordType.toU8]
  let hasher := crc.update crc.new rt
  let t := leBytes 8 txnId.toNat
  let hasher := crc.update hasher t
  let ts := leBytes 8 timestampUs.toNat
  let hasher := crc.update hasher ts
  let kl := leBytes 4 key.length
  let hasher := crc.update hasher kl
  let vl := leBytes 4 value.length
  let hasher := crc.update hasher vl
  let hasher := crc.update hasher key
  let hasher := crc.update hasher value
  rt ++ t ++ ts ++ kl ++ vl ++ key ++ value ++ leBytes 4 (crc.finalize hasher).toNat

namespace TxnWalEntry

def checksum (e : TxnWalEntry) : UInt32 :=
  let hasher := crc.update crc.new [e.recordType.toU8]
  let hasher := crc.update hasher (leBytes 8 e.txnId.toNat)
  let hasher := crc.update hasher (leBytes 8 e.timestampUs.toNat)
  let hasher := crc.update hasher (leBytes 4 e.key.length)
  let hasher := crc.update hasher (leBytes 4 e.value.length)
  let hasher := crc.update hasher e.key
  let hasher := crc.update hasher e.value
  crc.finalize hasher

def toBytes (e : TxnWalEntry) : Bytes :=
  let totalLen := recordHeaderSize + e.key.length + e.value.length + checksumSize
  let contentLen := totalLen - 4
  let recordTypeByte := [e.recordType.toU8]
  let hasher := crc.update crc.new recordTypeByte
  let txnBytes := leBytes 8 e.txnId.toNat
  let hasher := crc.update hasher txnBytes
  let tsBytes := leBytes 8 e.timestampUs.toNat
  let hasher := crc.update hasher tsBytes
  let keyLenBytes := leBytes 4 e.key.length
  let hasher := crc.update hasher keyLenBytes
  let valLenBytes := leBytes 4 e.value.length
  let hasher := crc.update hasher valLenBytes
  let hasher := crc.update hasher e.key
  let hasher := crc.update hasher e.value
  leBytes 4 contentLen ++ recordTypeByte ++ txnBytes ++ tsBytes ++ keyLenBytes ++ valLenBytes ++
    e.key ++ e.value ++ leBytes 4 (crc.finalize hasher).toNat

/-- `content_len` before it is cast to 32 bits. -/
def bodyLen (e : TxnWalEntry) : Nat :=
  recordHeaderSize - 4 + e.key.length + e.value.length + checksumSize

def FitsFrame (e : TxnWalEntry) : Prop := e.bodyLen ≤ maxWalFrameLen

instance (e : TxnWalEntry) : Decidable e.FitsFrame := inferInstanceAs (Decidable (_ ≤ _))

end TxnWalEntry

structure TxnWalBuffer where
  txnId : UInt64
  buffer : Bytes
  entryCount : Nat
  deriving DecidableEq, Repr

namespace TxnWalBuffer

def new (txnId : UInt64) : TxnWalBuffer := ⟨txnId, [], 0⟩

def isEmpty (b : TxnWalBuffer) : Bool := b.buffer.isEmpty

/-- `timestampUs` is the reading of the cached clock. The length prefix is written
    as four zero bytes first and filled in at the end. -/
def append (b : TxnWalBuffer) (timestampUs : UInt64) (key value : Bytes) : TxnWalBuffer :=
  let totalLen := recordHeaderSize + key.length + value.length + checksumSize
  let entryStart := b.buffer.length
  let recordTypeByte := [WalRecordType.data.toU8]
  let hasher := crc.update crc.new recordTypeByte
  let txnBytes := leBytes 8 b.txnId.toNat
  let hasher := crc.update hasher txnBytes
  let tsBytes := leBytes 8 timestampUs.toNat
  let hasher := crc.update hasher tsBytes
  let keyLenBytes := leBytes 4 key.length
  let hasher := crc.update hasher keyLenBytes
  let valLenBytes := leBytes 4 value.length
  let hasher := crc.update hasher valLenBytes
  let hasher := crc.update hasher key
  let hasher := crc.update hasher value
  let buffer := b.buffer ++ [0, 0, 0, 0] ++ recordTypeByte ++ txnBytes ++ tsBytes ++ keyLenBytes ++
    valLenBytes ++ key ++ value ++ leBytes 4 (crc.finalize hasher).toNat
  { b with
    buffer := buffer.take entryStart ++ leBytes 4 (totalLen - 4) ++ buffer.drop (entryStart + 4)
    entryCount := b.entryCount + 1 }

end TxnWalBuffer

/-- The plaintext branch of `write_no_flush_refs`: nine writes handed to the
    `BufWriter` one after the other. -/
def writeNoFlushRefs (writer : Bytes) (txnId timestampUs : UInt64) (key value : Bytes) : Bytes :=
  let totalLen := recordHeaderSize + key.length + value.length + checksumSize
  let writer := writer ++ leBytes 4 (totalLen - 4)
  let recordTypeByte := [WalRecordType.data.toU8]
  let writer := writer ++ recordTypeByte
  let hasher := crc.update crc.new recordTypeByte
  let txnBytes := leBytes 8 txnId.toNat
  let writer := writer ++ txnBytes
  let hasher := crc.update hasher txnBytes
  let tsBytes := leBytes 8 timestampUs.toNat
  let writer := writer ++ tsBytes
  let hasher := crc.update hasher tsBytes
  let keyLenBytes := leBytes 4 key.length
  let writer := writer ++ keyLenBytes
  let hasher := crc.update hasher keyLenBytes
  let valLenBytes := leBytes 4 value.length
  let writer := writer ++ valLenBytes
  let hasher := crc.update hasher valLenBytes
  let writer := writer ++ key
  let hasher := crc.update hasher key
  let writer := writer ++ value
  let hasher := crc.update hasher value
  writer ++ leBytes 4 (crc.finalize hasher).toNat

end Encoders

def readU8 : Bytes → Except SochDBError (UInt8 × Bytes)
  | [] => .error .unexpectedEof
  | b :: rest => .ok (b, rest)

def readExact (n : Nat) (bytes : Bytes) : Except SochDBError (Bytes × Bytes) :=
  if n ≤ bytes.length then .ok (bytes.take n, bytes.drop n) else .error .unexpectedEof

/-- `read_u32::<LittleEndian>` and `read_u64::<LittleEndian>`, at widths 4 and 8. -/
def readLe (width : Nat) (bytes : Bytes) : Except SochDBError (Nat × Bytes) := do
  let (word, rest) ← readExact width bytes
  return (ofLe word, rest)

section Reader
variable (crc : Crc32fast)

def parseBody (body : Bytes) : Except SochDBError TxnWalEntry := do
  let (recordTypeByte, cur) ← readU8 body
  let recordType ← match WalRecordType.tryFrom recordTypeByte with
    | some t => .ok t
    | none => .error (.corruption s!"Invalid record type: {recordTypeByte}")
  let (txnId, cur) ← readLe 8 cur
  let (timestampUs, cur) ← readLe 8 cur
  let (keyLen, cur) ← readLe 4 cur
  let (valueLen, cur) ← readLe 4 cur
  let (key, cur) ← readExact keyLen cur
  let (value, cur) ← readExact valueLen cur
  let (storedChecksum, _) ← readLe 4 cur
  let entry : TxnWalEntry := ⟨recordType, UInt64.ofNat txnId, UInt64.ofNat timestampUs, key, value⟩
  let expected := (entry.checksum crc).toNat
  if expected ≠ storedChecksum then
    .error (.corruption
      s!"WAL checksum mismatch for txn_id {txnId}: expected {expected}, got {storedChecksum}")
  else
    .ok entry

/-- The reader is the list of the bytes that remain. -/
def fromReader (reader : Bytes) : Except SochDBError (TxnWalEntry × Bytes) := do
  let (contentLen, reader) ← readLe 4 reader
  if contentLen < recordHeaderSize - 4 + checksumSize then
    .error (.corruption "WAL entry too short")
  else if contentLen > maxWalFrameLen then
    .error (.corruption s!"WAL entry length {contentLen} exceeds maximum {maxWalFrameLen}")
  else do
    let (body, reader) ← readExact contentLen reader
    let entry ← parseBody crc body
    return (entry, reader)

end Reader
end WalRecords
