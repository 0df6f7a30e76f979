import SochDB.Library.Runs
import SochDB.Library.PositionedFrames
import SochDB.WalReplay

/-!
The encrypted write-ahead log. Each record body is sealed under associated data that name
the database, the key epoch and the number of the record in the file; the writer takes that
number from its counter and the reader from the records that it has read.
-/
namespace SealedLog
open LittleEndian Framing Runs PositionedFrames WalRecords WalFraming WriteAheadLog WalReplay List

/-- AES-256-GCM-SIV under the database's key, a dependency outside the repository. It seals
    every message that is not too long, adds a tag of at least 16 bytes, and opens a sealed
    message under the associated data that it was sealed with and under no other. -/
structure Aead where
  encrypt : (nonce msg aad : Bytes) → Option Bytes
  decrypt : (nonce ciphertext aad : Bytes) → Option Bytes
  encrypt_short : ∀ nonce msg aad, msg.length ≤ maxWalFrameLen → (encrypt nonce msg aad).isSome
  tag_added : ∀ nonce msg aad ciphertext, encrypt nonce msg aad = some ciphertext →
    msg.length + 16 ≤ ciphertext.length
  decrypt_same : ∀ nonce msg aad ciphertext, encrypt nonce msg aad = some ciphertext →
    decrypt nonce ciphertext aad = some msg
  decrypt_other : ∀ nonce msg aad other ciphertext, encrypt nonce msg aad = some ciphertext →
    other ≠ aad → decrypt nonce ciphertext other = none

def encryptionVersion : UInt8 := 1
def nonceSize : Nat := 12
def headerSize : Nat := 1 + nonceSize

abbrev Nonce := { bytes : Bytes // bytes.length = nonceSize }

structure Identity where
  dbUuid : Bytes
  dekEpoch : UInt32
  uuid_length : dbUuid.length = 16
  deriving DecidableEq

def walAadVersion : UInt8 := 1

def recordAad (id : Identity) (ordinal : Nat) : Bytes :=
  walAadVersion :: (id.dbUuid ++ (leBytes 4 id.dekEpoch.toNat ++ leBytes 8 ordinal))

def bodyBytes (crc : Crc32fast) (e : TxnWalEntry) : Bytes := (e.toBytes crc).drop 4

theorem bodyBytes_eq (crc : Crc32fast) (e : TxnWalEntry) :
    bodyBytes crc e = encodeRecordBody crc e.recordType e.txnId e.timestampUs e.key e.value := by
  rw [bodyBytes, toBytes_eq]
  exact drop_left' (leBytes_length 4 e.bodyLen)

section Engine
variable (A : Aead)

def envelope (nonce : Nonce) (ciphertext : Bytes) : Bytes :=
  encryptionVersion :: (nonce.val ++ ciphertext)

def encryptWithAad (nonce : Nonce) (plaintext aad : Bytes) : Except SochDBError Bytes :=
  match A.encrypt nonce.val plaintext aad with
  | none => .error (.encryption "Encryption failed")
  | some ciphertext => .ok (envelope nonce ciphertext)

def decryptWithAad (encrypted aad : Bytes) : Except SochDBError Bytes :=
  if encrypted.length < headerSize + 16 then
    .error (.encryption "Invalid format: Data too short for encrypted block")
  else
    let version := encrypted.headD 0
    if version ≠ encryptionVersion then
      .error (.encryption s!"Unsupported encryption version: {version}")
    else
      match A.decrypt ((encrypted.take headerSize).drop 1) (encrypted.drop headerSize) aad with
      | none => .error (.encryption "Decryption failed (wrong key or tampered data)")
      | some plaintext => .ok plaintext

def encryptFrame (id : Identity) (nonce : Nonce) (body : Bytes) (ordinal : Nat) :
    Except SochDBError Bytes := do
  let env ← encryptWithAad A nonce body (recordAad id ordinal)
  return leBytes 4 env.length ++ env

/-- The encrypted branch of `read_record`; the caller advances its ordinal by one. -/
def readRecord (crc : Crc32fast) (id : Identity) (ordinal : Nat) (reader : Bytes) :
    Except SochDBError (TxnWalEntry × Bytes) := do
  let (outerLen, reader) ← readLe 4 reader
  if outerLen > maxWalFrameLen then
    .error (.corruption s!"encrypted WAL frame length {outerLen} exceeds maximum {maxWalFrameLen}")
  else do
    let (env, reader) ← readExact outerLen reader
    let body ← decryptWithAad A env (recordAad id ordinal)
    let entry ← parseBody crc body
    return (entry, reader)

/-- The read loop that the replay procedures share: only the end of file ends it well. -/
def replay (crc : Crc32fast) (id : Identity) (file : Bytes) : Except SochDBError (List TxnWalEntry) :=
  readAll (readRecord A crc id) .unexpectedEof file

end Engine

/-- `recordsInFile` is the counter of the writer; the other counters play no part here. -/
structure SealedWal where
  written : Bytes
  recordsInFile : Nat
  deriving DecidableEq

namespace SealedWal
section
variable (A : Aead) (crc : Crc32fast) (id : Identity)

def put (wal : SealedWal) (frame : Bytes) : SealedWal := ⟨wal.written ++ frame, wal.recordsInFile + 1⟩

/-- `append`, and `append_no_flush`, whose body is the same: the counter moves only when
    the frame has been handed to the writer. -/
def append (wal : SealedWal) (entry : TxnWalEntry) (nonce : Nonce) : SealedWal × Option SochDBError :=
  match encryptFrame A id nonce (bodyBytes crc entry) wal.recordsInFile with
  | .error e => (wal, some e)
  | .ok frame => (wal.put frame, none)

def writeNoFlushRefs (wal : SealedWal) (txnId timestampUs : UInt64) (key value : Bytes)
    (nonce : Nonce) : SealedWal × Option SochDBError :=
  let body := encodeRecordBody crc .data txnId timestampUs key value
  match encryptFrame A id nonce body wal.recordsInFile with
  | .error e => (wal, some e)
  | .ok frame => (wal.put frame, none)

/-- The loop of `flush_buffer` over the plaintext frames of a buffer; `buf` is what is left
    of them. Records sealed before an error stay in the log. -/
def flushFrames (nonces : Nat → Nonce) : Nat → Bytes → SealedWal → SealedWal × Option SochDBError
  | 0, _, wal => (wal, none)
  | fuel + 1, buf, wal =>
    if buf.length < 4 then (wal, none)
    else
      let contentLen := ofLe (buf.take 4)
      let buf := buf.drop 4
      if buf.length < contentLen then
        (wal, some (.corruption "txn buffer truncated mid-record during encrypted flush"))
      else
        match encryptFrame A id (nonces wal.recordsInFile) (buf.take contentLen) wal.recordsInFile with
        | .error e => (wal, some e)
        | .ok frame => flushFrames nonces fuel (buf.drop contentLen) (wal.put frame)

def flushBuffer (wal : SealedWal) (buffer : TxnWalBuffer) (nonces : Nat → Nonce) :
    SealedWal × Option SochDBError :=
  if buffer.isEmpty then (wal, none)
  else flushFrames A id nonces (buffer.buffer.length + 1) buffer.buffer wal

def created : SealedWal := ⟨[], 0⟩

def truncate : SealedWal := ⟨[], 0⟩

/-- `recover_state` counts the records that it can read; an error other than the end of
    file fails the opening. -/
def recoverState (file : Bytes) : Except SochDBError SealedWal := do
  let records ← replay A crc id file
  return ⟨file, records.length⟩

end
end SealedWal

inductive Call where
  | append (entry : TxnWalEntry) (nonce : Nonce)
  | appendNoFlush (entry : TxnWalEntry) (nonce : Nonce)
  | writeNoFlushRefs (txnId timestampUs : UInt64) (key value : Bytes) (nonce : Nonce)
  | flushBuffer (txnId : UInt64) (writes : List (UInt64 × Bytes × Bytes)) (nonces : Nat → Nonce)
  | truncate
  | reopen

def requested : Call → List TxnWalEntry
  | .append entry _ | .appendNoFlush entry _ => [entry]
  | .writeNoFlushRefs txnId timestampUs key value _ => [.data txnId timestampUs key value]
  | .flushBuffer txnId writes _ => writes.map fun w => .data txnId w.1 w.2.1 w.2.2
  | .truncate | .reopen => []

def current (records : List TxnWalEntry) : Call → List TxnWalEntry
  | .truncate => []
  | call => records ++ requested call

section Machine
variable (A : Aead) (crc : Crc32fast) (id : Identity)

/-- A process whose opening fails has no log to go on with, so the state stays. -/
def step (wal : SealedWal) : Call → SealedWal
  | .append entry nonce | .appendNoFlush entry nonce => (wal.append A crc id entry nonce).1
  | .writeNoFlushRefs txnId timestampUs key value nonce =>
    (wal.writeNoFlushRefs A crc id txnId timestampUs key value nonce).1
  | .flushBuffer txnId writes nonces => (wal.flushBuffer A id (bufferOf crc txnId writes) nonces).1
  | .truncate => SealedWal.truncate
  | .reopen => match SealedWal.recoverState A crc id wal.written with
    | .ok reopened => reopened
    | .error _ => wal

/-- The record fits the limits of the reader, sealed under any nonce and number. -/
def Fits (e : TxnWalEntry) : Prop :=
  e.FitsFrame ∧ ∀ nonce ordinal ciphertext,
    A.encrypt nonce (bodyBytes crc e) (recordAad id ordinal) = some ciphertext →
      headerSize + ciphertext.length ≤ maxWalFrameLen

/-- Each record stays within the limits, and the record counter stays below `2 ^ 64`. -/
def EnvelopesFit (wal : SealedWal) (call : Call) : Prop :=
  (∀ e ∈ requested call, Fits A crc id e) ∧ wal.recordsInFile + (requested call).length < 2 ^ 64

def Sealed (ordinal : Nat) (e : TxnWalEntry) (frame : Bytes) : Prop :=
  e.FitsFrame ∧ ∃ nonce : Nonce, ∃ ciphertext,
    A.encrypt nonce.val (bodyBytes crc e) (recordAad id ordinal) = some ciphertext ∧
    headerSize + ciphertext.length ≤ maxWalFrameLen ∧
    frame = leBytes 4 (envelope nonce ciphertext).length ++ envelope nonce ciphertext

end Machine

section Seals
variable {A : Aead} {crc : Crc32fast} {id : Identity}

theorem envelope_length (nonce : Nonce) (ciphertext : Bytes) :
    (envelope nonce ciphertext).length = headerSize + ciphertext.length := by
  have size := nonce.property
  simp only [envelope, length_cons, length_append, size, headerSize]
  omega

theorem decrypt_envelope (nonce : Nonce) (ciphertext aad : Bytes) (tagged : 16 ≤ ciphertext.length) :
    decryptWithAad A (envelope nonce ciphertext) aad =
      match A.decrypt nonce.val ciphertext aad with
      | none => .error (.encryption "Decryption failed (wrong key or tampered data)")
      | some plaintext => .ok plaintext := by
  have long : ¬ (envelope nonce ciphertext).length < headerSize + 16 := by
    rw [envelope_length]
    omega
  have nonceLength := nonce.property
  have middle : ((envelope nonce ciphertext).take headerSize).drop 1 = nonce.val := by
    rw [envelope, headerSize, Nat.add_comm, take_succ_cons, drop_one, tail_cons]
    exact take_left' nonceLength
  have rest : (envelope nonce ciphertext).drop headerSize = ciphertext := by
    rw [envelope, headerSize, Nat.add_comm, drop_succ_cons]
    exact drop_left' nonceLength
  have version : (envelope nonce ciphertext).headD 0 = encryptionVersion := rfl
  rw [decryptWithAad, if_neg long, middle, rest, version]
  simp

theorem readRecord_frame (ordinal : Nat) (nonce : Nonce) (ciphertext rest : Bytes)
    (tagged : 16 ≤ ciphertext.length) (limit : headerSize + ciphertext.length ≤ maxWalFrameLen) :
    readRecord A crc id ordinal
        (leBytes 4 (envelope nonce ciphertext).length ++ envelope nonce ciphertext ++ rest) =
      match A.decrypt nonce.val ciphertext (recordAad id ordinal) with
      | none => .error (.encryption "Decryption failed (wrong key or tampered data)")
      | some body => (parseBody crc body).map fun entry => (entry, rest) := by
  have bound : (envelope nonce ciphertext).length ≤ maxWalFrameLen := by
    rw [envelope_length]
    exact limit
  have word : (envelope nonce ciphertext).length < 256 ^ 4 := by
    have small : maxWalFrameLen < 256 ^ 4 := by decide
    omega
  have within : ¬ (envelope nonce ciphertext).length > maxWalFrameLen := Nat.not_lt.mpr bound
  rw [readRecord, append_assoc, readLe_append word]
  simp only [bind, Except.bind, within, if_false, readExact_append,
    decrypt_envelope nonce ciphertext _ tagged]
  cases A.decrypt nonce.val ciphertext (recordAad id ordinal) with
  | none => rfl
  | some body =>
    cases parseBody crc body <;> rfl

variable {e : TxnWalEntry}

theorem parseBody_bodyBytes (fits : e.FitsFrame) :
    parseBody crc (bodyBytes crc e) = .ok e := by
  obtain ⟨_, shortKey, shortValue⟩ := frame_fits_words fits
  rw [bodyBytes_eq]
  exact parseBody_encodeRecordBody crc e shortKey shortValue

theorem Sealed.reads {ordinal : Nat} {frame : Bytes} (held : Sealed A crc id ordinal e frame) :
    Reads (readRecord A crc id) ordinal e frame := by
  obtain ⟨fits, nonce, ciphertext, made, limit, rfl⟩ := held
  have tagged := A.tag_added _ _ _ _ made
  constructor
  · intro empty
    have size := congrArg List.length empty
    rw [length_append, leBytes_length] at size
    simp at size
  · intro rest
    rw [readRecord_frame ordinal nonce ciphertext rest (by omega) limit, A.decrypt_same _ _ _ _ made]
    simp only [parseBody_bodyBytes fits]
    rfl

theorem Sealed.refused {ordinal other : Nat} {id' : Identity} {frame : Bytes}
    (held : Sealed A crc id' other e frame) (differs : recordAad id ordinal ≠ recordAad id' other) :
    Refuses (readRecord A crc id) .unexpectedEof ordinal frame := by
  obtain ⟨fits, nonce, ciphertext, made, limit, rfl⟩ := held
  have tagged := A.tag_added _ _ _ _ made
  refine ⟨.encryption "Decryption failed (wrong key or tampered data)", by simp, ?_⟩
  intro rest
  rw [readRecord_frame ordinal nonce ciphertext rest (by omega) limit,
    A.decrypt_other _ _ _ _ _ made differs]

theorem recordAad_injective {id' : Identity} {n m : Nat} (same : recordAad id n = recordAad id' m) :
    id = id' ∧ leBytes 8 n = leBytes 8 m := by
  obtain ⟨uuid, epoch, size⟩ := id
  obtain ⟨uuid', epoch', size'⟩ := id'
  simp only [recordAad, List.cons.injEq, true_and] at same
  obtain ⟨sameUuid, rest⟩ := append_inj same (size.trans size'.symm)
  obtain ⟨sameEpoch, sameOrdinal⟩ := append_inj rest (by rw [leBytes_length, leBytes_length])
  have epochs : epoch = epoch' :=
    UInt32.toNat_inj.mp (leBytes_injective epoch.toNat_lt epoch'.toNat_lt sameEpoch)
  subst sameUuid epochs
  exact ⟨rfl, sameOrdinal⟩

end Seals
section Writers
variable {A : Aead} {crc : Crc32fast} {id : Identity}
variable {e : TxnWalEntry}

variable (id) in
theorem encryptFrame_seals (fits : Fits A crc id e) (nonce : Nonce) (ordinal : Nat) :
    ∃ frame, encryptFrame A id nonce (bodyBytes crc e) ordinal = .ok frame ∧
      Sealed A crc id ordinal e frame := by
  have short : (bodyBytes crc e).length ≤ maxWalFrameLen := by
    rw [bodyBytes_eq, encodeRecordBody_length]
    exact fits.1
  have possible := A.encrypt_short nonce.val (bodyBytes crc e) (recordAad id ordinal) short
  obtain ⟨ciphertext, made⟩ := Option.isSome_iff_exists.mp possible
  refine ⟨_, ?_, fits.1, nonce, ciphertext, made, fits.2 _ _ _ made, rfl⟩
  simp only [encryptFrame, encryptWithAad, made]
  rfl

variable (A crc id) in
def Grows (wal : SealedWal) (records : List TxnWalEntry) (grown : SealedWal) : Prop :=
  ∃ frames, grown.written = wal.written ++ frames.flatten ∧
    grown.recordsInFile = wal.recordsInFile + records.length ∧
    InPlace (Sealed A crc id) wal.recordsInFile records frames

theorem put_grows {wal : SealedWal} {frame : Bytes} (held : Sealed A crc id wal.recordsInFile e frame) :
    Grows A crc id wal [e] (wal.put frame) :=
  ⟨[frame], by simp [SealedWal.put], rfl, held, trivial⟩

theorem append_grows (wal : SealedWal) (fits : Fits A crc id e) (nonce : Nonce) :
    Grows A crc id wal [e] (wal.append A crc id e nonce).1 := by
  obtain ⟨frame, made, held⟩ := encryptFrame_seals id fits nonce wal.recordsInFile
  simp only [SealedWal.append, made]
  exact put_grows held

theorem writeNoFlushRefs_grows (wal : SealedWal) {txnId now : UInt64} {key value : Bytes}
    (fits : Fits A crc id (.data txnId now key value)) (nonce : Nonce) :
    Grows A crc id wal [.data txnId now key value]
      (wal.writeNoFlushRefs A crc id txnId now key value nonce).1 := by
  have body := bodyBytes_eq crc (.data txnId now key value)
  obtain ⟨frame, made, held⟩ := encryptFrame_seals id fits nonce wal.recordsInFile
  rw [body] at made
  simp only [SealedWal.writeNoFlushRefs]
  simp only [TxnWalEntry.data] at made
  rw [made]
  exact put_grows held

theorem Grows.trans {wal next last : SealedWal} {records : List TxnWalEntry}
    (first : Grows A crc id wal [e] next) (later : Grows A crc id next records last) :
    Grows A crc id wal (e :: records) last := by
  obtain ⟨front, written, counted, inPlace⟩ := first
  obtain ⟨back, written', counted', inPlace'⟩ := later
  refine ⟨front ++ back, ?_, ?_, inPlace.append ?_⟩
  · rw [written', written, flatten_append, append_assoc]
  · simp only [counted', counted, length_cons, length_nil]
    omega
  · rw [← counted]
    exact inPlace'

theorem flushFrames_grows (nonces : Nat → Nonce) {records : List TxnWalEntry}
    (fits : ∀ e ∈ records, Fits A crc id e) (wal : SealedWal) {fuel : Nat} (enough : records.length < fuel) :
    Grows A crc id wal records
      (SealedWal.flushFrames A id nonces fuel ((walCodec crc).encodeAll records) wal).1 := by
  induction records generalizing wal fuel with
  | nil =>
    refine ⟨[], ?_, ?_, trivial⟩ <;>
    · cases fuel <;> simp [SealedWal.flushFrames]
  | cons e records ih =>
    cases fuel with
    | zero => simp at enough
    | succ fuel =>
      have fitsFirst := fits e (by simp)
      have word := (frame_fits_words fitsFirst.1).1
      have bytes : (walCodec crc).encodeAll (e :: records) = leBytes 4 e.bodyLen ++
          (bodyBytes crc e ++ (walCodec crc).encodeAll records) := by
        rw [Codec.encodeAll_cons, bodyBytes_eq, ← append_assoc, ← toBytes_eq]
        rfl
      have size : (bodyBytes crc e).length = e.bodyLen := by
        rw [bodyBytes_eq, encodeRecordBody_length]
      have header : (leBytes 4 e.bodyLen).length = 4 := leBytes_length 4 _
      obtain ⟨frame, made, held⟩ :=
        encryptFrame_seals id fitsFirst (nonces wal.recordsInFile) wal.recordsInFile
      have step : SealedWal.flushFrames A id nonces (fuel + 1)
          ((walCodec crc).encodeAll (e :: records)) wal =
          SealedWal.flushFrames A id nonces fuel ((walCodec crc).encodeAll records) (wal.put frame) := by
        have long : ¬ (leBytes 4 e.bodyLen ++
            (bodyBytes crc e ++ (walCodec crc).encodeAll records)).length < 4 := by
          rw [length_append]
          omega
        have present : ¬ (bodyBytes crc e ++ (walCodec crc).encodeAll records).length < e.bodyLen := by
          rw [length_append]
          omega
        rw [bytes, SealedWal.flushFrames, if_neg long, take_left' header, drop_left' header,
          ofLe_leBytes word]
        simp only [if_neg present, take_left' size, drop_left' size, made]
      rw [step]
      apply (put_grows held).trans
      apply ih (fun x member => fits x (by simp [member]))
      rw [length_cons] at enough
      omega

theorem flushBuffer_grows (wal : SealedWal) (txnId : UInt64) (writes : List (UInt64 × Bytes × Bytes))
    (nonces : Nat → Nonce)
    (fits : ∀ e ∈ writes.map fun w => TxnWalEntry.data txnId w.1 w.2.1 w.2.2, Fits A crc id e) :
    Grows A crc id wal (writes.map fun w => .data txnId w.1 w.2.1 w.2.2)
      (wal.flushBuffer A id (bufferOf crc txnId writes) nonces).1 := by
  have bytes : (bufferOf crc txnId writes).buffer = (walCodec crc).encodeAll
      (writes.map fun w => TxnWalEntry.data txnId w.1 w.2.1 w.2.2) :=
    buffer_appends crc writes (TxnWalBuffer.new txnId)
  have flushed := @flushFrames_grows A crc id nonces _ fits wal
    ((bufferOf crc txnId writes).buffer.length + 1) (by
      rw [bytes]
      exact Nat.lt_succ_of_le (encodeAll_length_le crc _))
  unfold SealedWal.flushBuffer
  split
  · rename_i empty
    have nothing : writes = [] := by
      cases writes with
      | nil => rfl
      | cons w writes =>
        have size := encodeAll_length_le crc
          ((w :: writes).map fun w => TxnWalEntry.data txnId w.1 w.2.1 w.2.2)
        rw [← bytes, isEmpty_iff.mp empty] at size
        simp at size
    subst nothing
    exact ⟨[], by simp, rfl, trivial⟩
  · rw [bytes] at flushed ⊢
    exact flushed

end Writers
section Runs
variable {A : Aead} {crc : Crc32fast} {id : Identity}

variable (A crc id) in
def InStep (records : List TxnWalEntry) (wal : SealedWal) : Prop :=
  ∃ frames, wal.written = frames.flatten ∧ InPlace (Sealed A crc id) 0 records frames ∧
    wal.recordsInFile = records.length ∧ records.length < 2 ^ 64

variable {records : List TxnWalEntry} {wal : SealedWal}

theorem InStep.grows {more : List TxnWalEntry} {grown : SealedWal} (inStep : InStep A crc id records wal)
    (grows : Grows A crc id wal more grown) (room : wal.recordsInFile + more.length < 2 ^ 64) :
    InStep A crc id (records ++ more) grown := by
  obtain ⟨frames, written, inPlace, counted, small⟩ := inStep
  obtain ⟨added, written', counted', inPlace'⟩ := grows
  refine ⟨frames ++ added, ?_, ?_, ?_, ?_⟩
  · rw [written', written, flatten_append]
  · apply inPlace.append
    rw [Nat.zero_add, ← counted]
    exact inPlace'
  · rw [counted', counted, length_append]
  · rw [length_append, ← counted]
    exact room

theorem replay_inPlace {frames : List Bytes} (inPlace : InPlace (Sealed A crc id) 0 records frames) :
    replay A crc id frames.flatten = .ok records := by
  apply readAll_inPlace
  · intro position
    rfl
  · exact inPlace.imp fun p e frame held => held.reads

theorem InStep.step (inStep : InStep A crc id records wal) {call : Call}
    (fit : EnvelopesFit A crc id wal call) :
    InStep A crc id (current records call) (step A crc id wal call) := by
  cases call with
  | append entry nonce => exact inStep.grows (append_grows wal (fit.1 entry (by simp [requested])) nonce) fit.2
  | appendNoFlush entry nonce =>
    exact inStep.grows (append_grows wal (fit.1 entry (by simp [requested])) nonce) fit.2
  | writeNoFlushRefs txnId now key value nonce =>
    exact inStep.grows (writeNoFlushRefs_grows wal (fit.1 _ (by simp [requested])) nonce) fit.2
  | flushBuffer txnId writes nonces =>
    exact inStep.grows (flushBuffer_grows wal txnId writes nonces fit.1) fit.2
  | truncate => exact ⟨[], rfl, trivial, rfl, by simp [current]⟩
  | reopen =>
    obtain ⟨frames, written, inPlace, counted, small⟩ := inStep
    have read : replay A crc id wal.written = .ok records := by
      rw [written]
      exact replay_inPlace inPlace
    simp only [SealedLog.step, SealedWal.recoverState, read, current, requested, append_nil]
    exact ⟨frames, written, inPlace, rfl, small⟩

theorem InStep.run {calls : List Call} (inStep : InStep A crc id records wal)
    (guarded : Guarded (SealedLog.step A crc id) (EnvelopesFit A crc id) wal calls) :
    InStep A crc id (calls.foldl current records) (run (SealedLog.step A crc id) wal calls) := by
  induction calls generalizing records wal with
  | nil => exact inStep
  | cons call calls ih => exact ih (inStep.step guarded.1) guarded.2

/-- A frame of the file at another place, or of another database or key epoch, was sealed
    under other associated data than the reader expects. -/
theorem misplaced_refused {frames : List Bytes} (inPlace : InPlace (Sealed A crc id) 0 records frames)
    (small : records.length < 2 ^ 64) {position : Nat} (within : position ≤ frames.length) {frame : Bytes}
    (origin : frame ∈ frames ∨ ∃ other ordinal e, other ≠ id ∧ Sealed A crc other ordinal e frame)
    (moved : frames[position]? ≠ some frame) :
    frame ≠ [] ∧ Refuses (readRecord A crc id) .unexpectedEof position frame := by
  rcases origin with own | ⟨other, ordinal, e, foreign, held⟩
  · obtain ⟨i, there⟩ := mem_iff_getElem?.mp own
    obtain ⟨e, held⟩ := inPlace.at_index there
    rw [Nat.zero_add] at held
    refine ⟨held.reads.1, held.refused fun same => moved ?_⟩
    obtain ⟨inside, _⟩ := List.getElem?_eq_some_iff.mp there
    have total := inPlace.length
    have limit : (256 : Nat) ^ 8 = 2 ^ 64 := by norm_num
    have equal := leBytes_injective (by omega) (by omega) (recordAad_injective same).2
    rw [equal]
    exact there
  · exact ⟨held.reads.1, held.refused fun same => foreign (recordAad_injective same).1.symm⟩

/-- Through appends, buffer flushes, truncations and openings every record stays sealed
    under its place in the file and is read back. A log put together in any other way from
    frames of this file and of other databases or epochs, a mere front part of it apart,
    makes the replay fail. -/
theorem ordinals_stay_in_step (calls : List Call)
    (guarded : Guarded (SealedLog.step A crc id) (EnvelopesFit A crc id) SealedWal.created calls) :
    let wal := run (SealedLog.step A crc id) SealedWal.created calls
    let records := calls.foldl current []
    ∃ frames, wal.written = frames.flatten ∧ InPlace (Sealed A crc id) 0 records frames ∧
      wal.recordsInFile = records.length ∧ replay A crc id wal.written = .ok records ∧
      ∀ tampered : List Bytes,
        (∀ frame ∈ tampered, frame ∈ frames ∨
          ∃ other ordinal e, other ≠ id ∧ Sealed A crc other ordinal e frame) →
        ¬ tampered <+: frames → ∃ error, replay A crc id tampered.flatten = .error error := by
  intro wal records
  have start : InStep A crc id [] SealedWal.created := ⟨[], rfl, trivial, rfl, by simp⟩
  obtain ⟨frames, written, inPlace, counted, small⟩ := start.run guarded
  refine ⟨frames, written, inPlace, counted, ?_, ?_⟩
  · rw [written]
    exact replay_inPlace inPlace
  · intro tampered origin not_front
    obtain ⟨front, frame, behind, rfl, first, moved⟩ := leaves_of_not_prefix not_front
    have readFront := (inPlace.imp fun p e frame held => held.reads).front first
    obtain ⟨nonempty, refused⟩ :=
      misplaced_refused inPlace small first.length_le (origin frame (by simp)) moved
    rw [← readFront.length] at refused
    obtain ⟨error, _, fails⟩ := readAll_refused readFront nonempty refused behind.flatten
    refine ⟨error, ?_⟩
    rw [flatten_append, flatten_cons]
    exact fails

end Runs
def marked : Bytes → Bytes
  | [] => [0]
  | b :: aad => 1 :: b :: marked aad

theorem marked_length (aad : Bytes) : (marked aad).length = 2 * aad.length + 1 := by
  induction aad with
  | nil => rfl
  | cons b aad ih =>
    simp only [marked, length_cons, ih]
    omega

theorem marked_unique {aad other msg : Bytes} (front : marked other <+: marked aad ++ msg) :
    other = aad := by
  induction other generalizing aad with
  | nil =>
    cases aad with
    | nil => rfl
    | cons b aad => simp [marked] at front
  | cons c other ih =>
    cases aad with
    | nil => simp [marked] at front
    | cons b aad =>
      simp only [marked, cons_append, cons_prefix_cons, true_and] at front
      rw [front.1, ih front.2]

/-- A cipher that hides nothing, with a tag that spells out the associated data. -/
def openCipher : Aead where
  encrypt _ msg aad := some (List.replicate 16 0 ++ (marked aad ++ msg))
  decrypt _ ciphertext aad :=
    if marked aad <+: ciphertext.drop 16 then
      some ((ciphertext.drop 16).drop (marked aad).length)
    else none
  encrypt_short _ _ _ _ := rfl
  tag_added _ msg aad ciphertext made := by
    obtain rfl := Option.some.inj made
    simp only [List.length_append, List.length_replicate]
    omega
  decrypt_same _ msg aad ciphertext made := by
    obtain rfl := Option.some.inj made
    rw [List.drop_left' List.length_replicate, if_pos (List.prefix_append _ _), List.drop_left]
  decrypt_other _ msg aad other ciphertext made differs := by
    obtain rfl := Option.some.inj made
    rw [List.drop_left' List.length_replicate]
    exact if_neg fun front => differs (marked_unique front)

def someIdentity : Identity := ⟨List.replicate 16 7, 1, List.length_replicate⟩
def zeroNonce : Nonce := ⟨List.replicate nonceSize 0, List.length_replicate⟩

theorem openCipher_envelope {e : TxnWalEntry} {nonce : Bytes} {ordinal : Nat} {ciphertext : Bytes}
    (made : openCipher.encrypt nonce (bodyBytes ieee e) (recordAad someIdentity ordinal) =
      some ciphertext) : headerSize + ciphertext.length = e.bodyLen + 88 := by
  obtain rfl := Option.some.inj made
  have aad : (recordAad someIdentity ordinal).length = 29 := by
    simp only [recordAad, length_cons, length_append, someIdentity.uuid_length, leBytes_length]
  have body : (bodyBytes ieee e).length = e.bodyLen := by
    rw [bodyBytes_eq, encodeRecordBody_length]
  simp only [length_append, length_replicate, marked_length, aad, body, headerSize, nonceSize]
  omega

def fourRecords : List Call :=
  [.append (.txnBegin 1 1) zeroNonce,
    .flushBuffer 1 [(2, [97], [1]), (3, [98], [2])] (fun _ => zeroNonce),
    .reopen,
    .appendNoFlush (.txnCommit 1 4) zeroNonce]

theorem repeated_record_fails_the_replay :
    ∃ frames : List Bytes,
      (run (step openCipher ieee someIdentity) SealedWal.created fourRecords).written =
        frames.flatten ∧ frames.length = 4 ∧
      replay openCipher ieee someIdentity frames.flatten =
        .ok [.txnBegin 1 1, .data 1 2 [97] [1], .data 1 3 [98] [2], .txnCommit 1 4] ∧
      ∃ error, replay openCipher ieee someIdentity (frames ++ frames.take 1).flatten =
        .error error := by
  have guarded : Guarded (step openCipher ieee someIdentity)
      (EnvelopesFit openCipher ieee someIdentity) SealedWal.created fourRecords := by
    have short : Guarded (step openCipher ieee someIdentity)
        (fun wal call => (∀ e ∈ requested call, e.bodyLen + 88 ≤ maxWalFrameLen) ∧
          wal.recordsInFile + (requested call).length < 2 ^ 64) SealedWal.created fourRecords := by
      decide +kernel
    refine @Guarded.entails _ _ _ _ _ _ (fun _ => True) _ ?_ (fun _ _ _ _ => trivial) trivial short
    intro wal call _ limits
    refine ⟨fun e member => ⟨?_, ?_⟩, limits.2⟩
    · have bound := limits.1 e member
      unfold TxnWalEntry.FitsFrame
      omega
    · intro nonce ordinal ciphertext made
      rw [openCipher_envelope made]
      exact limits.1 e member
  obtain ⟨frames, written, inPlace, _, read, rearranged⟩ := ordinals_stay_in_step fourRecords guarded
  have count : frames.length = 4 := inPlace.length.symm
  refine ⟨frames, written, count, ?_, rearranged _ ?_ ?_⟩
  · rw [← written]
    exact read
  · exact forall_mem_append.mpr ⟨fun _ => Or.inl, fun _ copy => Or.inl (mem_of_mem_take copy)⟩
  · intro front
    have longer := front.length_le
    rw [length_append, length_take] at longer
    omega

theorem readRecord_oversized (A : Aead) (crc : Crc32fast) (id : Identity) (ordinal : Nat)
    {env : Bytes} (rest : Bytes) (long : maxWalFrameLen < env.length) (word : env.length < 256 ^ 4) :
    readRecord A crc id ordinal (leBytes 4 env.length ++ env ++ rest) = .error (.corruption
      s!"encrypted WAL frame length {env.length} exceeds maximum {maxWalFrameLen}") := by
  have beyond : env.length > maxWalFrameLen := long
  rw [readRecord, append_assoc, readLe_append word]
  simp only [bind, Except.bind, beyond, if_true]

theorem sealed_too_long {e : TxnWalEntry} (size : e.bodyLen = maxWalFrameLen) :
    (SealedWal.created.append openCipher ieee someIdentity e zeroNonce).2 = none ∧
    ∃ message, replay openCipher ieee someIdentity
      (SealedWal.created.append openCipher ieee someIdentity e zeroNonce).1.written =
        .error (.corruption message) := by
  obtain ⟨ciphertext, made⟩ : ∃ ciphertext, openCipher.encrypt zeroNonce.val (bodyBytes ieee e)
      (recordAad someIdentity 0) = some ciphertext := ⟨_, rfl⟩
  have length : (envelope zeroNonce ciphertext).length = maxWalFrameLen + 88 := by
    rw [envelope_length, openCipher_envelope made, size]
  have word : (envelope zeroNonce ciphertext).length < 256 ^ 4 := by
    rw [length]
    decide
  have appended : SealedWal.created.append openCipher ieee someIdentity e zeroNonce =
      (⟨leBytes 4 (envelope zeroNonce ciphertext).length ++ envelope zeroNonce ciphertext, 1⟩, none) := by
    simp only [SealedWal.append, encryptFrame, encryptWithAad, SealedWal.created, made]
    rfl
  have refused := readRecord_oversized openCipher ieee someIdentity 0 [] (by omega) word
  rw [append_nil] at refused
  rw [appended]
  exact ⟨rfl, _, readAll_stops refused (by simp)⟩

/-- The longest record within the frame limit is appended, and then neither a replay nor an
    opening gets past it. -/
theorem longest_record_locks_the_log :
    let e : TxnWalEntry := .data 1 1 [97] (List.replicate (maxWalFrameLen - 30) 0)
    let wal := run (step openCipher ieee someIdentity) SealedWal.created [.append e zeroNonce]
    e.FitsFrame ∧
    (SealedWal.created.append openCipher ieee someIdentity e zeroNonce).2 = none ∧
    ∃ message,
      replay openCipher ieee someIdentity wal.written = .error (.corruption message) ∧
      (SealedWal.recoverState openCipher ieee someIdentity wal.written).toOption = none := by
  intro e wal
  have size : e.bodyLen = maxWalFrameLen := by
    have room : 30 ≤ maxWalFrameLen := by decide
    simp only [e, TxnWalEntry.bodyLen, TxnWalEntry.data, length_replicate, length_cons,
      length_nil, recordHeaderSize, checksumSize]
    omega
  obtain ⟨accepted, message, fails⟩ := sealed_too_long size
  refine ⟨Nat.le_of_eq size, accepted, message, fails, ?_⟩
  have reopened : SealedWal.recoverState openCipher ieee someIdentity wal.written =
      .error (.corruption message) := by
    rw [SealedWal.recoverState]
    exact congrArg (fun read => do let records ← read; return SealedWal.mk wal.written records.length) fails
  rw [reopened]
  rfl

end SealedLog
