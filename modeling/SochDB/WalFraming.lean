import SochDB.WalRecords

/-!
The four encoders write the same bytes for the same record, and the reader accepts
exactly what they wrote. Cutting a log at any byte loses the record under the cut
and nothing before it.
-/
namespace WalFraming
open LittleEndian Framing WalRecords List

@[simp] theorem readExact_append (xs rest : Bytes) :
    readExact xs.length (xs ++ rest) = .ok (xs, rest) := by
  simp [readExact]

theorem readExact_short {n : Nat} {bytes : Bytes} (short : bytes.length < n) :
    readExact n bytes = .error .unexpectedEof := by
  simp [readExact, Nat.not_le.mpr short]

theorem readLe_append {w n : Nat} (fits : n < 256 ^ w) (rest : Bytes) :
    readLe w (leBytes w n ++ rest) = .ok (n, rest) := by
  have word := readExact_append (leBytes w n) rest
  rw [leBytes_length] at word
  simp only [readLe, word, bind, Except.bind, ofLe_leBytes fits]
  rfl

theorem readLe_short {w : Nat} {bytes : Bytes} (short : bytes.length < w) :
    readLe w bytes = .error .unexpectedEof := by
  simp only [readLe, readExact_short short]
  rfl

section Frames
variable (crc : Crc32fast)

section
variable (e : TxnWalEntry)

theorem encodeRecordBody_fields :
    encodeRecordBody crc e.recordType e.txnId e.timestampUs e.key e.value =
      e.recordType.toU8 :: (leBytes 8 e.txnId.toNat ++ (leBytes 8 e.timestampUs.toNat ++
        (leBytes 4 e.key.length ++ (leBytes 4 e.value.length ++
          (e.key ++ (e.value ++ leBytes 4 (e.checksum crc).toNat)))))) := by
  simp [encodeRecordBody, TxnWalEntry.checksum]

theorem encodeRecordBody_length :
    (encodeRecordBody crc e.recordType e.txnId e.timestampUs e.key e.value).length = e.bodyLen := by
  simp only [encodeRecordBody_fields, TxnWalEntry.bodyLen, recordHeaderSize, checksumSize,
    length_cons, length_append, leBytes_length]
  omega

theorem parseBody_encodeRecordBody (shortKey : e.key.length < 256 ^ 4)
    (shortValue : e.value.length < 256 ^ 4) :
    parseBody crc (encodeRecordBody crc e.recordType e.txnId e.timestampUs e.key e.value) = .ok e := by
  have idFits : e.txnId.toNat < 256 ^ 8 := e.txnId.toNat_lt
  have tsFits : e.timestampUs.toNat < 256 ^ 8 := e.timestampUs.toNat_lt
  have crcFits : (e.checksum crc).toNat < 256 ^ 4 := UInt32.toNat_lt _
  have last := readLe_append crcFits []
  rw [append_nil] at last
  simp only [encodeRecordBody_fields, parseBody, readU8, bind, Except.bind,
    WalRecordType.tryFrom_toU8, readLe_append idFits, readLe_append tsFits, readLe_append shortKey,
    readLe_append shortValue, readExact_append, UInt64.ofNat_toNat, last, ne_eq, not_true_eq_false,
    if_false]

theorem toBytes_eq : e.toBytes crc = leBytes 4 e.bodyLen ++
    encodeRecordBody crc e.recordType e.txnId e.timestampUs e.key e.value := by
  have content : recordHeaderSize + e.key.length + e.value.length + checksumSize - 4 = e.bodyLen := by
    simp only [TxnWalEntry.bodyLen, recordHeaderSize]
    omega
  rw [encodeRecordBody_fields, ← content]
  simp [TxnWalEntry.toBytes, TxnWalEntry.checksum]

theorem toBytes_length : (e.toBytes crc).length = 4 + e.bodyLen := by
  rw [toBytes_eq, length_append, leBytes_length, encodeRecordBody_length]

end

theorem bufferAppend_eq (b : TxnWalBuffer) (ts : UInt64) (key value : Bytes) :
    (b.append crc ts key value).buffer =
      b.buffer ++ (TxnWalEntry.data b.txnId ts key value).toBytes crc := by
  simp [TxnWalBuffer.append, TxnWalEntry.data, TxnWalEntry.toBytes]

theorem writeNoFlushRefs_eq (writer : Bytes) (txnId ts : UInt64) (key value : Bytes) :
    writeNoFlushRefs crc writer txnId ts key value =
      writer ++ (TxnWalEntry.data txnId ts key value).toBytes crc := by
  simp [writeNoFlushRefs, TxnWalEntry.data, TxnWalEntry.toBytes]

theorem body_positive (e : TxnWalEntry) : recordHeaderSize - 4 + checksumSize ≤ e.bodyLen := by
  simp only [TxnWalEntry.bodyLen]
  omega

theorem frame_fits_words {e : TxnWalEntry} (fits : e.FitsFrame) :
    e.bodyLen < 256 ^ 4 ∧ e.key.length < 256 ^ 4 ∧ e.value.length < 256 ^ 4 := by
  have limit : maxWalFrameLen < 256 ^ 4 := by decide
  have bound : e.bodyLen ≤ maxWalFrameLen := fits
  simp only [TxnWalEntry.bodyLen] at bound ⊢
  omega

theorem fromReader_frame (e : TxnWalEntry) (fits : e.FitsFrame) (rest : Bytes) :
    fromReader crc (leBytes 4 e.bodyLen ++ rest) = (do
      let (body, reader) ← readExact e.bodyLen rest
      let entry ← parseBody crc body
      return (entry, reader)) := by
  have short : ¬ e.bodyLen < recordHeaderSize - 4 + checksumSize := Nat.not_lt.mpr (body_positive e)
  have long : ¬ e.bodyLen > maxWalFrameLen := Nat.not_lt.mpr fits
  rw [fromReader, readLe_append (frame_fits_words fits).1]
  simp only [bind, Except.bind, short, long, if_false]

/-- The encoders write a longer frame all the same, and the reader refuses it. -/
theorem fromReader_oversized (e : TxnWalEntry) (rest : Bytes) (long : maxWalFrameLen < e.bodyLen)
    (word : e.bodyLen < 256 ^ 4) :
    fromReader crc (e.toBytes crc ++ rest) = .error (.corruption
      s!"WAL entry length {e.bodyLen} exceeds maximum {maxWalFrameLen}") := by
  have short : ¬ e.bodyLen < recordHeaderSize - 4 + checksumSize := Nat.not_lt.mpr (body_positive e)
  have beyond : e.bodyLen > maxWalFrameLen := long
  rw [toBytes_eq, append_assoc, fromReader, readLe_append word]
  simp only [bind, Except.bind, short, beyond, if_false, if_true]

theorem fromReader_toBytes (e : TxnWalEntry) (rest : Bytes) (fits : e.FitsFrame) :
    fromReader crc (e.toBytes crc ++ rest) = .ok (e, rest) := by
  obtain ⟨_, shortKey, shortValue⟩ := frame_fits_words fits
  have whole := readExact_append
    (encodeRecordBody crc e.recordType e.txnId e.timestampUs e.key e.value) rest
  rw [encodeRecordBody_length] at whole
  rw [toBytes_eq, append_assoc, fromReader_frame crc e fits]
  simp only [bind, Except.bind, whole, parseBody_encodeRecordBody crc e shortKey shortValue]
  rfl

/-- A cut inside the length prefix fails the first read; a later cut leaves the
    prefix intact and fails the read of the body. -/
theorem fromReader_torn (e : TxnWalEntry) (n : Nat) (fits : e.FitsFrame)
    (inside : n < (e.toBytes crc).length) :
    fromReader crc ((e.toBytes crc).take n) = .error .unexpectedEof := by
  rw [toBytes_length] at inside
  rw [toBytes_eq]
  by_cases header : n < 4
  · have short : (((leBytes 4 e.bodyLen ++ encodeRecordBody crc e.recordType e.txnId e.timestampUs
        e.key e.value)).take n).length < 4 := by
      rw [length_take]
      omega
    rw [fromReader, readLe_short short]
    rfl
  · have prefixWhole : (leBytes 4 e.bodyLen).length ≤ n := by
      rw [leBytes_length]
      omega
    have cut : ((encodeRecordBody crc e.recordType e.txnId e.timestampUs e.key e.value).take
        (n - 4)).length < e.bodyLen := by
      rw [length_take]
      omega
    rw [take_append, take_of_length_le prefixWhole, leBytes_length,
      fromReader_frame crc e fits, readExact_short cut]
    rfl

theorem readExact_shrinks {n : Nat} {bytes word rest : Bytes}
    (read : readExact n bytes = .ok (word, rest)) : rest.length + n = bytes.length := by
  unfold readExact at read
  split at read
  · rename_i enough
    cases read
    rw [length_drop]
    omega
  · cases read

theorem fromReader_shrinks (bytes : Bytes) (e : TxnWalEntry) (rest : Bytes)
    (read : fromReader crc bytes = .ok (e, rest)) : rest.length < bytes.length := by
  simp only [fromReader, readLe, bind, Except.bind, pure, Except.pure] at read
  cases header : readExact 4 bytes with
  | error e => simp [header] at read
  | ok pair =>
    obtain ⟨word, reader⟩ := pair
    have consumed := readExact_shrinks header
    simp only [header] at read
    split at read
    · cases read
    · split at read
      · cases read
      · cases content : readExact (ofLe word) reader with
        | error e => simp [content] at read
        | ok pair =>
          obtain ⟨body, tail⟩ := pair
          have shorter := readExact_shrinks content
          simp only [content] at read
          cases parsed : parseBody crc body with
          | error e => simp [parsed] at read
          | ok entry =>
            simp only [parsed] at read
            cases read
            omega

/-- Plaintext WAL frames obey the laws of a self-delimiting codec. -/
def walCodec : Codec TxnWalEntry SochDBError where
  encode := TxnWalEntry.toBytes crc
  read := fromReader crc
  Fits := TxnWalEntry.FitsFrame
  eof := .unexpectedEof
  read_nil := rfl
  read_encode := fromReader_toBytes crc
  read_torn := fromReader_torn crc
  read_shrinks := fromReader_shrinks crc

/-- The four ways in which the engine appends one record to bytes already written. -/
inductive Encoder where
  | toBytes | bufferAppend | writeNoFlushRefs | framedBody
  deriving DecidableEq, Repr

namespace Encoder

/-- Transaction buffers and the zero-copy writer only ever write data records. -/
def Applies : Encoder → TxnWalEntry → Prop
  | bufferAppend, e | writeNoFlushRefs, e => e.recordType = .data
  | _, _ => True

instance (encoder : Encoder) (e : TxnWalEntry) : Decidable (encoder.Applies e) := by
  cases encoder <;> unfold Applies <;> infer_instance

def write (encoder : Encoder) (out : Bytes) (e : TxnWalEntry) : Bytes :=
  match encoder with
  | toBytes => out ++ e.toBytes crc
  | bufferAppend =>
    ((⟨e.txnId, out, 0⟩ : TxnWalBuffer).append crc e.timestampUs e.key e.value).buffer
  | writeNoFlushRefs => WalRecords.writeNoFlushRefs crc out e.txnId e.timestampUs e.key e.value
  | framedBody =>
    let body := encodeRecordBody crc e.recordType e.txnId e.timestampUs e.key e.value
    out ++ leBytes 4 body.length ++ body

theorem write_eq_toBytes (encoder : Encoder) (out : Bytes) (e : TxnWalEntry)
    (applies : encoder.Applies e) : encoder.write crc out e = out ++ e.toBytes crc := by
  cases encoder with
  | toBytes => rfl
  | bufferAppend =>
    obtain ⟨recordType, txnId, timestampUs, key, value⟩ := e
    obtain rfl : recordType = .data := applies
    exact bufferAppend_eq crc _ _ _ _
  | writeNoFlushRefs =>
    obtain ⟨recordType, txnId, timestampUs, key, value⟩ := e
    obtain rfl : recordType = .data := applies
    exact writeNoFlushRefs_eq crc _ _ _ _ _
  | framedBody => simp only [write, toBytes_eq, encodeRecordBody_length, append_assoc]

end Encoder

def writeLog (out : Bytes) (records : List (Encoder × TxnWalEntry)) : Bytes :=
  records.foldl (fun out record => record.1.write crc out record.2) out

theorem writeLog_eq_encodeAll (out : Bytes) (records : List (Encoder × TxnWalEntry))
    (applies : ∀ r ∈ records, r.1.Applies r.2) :
    writeLog crc out records = out ++ (walCodec crc).encodeAll (records.map Prod.snd) := by
  induction records generalizing out with
  | nil => simp [writeLog]
  | cons r records ih =>
    have first := r.1.write_eq_toBytes crc out r.2 (applies r (by simp))
    have later := ih (r.1.write crc out r.2) (fun x hx => applies x (by simp [hx]))
    rw [writeLog, foldl_cons]
    refine later.trans ?_
    rw [first, append_assoc]
    rfl

/-- Whichever encoder wrote each record, the bytes are the same, and a log cut after
    `n` bytes replays the records whose last byte is among them, then ends. -/
theorem encoders_agree_and_logs_tear_cleanly (records : List (Encoder × TxnWalEntry))
    (applies : ∀ r ∈ records, r.1.Applies r.2) (fits : ∀ r ∈ records, r.2.FitsFrame) :
    (∀ r ∈ records, ∀ other : Encoder, other.Applies r.2 →
      ∀ out, other.write crc out r.2 = r.1.write crc out r.2) ∧
    ∀ n, scan (fromReader crc) ((writeLog crc [] records).take n) =
      ((walCodec crc).recordsWithin n 0 (records.map Prod.snd), some .unexpectedEof) := by
  constructor
  · intro r member other also out
    rw [other.write_eq_toBytes crc out r.2 also,
      r.1.write_eq_toBytes crc out r.2 (applies r member)]
  · intro n
    have entriesFit : ∀ e ∈ records.map Prod.snd, (walCodec crc).Fits e := by
      intro e member
      obtain ⟨r, inside, rfl⟩ := mem_map.mp member
      exact fits r inside
    have cut := (walCodec crc).scan_cut entriesFit 0 n
    rw [Nat.zero_add] at cut
    rw [writeLog_eq_encodeAll crc [] records applies]
    exact cut

end Frames

theorem two_records_tear_cleanly :
    let first : TxnWalEntry := ⟨.txnBegin, 1, 7, [], []⟩
    let second : TxnWalEntry := ⟨.data, 1, 8, [107], [118]⟩
    let records := [(Encoder.toBytes, first), (Encoder.bufferAppend, second)]
    Encoder.writeNoFlushRefs.write ieee [] second = Encoder.bufferAppend.write ieee [] second ∧
    ∀ n, scan (fromReader ieee) ((writeLog ieee [] records).take n) =
      ((walCodec ieee).recordsWithin n 0 [first, second], some .unexpectedEof) := by
  intro first second records
  have law := encoders_agree_and_logs_tear_cleanly ieee records (by decide) (by decide)
  exact ⟨law.1 (Encoder.bufferAppend, second) (by decide) .writeNoFlushRefs rfl [], law.2⟩

end WalFraming
