import Nisshi.SansIo.BatchCodec

/-! A batch that a client sent: its checksum and its timestamps. -/

namespace Nisshi.SansIo

open Nisshi.Lib Nisshi.Lib.Bytes Option

namespace TimestampType

def mark (timestampType : TimestampType) (attributes : Int16) : Int16 :=
  (attributes &&& ~~~timestampTypeBitmask) ||| timestampType.toI16

theorem mark_and (apart : timestampTypeBitmask &&& mask = 0)
    (timestampType : TimestampType) : timestampType.mark attributes &&& mask = attributes &&& mask := by
  have clear : timestampType.toI16 &&& mask = 0 := by
    cases timestampType with
    | createTime => exact Int16.zero_and
    | logAppendTime => exact apart
  apply Int16.toBitVec_inj.mp
  replace apart := congrArg Int16.toBitVec apart
  replace clear := congrArg Int16.toBitVec clear
  simp only [mark, Int16.toBitVec_and, Int16.toBitVec_or, Int16.toBitVec_not, Int16.toBitVec_zero] at *
  ext i bound
  have off := congrArg (·[i]) apart
  have unset := congrArg (·[i]) clear
  simp only [BitVec.getElem_and, BitVec.getElem_or, BitVec.getElem_not, BitVec.getElem_zero] at *
  -- What is left is about four bits.
  revert off unset
  generalize timestampType.toI16.toBitVec[i] = marked
  generalize timestampTypeBitmask.toBitVec[i] = bit
  generalize mask.toBitVec[i] = masked
  generalize attributes.toBitVec[i] = set
  revert marked bit masked set
  decide

@[simp]
theorem from_mark (timestampType : TimestampType) (attributes : Int16) :
    TimestampType.from (timestampType.mark attributes) = timestampType := by
  have marked : timestampType.mark attributes &&& timestampTypeBitmask = timestampType.toI16 := by
    apply Int16.toBitVec_inj.mp
    cases timestampType with
    | createTime =>
      ext i bound
      simp [mark, toI16]
    | logAppendTime =>
      ext i bound
      simp only [mark, toI16, Int16.toBitVec_and, Int16.toBitVec_or, BitVec.getElem_and, BitVec.getElem_or]
      cases timestampTypeBitmask.toBitVec[i] <;> simp
  rw [TimestampType.from, marked]
  cases timestampType with
  | createTime => decide
  | logAppendTime => rfl

@[simp]
theorem tryFrom_mark (timestampType : TimestampType) (attributes : Int16) :
    Compression.tryFrom (timestampType.mark attributes) = Compression.tryFrom attributes := by
  rw [Compression.tryFrom, mark_and (by decide), ← Compression.tryFrom]

end TimestampType

namespace Deflated

namespace Batch

variable {codec : Codec} {batch : Batch}

variable {records : List Record}

theorem records_of_tryRecords (decoded : batch.tryRecords codec = .ok records) :
    batch.records codec = some records := by
  rw [Batch.records, decoded]
  rfl

theorem tryRecords_of_records (decoded : batch.records codec = some records) :
    batch.tryRecords codec = .ok records := by
  rw [Batch.records] at decoded
  cases read : batch.tryRecords codec with
  | error =>
    rw [read] at decoded
    cases decoded
  | ok =>
    rw [read] at decoded
    cases decoded
    rfl

theorem length_of_tryDecodeRecords {recordData : List UInt8}
    (decoded : tryDecodeRecords count budget recordData = .ok records) : records.length = count := by
  induction count generalizing budget recordData records with
  | zero =>
    rw [tryDecodeRecords] at decoded
    split at decoded
    · cases decoded
      rfl
    · cases decoded
  | succ _ ih =>
    rw [tryDecodeRecords] at decoded
    split at decoded
    · cases decoded
    · split at decoded
      · obtain ⟨_, following, rfl⟩ := map_eq_ok_iff.mp decoded
        rw [List.length_cons, ih following]
      · cases decoded

/-- A batch that decodes has as many records as it says, and no more than the limit allows. -/
theorem count_of_records (decoded : batch.records codec = some records) :
    records.length = batch.recordCount.toNat ∧
      batch.recordCount.toNat * Record.sizeOfRecord ≤ maxDecodedBatchBytes := by
  have decoded := tryRecords_of_records decoded
  simp only [tryRecords] at decoded
  split at decoded
  · cases decoded
  · split at decoded
    · cases decoded
    next within =>
      have few : batch.recordCount.toNat * Record.sizeOfRecord ≤ maxDecodedBatchBytes :=
        Nat.le_of_not_lt fun many => within (decide_eq_true many)
      split at decoded
      · cases decoded
      · exact ⟨length_of_tryDecodeRecords decoded, few⟩
      · split at decoded
        · cases decoded
        · split at decoded
          · exact ⟨length_of_tryDecodeRecords decoded, few⟩
          · cases decoded

/-- The bytes that the checksum covers: everything from `attributes` on. -/
def crcData (batch : Batch) : List UInt8 :=
  putI16 batch.attributes ++ putI32 batch.lastOffsetDelta ++ putI64 batch.baseTimestamp ++
    putI64 batch.maxTimestamp ++ putI64 batch.producerId ++ putI16 batch.producerEpoch ++
    putI32 batch.baseSequence ++ putU32 batch.recordCount ++ batch.recordData

def computedCrc (codec : Codec) (batch : Batch) : UInt32 :=
  codec.crc32c batch.crcData

theorem crc_of_tryFromInflated (ok : tryFromInflated codec inflated = some batch) :
    batch.computedCrc codec = batch.crc := by
  obtain ⟨_, _, rest⟩ := bind_eq_some_iff.mp ok
  obtain ⟨_, _, rest⟩ := bind_eq_some_iff.mp rest
  split at rest
  · split at rest
    · cases rest
      rfl
    · cases rest
  · cases rest

/-- Sets the timestamp type, the timestamps and the checksum that covers them. A batch whose checksum does not
match its contents is not changed. -/
def setTimestamps (codec : Codec) (batch : Batch) (timestampType : TimestampType)
    (baseTimestamp maxTimestamp : Int64) : Except Error Batch :=
  if batch.computedCrc codec ≠ batch.crc then .error .corruptMessage
  else
    let stamped := { batch with
      attributes := timestampType.mark batch.attributes
      baseTimestamp
      maxTimestamp }
    .ok { stamped with crc := stamped.computedCrc codec }

theorem setTimestamps_eq_ok {baseTimestamp maxTimestamp : Int64}
    (ok : batch.setTimestamps codec timestampType baseTimestamp maxTimestamp = .ok stamped) :
    stamped.crc = stamped.computedCrc codec ∧
    stamped = { batch with attributes := timestampType.mark batch.attributes, baseTimestamp, maxTimestamp
                           crc := stamped.crc } := by
  rw [setTimestamps] at ok
  split at ok
  · cases ok
  · cases ok
    exact ⟨rfl, rfl⟩

theorem records_mark (codec : Codec) (batch : Batch) (timestampType : TimestampType)
    (baseTimestamp maxTimestamp : Int64) (crc : UInt32) :
    ({ batch with attributes := timestampType.mark batch.attributes, baseTimestamp, maxTimestamp, crc } :
      Batch).records codec = batch.records codec := by
  simp only [records, tryRecords, TimestampType.tryFrom_mark]
  rfl

theorem isControl_mark (batch : Batch) (timestampType : TimestampType) (baseTimestamp maxTimestamp : Int64)
    (crc : UInt32) :
    ({ batch with attributes := timestampType.mark batch.attributes, baseTimestamp, maxTimestamp, crc } :
      Batch).isControl = batch.isControl := by
  have apart : TimestampType.timestampTypeBitmask &&& controlBitmask = 0 := by decide
  simp only [isControl, TimestampType.mark_and apart]

end Batch

end Deflated

def Inflated.Batch.tryFromRef (codec : Codec) (batch : Deflated.Batch) : Except Error Inflated.Batch :=
  (batch.tryRecords codec).map batch.withRecords

/-- `TryFrom<deflated::Batch>`: the records are no longer compressed, and the attributes say so. -/
def Inflated.Batch.tryFromValue (codec : Codec) (batch : Deflated.Batch) : Except Error Inflated.Batch :=
  match BatchAttribute.tryFrom batch.attributes with
  | none => .error .unknownCompressionType
  | some attributes =>
    (batch.tryRecords codec).map fun records =>
      { batch.withRecords records with attributes := { attributes with compression := .none }.toI16 }

structure Inflated.Batch.FromValue (codec : Codec) (batch : Deflated.Batch) (part : Inflated.Batch) : Prop where
  marks : ∃ marks, BatchAttribute.tryFrom batch.attributes = some marks ∧
    part.attributes = { marks with compression := .none }.toI16
  records : batch.tryRecords codec = .ok part.records
  header : part = { batch.withRecords part.records with attributes := part.attributes }

theorem Inflated.Batch.of_tryFromValue {batch : Deflated.Batch} (ok : tryFromValue codec batch = .ok part) :
    FromValue codec batch part := by
  rw [tryFromValue] at ok
  split at ok
  · cases ok
  next marks known =>
    obtain ⟨_, decoded, rfl⟩ := map_eq_ok_iff.mp ok
    exact ⟨⟨marks, known, rfl⟩, decoded, rfl⟩

theorem Inflated.Batch.FromValue.lastOffsetDelta {batch : Deflated.Batch} (value : FromValue codec batch part) :
    part.lastOffsetDelta = batch.lastOffsetDelta :=
  congrArg Inflated.Batch.lastOffsetDelta value.header

end Nisshi.SansIo
