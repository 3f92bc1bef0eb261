import Nisshi.SansIo.Deflated
import Nisshi.SansIo.RecordCodec

/-! Building, deflating and decoding a batch. The decoder charges each record and header to a budget, and
gives up on a batch that needs more, with an error that the caller tells apart. -/

namespace Nisshi.SansIo

open Nisshi.Lib Nisshi.Lib.Bytes List Option

structure Codec where
  compress : Compression → List UInt8 → Option (List UInt8)
  inflate : Compression → List UInt8 → Option (List UInt8)
  crc32c : List UInt8 → UInt32

inductive Error where
  | messageMaxSizeExceeded
  | offsetDeltaOverflow (field : String)
  | unknownCompressionType
  | corruptMessage
  | overflow
  deriving DecidableEq

def Record.decodeHeaderCount : Reader Nat := do
  let _attributes ← byte
  let _timestampDelta ← LongVarInt.decode
  let _offsetDelta ← VarInt.decode
  let _key ← Octets.decode
  let _value ← Octets.decode
  let length ← VarInt.decode
  if length.toInt < 0 then failure
  pure length.toInt.toNat

/-- The record at the front of the data claims more headers than a decoded batch may hold, and has the bytes
for them. -/
def Record.claimsTooManyHeaders (recordData : List UInt8) : Bool :=
  let count : Reader Nat := do
    let length ← VarInt.decode
    if length.toInt < 0 then failure
    let body ← slice length.toInt.toNat
    match decodeHeaderCount body with
    | some (count, rest) => if count ≤ rest.length then pure count else failure
    | none => failure
  match count recordData with
  | some (count, _) => decide (maxDecodedBatchBytes < count * Headers.sizeOfHeader)
  | none => false

namespace Record

variable {record : Record}

private def beforeHeaders (record : Record) : List UInt8 :=
  [record.attributes] ++ (LongVarInt.encode record.timestampDelta ++ (VarInt.encode record.offsetDelta ++
    (Octets.bytes record.key ++ (Octets.bytes record.value ++ VarInt.encode (Int32.ofNat record.headers.length)))))

private theorem reads_decodeHeaderCount (fits : record.Fits) :
    Reads decodeHeaderCount record.beforeHeaders record.headers.length := by
  have length : (Int32.ofNat record.headers.length).toInt = record.headers.length :=
    Int32.toInt_ofNat_of_lt fits.headers.length
  refine (reads_byte _).bind ((LongVarInt.reads_decode _).bind ((VarInt.reads_decode _).bind
    ((Octets.reads_decode fits.key).bind ((Octets.reads_decode fits.value).bind
    ((VarInt.reads_decode _).last ?_)))))
  rw [length, if_neg (by omega)]
  exact Reads.pure _

theorem claimsTooManyHeaders_bytes (fits : record.Fits)
    (exceeds : maxDecodedBatchBytes < record.headers.length * Headers.sizeOfHeader) (rest : List UInt8) :
    claimsTooManyHeaders (record.bytes ++ rest) = true := by
  have length : (Int32.ofNat record.bodySize).toInt = record.body.length := by
    rw [length_body]
    exact Int32.toInt_ofNat_of_lt fits.body
  have split : record.body = record.beforeHeaders ++ record.headers.flatMap Header.bytes := by
    simp only [body, beforeHeaders, Headers.bytes, List.append_assoc]
  have enough : record.headers.length ≤ (record.headers.flatMap Header.bytes).length := by
    rw [Headers.length_flatMap_bytes]
    exact Headers.length_le_sum record.headers
  have counted : Reads (do
      let length ← VarInt.decode
      if length.toInt < 0 then failure
      let body ← slice length.toInt.toNat
      match decodeHeaderCount body with
      | some (count, rest) => if count ≤ rest.length then pure count else failure
      | none => failure) record.bytes record.headers.length := by
    refine (VarInt.reads_decode _).bind ?_
    rw [length, if_neg (by omega)]
    refine (reads_slice record.body).last ?_
    rw [split, reads_decodeHeaderCount fits]
    simp only [if_pos enough]
    exact Reads.pure _
  have found := counted rest
  simp only [claimsTooManyHeaders, found, decide_eq_true_eq]
  exact exceeds

end Record

namespace Inflated

/-- The size that `Sequence<record::Builder>` gives a record: its length prefix is counted as an
unsigned varint, which may be shorter than the one that is written. -/
def sizeInclusive (record : Record) : Option Nat := do
  let size ← record.bodySizeInBytes
  if size < 2 ^ 32 then pure (varintSize size + size) else none

def builderFieldsSize : Nat :=
  4 + 1 + 4 + 2 + 4 + 8 + 8 + 8 + 2 + 4

namespace Batch

def maxTimestampOfRecords (batch : Batch) : Batch :=
  match (batch.records.map Record.timestampDelta).max? with
  | none => batch
  | some maxDelta => { batch with maxTimestamp := batch.baseTimestamp + maxDelta }

/-- `Builder::build`: the batch and each of its records must have a length that fits its field. -/
def build (batch : Batch) : Option Batch := do
  let sizes ← batch.records.mapM sizeInclusive
  if builderFieldsSize + (4 + sizes.sum) < 2 ^ 31 then
    let _lengths ← batch.records.mapM fun record => record.bodySizeInBytes.bind VarInt.tryFrom
    pure batch
  else none

theorem eq_of_build {batch : Batch} (ok : batch.build = some built) : built = batch := by
  obtain ⟨_, _, rest⟩ := bind_eq_some_iff.mp ok
  split at rest
  · obtain ⟨_, _, same⟩ := bind_eq_some_iff.mp rest
    cases same
    rfl
  · cases rest

def recordDataSize (batch : Batch) : Nat :=
  (batch.records.map Record.size).sum

def decodedSize (batch : Batch) : Nat :=
  (batch.records.map Record.allocatedSize).sum

end Batch

end Inflated

namespace Deflated

def intoRecordData (codec : Codec) (records : List Record) (compression : Compression) : Option (List UInt8) := do
  let encoded ← records.mapM Record.encode
  match compression with
  | .none => pure encoded.flatten
  | compression => codec.compress compression encoded.flatten

def crcData (batch : Inflated.Batch) (recordCount : UInt32) (recordData : List UInt8) : List UInt8 :=
  putI16 batch.attributes ++ putI32 batch.lastOffsetDelta ++ putI64 batch.baseTimestamp ++
    putI64 batch.maxTimestamp ++ putI64 batch.producerId ++ putI16 batch.producerEpoch ++
    putI32 batch.baseSequence ++ putU32 recordCount ++ recordData

def Batch.tryFromInflated (codec : Codec) (batch : Inflated.Batch) : Option Batch := do
  let compression ← Compression.tryFrom batch.attributes
  let recordData ← intoRecordData codec batch.records compression
  if batch.records.length < 2 ^ 32 then
    if fits : fixedBatchLength + recordData.length < 2 ^ 31 then
      let recordCount := UInt32.ofNat batch.records.length
      pure
        { baseOffset := batch.baseOffset
          batchLength := Int32.ofNat (fixedBatchLength + recordData.length)
          partitionLeaderEpoch := batch.partitionLeaderEpoch
          magic := batch.magic
          crc := codec.crc32c (crcData batch recordCount recordData)
          attributes := batch.attributes
          lastOffsetDelta := batch.lastOffsetDelta
          baseTimestamp := batch.baseTimestamp
          maxTimestamp := batch.maxTimestamp
          producerId := batch.producerId
          producerEpoch := batch.producerEpoch
          baseSequence := batch.baseSequence
          recordCount, recordData
          measured := Int32.toInt_ofNat_of_lt fits }
    else none
  else none

/-- Decodes the records from the front of the data, and charges each to the budget. Bytes left after the
last record are an error. -/
def tryDecodeRecords : Nat → Nat → List UInt8 → Except Error (List Record)
  | 0, _, recordData => if recordData = [] then .ok [] else .error .overflow
  | count + 1, budget, recordData =>
    match Record.decode recordData with
    | none =>
      .error (if Record.claimsTooManyHeaders recordData then .messageMaxSizeExceeded else .overflow)
    | some (record, rest) =>
      if record.allocatedSize ≤ budget then
        (tryDecodeRecords count (budget - record.allocatedSize) rest).map (record :: ·)
      else .error .messageMaxSizeExceeded

def minEncodedRecordSize : Nat :=
  7

def Batch.exceedsDecodedRecordCountLimit (batch : Batch) : Bool :=
  decide (maxDecodedBatchBytes < batch.recordCount.toNat * Record.sizeOfRecord)

def Batch.tryRecords (codec : Codec) (batch : Batch) : Except Error (List Record) :=
  let recordCount := batch.recordCount.toNat
  let compression := Compression.tryFrom batch.attributes
  if compression = some .none ∧ batch.recordData.length / minEncodedRecordSize < recordCount then
    .error .overflow
  else if batch.exceedsDecodedRecordCountLimit then .error .messageMaxSizeExceeded
  else
    match compression with
    | none => .error .unknownCompressionType
    | some .none => tryDecodeRecords recordCount maxDecodedBatchBytes batch.recordData
    | some compression =>
      match codec.inflate compression batch.recordData with
      | none => .error .overflow
      | some inflated =>
        if inflated.length ≤ maxDecodedBatchBytes then
          tryDecodeRecords recordCount (maxDecodedBatchBytes - inflated.length) inflated
        else .error .messageMaxSizeExceeded

def Batch.records (codec : Codec) (batch : Batch) : Option (List Record) :=
  (batch.tryRecords codec).toOption

/-- The inflated batch with the header of the batch. -/
def Batch.withRecords (batch : Batch) (records : List Record) : Inflated.Batch where
  baseOffset := batch.baseOffset
  partitionLeaderEpoch := batch.partitionLeaderEpoch
  magic := batch.magic
  attributes := batch.attributes
  lastOffsetDelta := batch.lastOffsetDelta
  baseTimestamp := batch.baseTimestamp
  maxTimestamp := batch.maxTimestamp
  producerId := batch.producerId
  producerEpoch := batch.producerEpoch
  baseSequence := batch.baseSequence
  records

end Deflated

def Inflated.Batch.tryFrom (codec : Codec) (batch : Deflated.Batch) : Option Inflated.Batch :=
  (batch.records codec).map batch.withRecords

namespace Inflated.Batch

def deflated (codec : Codec) (batch : Batch) : Option Deflated.Batch :=
  batch.build.bind (Deflated.Batch.tryFromInflated codec)

def Fits (batch : Batch) : Prop :=
  Deflated.fixedBatchLength + batch.recordDataSize < 2 ^ 31

instance (batch : Batch) : Decidable batch.Fits :=
  inferInstanceAs (Decidable (_ < _))

variable {codec : Codec} {batch : Batch}

theorem Fits.record (fits : batch.Fits) {record : Record} (member : record ∈ batch.records) : record.Fits := by
  have le := le_sum_of_mem (mem_map_of_mem (f := Record.size) member)
  rw [Fits, recordDataSize] at fits
  rw [Record.size] at le
  exact Record.fits_of_bodySize (by omega)

theorem sizeInclusive_eq (fits : record.Fits) :
    sizeInclusive record = some (varintSize record.bodySize + record.bodySize) := by
  have small := fits.body
  rw [sizeInclusive, Record.bodySizeInBytes_eq fits]
  simp only [bind_eq_bind, bind_some]
  rw [if_pos (by omega)]
  rfl

def countedSize (batch : Batch) : Nat :=
  builderFieldsSize + (4 + (batch.records.map fun record => varintSize record.bodySize + record.bodySize).sum)

/-- A record is counted with no more bytes than are written of it. -/
theorem sum_counted_le {records : List Record} (fits : ∀ record ∈ records, record.Fits) :
    (records.map fun record => varintSize record.bodySize + record.bodySize).sum ≤
      (records.map Record.size).sum := by
  refine sum_le_sum fun record member => ?_
  have := VarInt.varintSize_le_sizeInBytes (fits record member).body
  rw [Record.size]
  omega

theorem countedSize_lt (fits : batch.Fits) : batch.countedSize < 2 ^ 31 := by
  have le := sum_counted_le fun record member => fits.record member
  rw [Fits, recordDataSize, Deflated.fixedBatchLength] at fits
  rw [countedSize, builderFieldsSize]
  omega

theorem build_eq (fits : batch.Fits) : batch.build = some batch := by
  have sizes : batch.records.mapM sizeInclusive =
      some (batch.records.map fun record => varintSize record.bodySize + record.bodySize) :=
    mapM_eq_map fun record member => sizeInclusive_eq (fits.record member)
  have lengths : batch.records.mapM (fun record => record.bodySizeInBytes.bind VarInt.tryFrom) =
      some (batch.records.map fun record => Int32.ofNat record.bodySize) :=
    mapM_eq_map fun record member => Record.sized_of_fits (fits.record member)
  rw [build, sizes, lengths]
  simp only [bind_eq_bind, bind_some]
  rw [if_pos (show builderFieldsSize + (4 + _) < 2 ^ 31 from countedSize_lt fits)]
  rfl

end Inflated.Batch

namespace Deflated

variable {codec : Codec} {records : List Record} {batch : Inflated.Batch} {deflated : Batch}

theorem length_flatMap_bytes (records : List Record) :
    (records.flatMap Record.bytes).length = (records.map Record.size).sum := by
  rw [length_flatMap]
  congr 1
  exact map_congr_left fun record _ => record.length_bytes

theorem intoRecordData_eq (fits : ∀ record ∈ records, record.Fits) :
    intoRecordData codec records .none = some (records.flatMap Record.bytes) := by
  rw [intoRecordData, mapM_eq_map fun record member => Record.encode_eq (fits record member)]
  rfl

theorem intoRecordData_eq_some {compression : Compression}
    (encoded : intoRecordData codec records compression = some recordData) :
    (∀ record ∈ records, record.Fits) ∧ if compression = .none then recordData = records.flatMap Record.bytes
    else codec.compress compression (records.flatMap Record.bytes) = some recordData := by
  obtain ⟨_, mapped, rest⟩ := bind_eq_some_iff.mp encoded
  have fits : ∀ record ∈ records, record.Fits := by
    intro record member
    obtain ⟨_, found⟩ := exists_of_mapM mapped member
    exact Record.fits_of_encode found
  rw [mapM_eq_map fun record member => Record.encode_eq (fits record member)] at mapped
  cases mapped
  refine ⟨fits, ?_⟩
  cases compression with
  | none =>
    cases rest
    rfl
  | gzip | snappy | lz4 | zstd =>
    exact rest

/-- The deflated batch is the wire form of a batch without compression. -/
structure Batch.Carries (deflated : Batch) (batch : Inflated.Batch) : Prop where
  header : { batch with records := [] } = deflated.withRecords []
  recordCount : deflated.recordCount.toNat = batch.records.length
  recordData : deflated.recordData = batch.records.flatMap Record.bytes

theorem Batch.Carries.length_recordData (carries : deflated.Carries batch) :
    deflated.recordData.length = batch.recordDataSize := by
  rw [carries.recordData, length_flatMap_bytes, Inflated.Batch.recordDataSize]

theorem seven_mul_length_le (records : List Record) : 7 * records.length ≤ (records.map Record.size).sum := by
  induction records with
  | nil => exact Nat.le_refl _
  | cons record rest ih =>
    have := record.seven_le_size
    rw [length_cons, map_cons, sum_cons]
    omega

theorem tryFromInflated_eq (plain : Compression.tryFrom batch.attributes = some .none)
    (fits : batch.Fits) : ∃ deflated, Batch.tryFromInflated codec batch = some deflated ∧ deflated.Carries batch := by
  have length := length_flatMap_bytes batch.records
  have few := seven_mul_length_le batch.records
  have small : fixedBatchLength + (batch.records.flatMap Record.bytes).length < 2 ^ 31 := by
    rw [length]
    exact fits
  have count : batch.records.length < 2 ^ 32 := by omega
  rw [Batch.tryFromInflated, plain]
  simp only [bind_eq_bind, bind_some,
    intoRecordData_eq fun record member => fits.record member, if_pos count, dif_pos small]
  refine ⟨_, rfl, rfl, ?_, rfl⟩
  simp only [UInt32.toNat_ofNat']
  omega

theorem fits_of_tryFromInflated (plain : Compression.tryFrom batch.attributes = some .none)
    (ok : Batch.tryFromInflated codec batch = some deflated) : batch.Fits := by
  rw [Batch.tryFromInflated, plain] at ok
  obtain ⟨_, ⟨⟩, rest⟩ := bind_eq_some_iff.mp ok
  obtain ⟨_, encoded, rest⟩ := bind_eq_some_iff.mp rest
  obtain ⟨-, written⟩ := intoRecordData_eq_some encoded
  rw [if_pos rfl] at written
  subst written
  split at rest
  · split at rest
    next small =>
      rw [length_flatMap_bytes] at small
      exact small
    next => cases rest
  · cases rest

theorem tryDecodeRecords_flatMap (fits : ∀ record ∈ records, record.Fits) (limit : budget ≤ maxDecodedBatchBytes) :
    tryDecodeRecords records.length budget (records.flatMap Record.bytes) =
      if (records.map Record.allocatedSize).sum ≤ budget then .ok records else .error .messageMaxSizeExceeded := by
  induction records generalizing budget with
  | nil => simp [tryDecodeRecords]
  | cons record rest ih =>
    have here := fits record mem_cons_self
    have there := ih (fun other member => fits other (mem_cons_of_mem _ member))
      (show budget - record.allocatedSize ≤ maxDecodedBatchBytes by omega)
    have size : record.allocatedSize = Record.sizeOfRecord + record.headers.length * Headers.sizeOfHeader := rfl
    rw [length_cons, flatMap_cons, map_cons, sum_cons, tryDecodeRecords]
    by_cases headers : record.headers.length * Headers.sizeOfHeader ≤ maxDecodedBatchBytes
    · rw [Record.reads_decode here headers]
      simp only [there]
      by_cases charged : record.allocatedSize ≤ budget
      · rw [if_pos charged]
        by_cases all : (rest.map Record.allocatedSize).sum ≤ budget - record.allocatedSize
        · rw [if_pos all, if_pos (by omega)]
          rfl
        · rw [if_neg all, if_neg (by omega)]
          rfl
      · rw [if_neg charged, if_neg (by omega)]
    · rw [Record.refuses_decode here (by omega)]
      simp only [Record.claimsTooManyHeaders_bytes here (by omega), if_true]
      rw [if_neg (by omega)]

theorem sizeOfRecord_mul_length_le (records : List Record) :
    records.length * Record.sizeOfRecord ≤ (records.map Record.allocatedSize).sum := by
  induction records with
  | nil => simp
  | cons record rest ih =>
    rw [length_cons, map_cons, sum_cons, Record.allocatedSize, Nat.succ_mul]
    omega

namespace Batch

variable {codec : Codec} {batch : Batch}

theorem tryRecords_eq (plain : Compression.tryFrom inflated.attributes = some .none)
    (fits : inflated.Fits) (carries : batch.Carries inflated) : batch.tryRecords codec =
      if inflated.decodedSize ≤ maxDecodedBatchBytes then .ok inflated.records
      else .error .messageMaxSizeExceeded := by
  have same : batch.attributes = inflated.attributes :=
    (congrArg Inflated.Batch.attributes carries.header).symm
  have few := seven_mul_length_le inflated.records
  have counted := sizeOfRecord_mul_length_le inflated.records
  have enough : ¬batch.recordData.length / minEncodedRecordSize < batch.recordCount.toNat := by
    rw [carries.length_recordData, carries.recordCount, Inflated.Batch.recordDataSize, minEncodedRecordSize]
    omega
  have decoded := tryDecodeRecords_flatMap (fun record member => fits.record member)
    (Nat.le_refl maxDecodedBatchBytes)
  rw [← carries.recordCount, ← carries.recordData] at decoded
  simp only [tryRecords, same, plain, true_and, enough, if_false, decoded]
  rw [exceedsDecodedRecordCountLimit, carries.recordCount]
  by_cases within : inflated.decodedSize ≤ maxDecodedBatchBytes
  · rw [if_neg]
    · rfl
    · rw [Inflated.Batch.decodedSize] at within
      simp only [decide_eq_true_eq]
      omega
  · split
    · rfl
    · exact if_neg within

end Batch

theorem records_eq (plain : Compression.tryFrom batch.attributes = some .none)
    (fits : batch.Fits) (carries : deflated.Carries batch) : deflated.records codec =
      if batch.decodedSize ≤ maxDecodedBatchBytes then some batch.records else none := by
  rw [Batch.records, Batch.tryRecords_eq plain fits carries]
  split <;> rfl

end Deflated

namespace Inflated.Batch

variable {codec : Codec} {batch : Batch} {deflated : Deflated.Batch}

variable (plain : Compression.tryFrom batch.attributes = some .none)

include plain

theorem deflated_eq (fits : batch.Fits) :
    ∃ deflated, batch.deflated codec = some deflated ∧ deflated.Carries batch := by
  rw [Batch.deflated, build_eq fits]
  exact Deflated.tryFromInflated_eq plain fits

theorem fits_of_deflated (ok : batch.deflated codec = some deflated) : batch.Fits := by
  obtain ⟨_, same, converted⟩ := bind_eq_some_iff.mp ok
  obtain rfl := eq_of_build same
  exact Deflated.fits_of_tryFromInflated plain converted

theorem carries_of_deflated (ok : batch.deflated codec = some deflated) : deflated.Carries batch := by
  obtain ⟨_, same, carries⟩ := deflated_eq plain (fits_of_deflated plain ok)
  rw [ok] at same
  cases same
  exact carries

/-- A deflated batch is decoded to the batch it was made of, unless that is over the budget. -/
theorem tryFrom_eq (ok : batch.deflated codec = some deflated) : tryFrom codec deflated =
      if batch.decodedSize ≤ maxDecodedBatchBytes then some batch else none := by
  have carries := carries_of_deflated plain ok
  rw [tryFrom, Deflated.records_eq plain (fits_of_deflated plain ok) carries]
  split
  · have header := congrArg (fun header : Batch => { header with records := batch.records }) carries.header
    exact congrArg some header.symm
  · rfl

end Inflated.Batch

end Nisshi.SansIo
