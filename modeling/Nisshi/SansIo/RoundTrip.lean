import Nisshi.SansIo.Merge

/-! A batch on the wire and back: what deflating a batch, writing it, reading it from bytes that go on after it
and inflating it make of the batch, and what the size of its records says about whether it decodes. -/

namespace Nisshi.SansIo

open Nisshi.Lib Nisshi.Lib.Bytes List Option

def usizeMax : Nat :=
  2 ^ 64 - 1

def saturatingAddUsize (a b : Nat) : Nat :=
  min (a + b) usizeMax

namespace Record

def sizeInBytes (record : Record) : Option Nat := do
  let body ← record.bodySizeInBytes
  let length ← VarInt.tryFrom body
  pure (VarInt.sizeInBytes length + body)

theorem sizeInBytes_eq {record : Record} (fits : record.Fits) : record.sizeInBytes = some record.size := by
  rw [sizeInBytes, bodySizeInBytes_eq fits]
  simp only [bind_eq_bind, bind_some, VarInt.tryFrom, if_pos fits.body]
  rfl

def decodeMeasured : Reader (Int32 × Record) := do
  let length ← VarInt.decode
  if length.toInt < 0 then failure
  let body ← slice length.toInt.toNat
  match decodeBody body with
  | some (record, []) => pure (length, record)
  | _ => failure

def measured (record : Record) : Int32 × Record :=
  (Int32.ofNat record.bodySize, record)

theorem reads_decodeMeasured {record : Record} (fits : record.Fits)
    (budget : record.headers.length * Headers.sizeOfHeader ≤ maxDecodedBatchBytes) :
    Reads decodeMeasured record.bytes record.measured := by
  refine (VarInt.reads_decode _).bind ?_
  rw [toInt_bodySize fits, if_neg (by omega)]
  refine (reads_slice record.body).last ?_
  rw [(reads_decodeBody fits budget).all]
  exact Reads.pure record.measured

end Record

def decodedRecordSize (record : Record) (compression : Compression) : Option Nat :=
  if compression = .none then some record.allocatedSize
  else record.sizeInBytes.map (saturatingAddUsize record.allocatedSize)

def Inflated.Batch.decodedSizeFor (batch : Inflated.Batch) (compression : Compression) : Option Nat :=
  batch.records.foldlM
    (fun size record => (decodedRecordSize record compression).map (saturatingAddUsize size)) 0

theorem decodedRecordSize_eq (fits : record.Fits) (compression : Compression) :
    decodedRecordSize record compression = some (record.decodedSize compression) := by
  have headers := fits.headers.length
  have body := fits.body
  have length := VarInt.sizeInBytes_le (Int32.ofNat record.bodySize)
  rw [decodedRecordSize, Record.decodedSize, Record.sizeInBytes_eq fits]
  split
  next => rfl
  next =>
    refine congrArg some (min_eq_left ?_)
    rw [Record.size, Record.allocatedSize, Record.sizeOfRecord, Headers.sizeOfHeader, usizeMax]
    omega

theorem foldlM_saturatingAddUsize {g : Record → Option Nat} (records : List Record) (small : size ≤ usizeMax) :
    records.foldlM (fun size record => (g record).map (saturatingAddUsize size)) size =
      (records.mapM g).map fun sizes => min (size + sizes.sum) usizeMax := by
  induction records generalizing size with
  | nil => simp [min_eq_left small]
  | cons record rest ih =>
    rw [foldlM_cons, mapM_cons]
    cases g record with
    | none => rfl
    | some here =>
      have next : saturatingAddUsize size here ≤ usizeMax := min_le_right _ _
      change rest.foldlM _ (saturatingAddUsize size here) = _
      rw [ih next]
      cases rest.mapM g with
      | none => rfl
      | some sizes =>
        change some (min (min (size + here) usizeMax + sizes.sum) usizeMax) =
          some (min (size + (here :: sizes).sum) usizeMax)
        rw [sum_cons]
        congr 1
        omega

theorem decodedSizeFor_eq_mapM (batch : Inflated.Batch) (compression : Compression) : batch.decodedSizeFor compression =
      (batch.records.mapM (decodedRecordSize · compression)).map fun sizes => min sizes.sum usizeMax := by
  rw [Inflated.Batch.decodedSizeFor, foldlM_saturatingAddUsize _ (Nat.zero_le _)]
  simp only [Nat.zero_add]

theorem decodedSizeFor_eq {batch : Inflated.Batch} (fits : ∀ record ∈ batch.records, record.Fits)
    (compression : Compression) : batch.decodedSizeFor compression =
      some (min (batch.records.map (Record.decodedSize compression)).sum usizeMax) := by
  rw [decodedSizeFor_eq_mapM, mapM_eq_map fun record member => decodedRecordSize_eq (fits record member) compression]
  rfl

theorem sum_allocatedSize_le (compression : Compression) (records : List Record) :
    (records.map Record.allocatedSize).sum ≤ (records.map (Record.decodedSize compression)).sum :=
  sum_le_sum fun _ _ => Nat.le_add_right _ _

theorem decodedSizeFor_le_iff {batch : Inflated.Batch} (fits : ∀ record ∈ batch.records, record.Fits)
    (compression : Compression) :
    (∃ size, batch.decodedSizeFor compression = some size ∧ size ≤ maxDecodedBatchBytes) ↔
      (batch.records.map (Record.decodedSize compression)).sum ≤ maxDecodedBatchBytes := by
  have least : maxDecodedBatchBytes < usizeMax := by decide
  rw [decodedSizeFor_eq fits]
  constructor
  · rintro ⟨size, ⟨⟩, within⟩
    omega
  · intro within
    exact ⟨_, rfl, by omega⟩

namespace Deflated

variable {codec : Codec} {batch : Inflated.Batch} {deflated : Batch}

theorem records_fit_of_tryFromInflated (ok : Batch.tryFromInflated codec batch = some deflated) :
    ∀ record ∈ batch.records, record.Fits := by
  obtain ⟨_, _, rest⟩ := bind_eq_some_iff.mp ok
  obtain ⟨_, encoded, _⟩ := bind_eq_some_iff.mp rest
  exact (intoRecordData_eq_some encoded).1

end Deflated

/-- A batch that is encoded with a compression decodes exactly if the size that was computed from its records
is within the limit. -/
theorem decodes_iff_decodedSizeFor_le (codec : Codec) (lossless : codec.Lossless) (batch : Inflated.Batch)
    (compression : Compression) (attributes : Int16)
    (known : Compression.tryFrom attributes = some compression) (deflated : Deflated.Batch)
    (encoded : Deflated.Batch.tryFromInflated codec { batch with attributes := attributes } = some deflated) :
    (∃ records, deflated.tryRecords codec = .ok records) ↔
      ∃ size, batch.decodedSizeFor compression = some size ∧ size ≤ maxDecodedBatchBytes := by
  have fits := Deflated.records_fit_of_tryFromInflated encoded
  change ∀ record ∈ batch.records, record.Fits at fits
  have decoded : deflated.records codec =
      if (batch.records.map (Record.decodedSize compression)).sum ≤ maxDecodedBatchBytes then
        some batch.records else none :=
    @Deflated.records_of_tryFromInflated codec { batch with attributes := attributes } deflated lossless
      compression known encoded
  rw [decodedSizeFor_le_iff fits]
  constructor
  · rintro ⟨_, ok⟩
    by_contra exceeds
    rw [Deflated.Batch.records_of_tryRecords ok, if_neg exceeds] at decoded
    cases decoded
  · intro within
    rw [if_pos within] at decoded
    exact ⟨_, Deflated.Batch.tryRecords_of_records decoded⟩

def markingCodec : Codec where
  compress _ bytes := some (1 :: bytes)
  inflate _ bytes := some bytes.tail
  crc32c bytes := UInt32.ofNat bytes.length

theorem lossless_markingCodec : markingCodec.Lossless := by
  intro compression bytes compressed same
  cases same
  rfl

def gzipBatch : Inflated.Batch where
  baseOffset := 7
  partitionLeaderEpoch := -1
  magic := 2
  attributes := 1
  lastOffsetDelta := 0
  baseTimestamp := 900
  maxTimestamp := 900
  producerId := -1
  producerEpoch := -1
  baseSequence := -1
  records := [⟨0, 0, 0, some [107], none, [⟨some [104], none⟩]⟩]

theorem exists_deflated_gzipBatch : ∃ deflated, Deflated.Batch.tryFromInflated markingCodec gzipBatch = some deflated :=
  isSome_iff_exists.mp (by decide +kernel)

theorem decodes_iff_decodedSizeFor_le_gzip :
    ∃ deflated, Deflated.Batch.tryFromInflated markingCodec gzipBatch = some deflated ∧
      gzipBatch.decodedSizeFor .gzip = some 187 ∧ ((∃ records, deflated.tryRecords markingCodec = .ok records) ↔
        ∃ size, gzipBatch.decodedSizeFor .gzip = some size ∧ size ≤ maxDecodedBatchBytes) := by
  obtain ⟨deflated, encoded⟩ := exists_deflated_gzipBatch
  exact ⟨deflated, encoded, by decide +kernel,
    decodes_iff_decodedSizeFor_le markingCodec lossless_markingCodec gzipBatch .gzip 1 rfl deflated encoded⟩

namespace Deflated

def decodeMeasuredRecords : Nat → Nat → List UInt8 → Option (List (Int32 × Record))
  | 0, _, recordData => if recordData = [] then some [] else none
  | count + 1, budget, recordData =>
    match Record.decodeMeasured recordData with
    | none => none
    | some (measured, rest) =>
      if measured.2.allocatedSize ≤ budget then
        (decodeMeasuredRecords count (budget - measured.2.allocatedSize) rest).map (measured :: ·)
      else none

def Batch.measuredRecords (codec : Codec) (batch : Batch) : Option (List (Int32 × Record)) :=
  let recordCount := batch.recordCount.toNat
  let compression := Compression.tryFrom batch.attributes
  if compression = some .none ∧ batch.recordData.length / minEncodedRecordSize < recordCount then none
  else if maxDecodedBatchBytes < recordCount * Record.sizeOfRecord then none
  else if compression = some .none then
    decodeMeasuredRecords recordCount maxDecodedBatchBytes batch.recordData
  else do
    let inflated ← codec.inflate (← compression) batch.recordData
    if inflated.length ≤ maxDecodedBatchBytes then
      decodeMeasuredRecords recordCount (maxDecodedBatchBytes - inflated.length) inflated
    else none

theorem decodeMeasuredRecords_flatMap {records : List Record} (fits : ∀ record ∈ records, record.Fits)
    (limit : budget ≤ maxDecodedBatchBytes) (within : (records.map Record.allocatedSize).sum ≤ budget) :
    decodeMeasuredRecords records.length budget (records.flatMap Record.bytes) =
      some (records.map Record.measured) := by
  induction records generalizing budget with
  | nil => rfl
  | cons record rest ih =>
    rw [map_cons, sum_cons] at within
    have here := fits record mem_cons_self
    have headers : record.headers.length * Headers.sizeOfHeader ≤ maxDecodedBatchBytes := by
      rw [Record.allocatedSize] at within
      omega
    have there := ih (fun other member => fits other (mem_cons_of_mem _ member))
      (show budget - record.allocatedSize ≤ maxDecodedBatchBytes by omega) (by omega)
    have charged : record.measured.2.allocatedSize ≤ budget := by
      change record.allocatedSize ≤ budget
      omega
    rw [length_cons, flatMap_cons, decodeMeasuredRecords, Record.reads_decodeMeasured here headers]
    simp only [if_pos charged]
    change (decodeMeasuredRecords rest.length (budget - record.allocatedSize) _).map _ = _
    rw [there]
    rfl

def written (codec : Codec) (compression : Compression) (records : List Record) : Option (List UInt8) :=
  if compression = .none then some (records.flatMap Record.bytes)
  else codec.compress compression (records.flatMap Record.bytes)

theorem intoRecordData_written {compression : Compression} (fits : ∀ record ∈ records, record.Fits) :
    intoRecordData codec records compression = written codec compression records := by
  rw [intoRecordData, mapM_eq_map fun record member => Record.encode_eq (fits record member)]
  cases compression <;> rfl

end Deflated

namespace Inflated

structure Batch.FitsWire (codec : Codec) (compression : Compression) (batch : Batch) : Prop where
  records : ∀ record ∈ batch.records, record.bodySize < 2 ^ 31
  data : ∃ recordData, Deflated.written codec compression batch.records = some recordData ∧
    Deflated.fixedBatchLength + recordData.length < 2 ^ 31

/-- An `inflated::Batch` with the fields that its encoding computes anew: `batch_length`, `crc` and the `length`
of each record. -/
structure MeasuredBatch where
  batch : Batch
  batchLength : Int32
  crc : UInt32
  lengths : List Int32
  deriving DecidableEq

namespace MeasuredBatch

def tryFromRef (codec : Codec) (deflated : Deflated.Batch) : Option MeasuredBatch := do
  let records ← deflated.measuredRecords codec
  pure
    { batch := deflated.withRecords (records.map Prod.snd)
      batchLength := deflated.batchLength
      crc := deflated.crc
      lengths := records.map Prod.fst }

def uncompressed (attributes : BatchAttribute) (inflated : MeasuredBatch) : MeasuredBatch :=
  { inflated with
    batch := { inflated.batch with attributes := { attributes with compression := .none }.toI16 } }

/-- `TryFrom<deflated::Batch>`: the records are no longer compressed, and the attributes say so. -/
def tryFromValue (codec : Codec) (deflated : Deflated.Batch) : Option MeasuredBatch := do
  let attributes ← BatchAttribute.tryFrom deflated.attributes
  let inflated ← tryFromRef codec deflated
  pure (inflated.uncompressed attributes)

/-- The batch with the lengths and the checksum that `bytes` were written with: `batch_length` counts the bytes
behind itself, and the checksum covers those from `attributes` on. -/
def measuredBy (codec : Codec) (bytes : List UInt8) (inflated : MeasuredBatch) : MeasuredBatch where
  batch := inflated.batch
  batchLength := Int32.ofNat (bytes.length - 12)
  crc := codec.crc32c (bytes.drop 21)
  lengths := inflated.batch.records.map fun record => Int32.ofNat record.bodySize

end MeasuredBatch

end Inflated

namespace Deflated

variable {codec : Codec} {batch : Inflated.Batch} {deflated : Batch} {compression : Compression}

theorem tryFromInflated_of_fitsWire (known : Compression.tryFrom batch.attributes = some compression)
    (fits : batch.FitsWire codec compression) (few : batch.records.length < 2 ^ 32) :
    ∃ deflated, Batch.tryFromInflated codec batch = some deflated := by
  obtain ⟨_, data, small⟩ := fits.data
  have each : ∀ record ∈ batch.records, record.Fits :=
    fun record member => Record.fits_of_bodySize (fits.records record member)
  rw [Batch.tryFromInflated, known]
  simp only [bind_eq_bind, bind_some, intoRecordData_written each, data, if_pos few, dif_pos small]
  exact ⟨_, rfl⟩

theorem Batch.drop_toBytes (deflated : Batch) : deflated.toBytes.drop 21 = deflated.crcData := by
  have front : deflated.toBytes = (putI64 deflated.baseOffset ++ putI32 deflated.batchLength ++
      putI32 deflated.partitionLeaderEpoch ++ putI8 deflated.magic ++ putU32 deflated.crc) ++ deflated.crcData := by
    simp only [Batch.toBytes, Batch.crcData, append_assoc]
  rw [front]
  refine drop_left' ?_
  simp only [length_append, putI64, putI32, putI8, putU32, length_putNat]

theorem Batch.length_toBytes (deflated : Batch) :
    deflated.toBytes.length = 12 + fixedBatchLength + deflated.recordData.length := by
  simp only [Batch.toBytes, length_append, putI64, putI32, putI16, putI8, putU32, length_putNat, fixedBatchLength]
  omega

theorem Batch.batchLength_toBytes (deflated : Batch) :
    Int32.ofNat (deflated.toBytes.length - 12) = deflated.batchLength := by
  have measured := deflated.measured
  have small := deflated.batchLength.toInt_lt
  have length : deflated.toBytes.length - 12 = fixedBatchLength + deflated.recordData.length := by
    rw [Batch.length_toBytes]
    omega
  apply Int32.toInt_inj.mp
  rw [length, Int32.toInt_ofNat_of_lt (by omega), measured]
  rfl

structure Batch.Encodes (codec : Codec) (compression : Compression) (batch : Inflated.Batch)
    (deflated : Batch) : Prop where
  header : { batch with records := [] } = deflated.withRecords []
  recordCount : deflated.recordCount.toNat = batch.records.length
  fits : ∀ record ∈ batch.records, record.Fits
  written : written codec compression batch.records = some deflated.recordData

theorem encodes_of_tryFromInflated (known : Compression.tryFrom batch.attributes = some compression)
    (ok : Batch.tryFromInflated codec batch = some deflated) : deflated.Encodes codec compression batch := by
  rw [Batch.tryFromInflated, known] at ok
  obtain ⟨_, ⟨⟩, rest⟩ := bind_eq_some_iff.mp ok
  obtain ⟨recordData, encoded, rest⟩ := bind_eq_some_iff.mp rest
  have fits := (intoRecordData_eq_some encoded).1
  rw [intoRecordData_written fits] at encoded
  split at rest
  next counted =>
    split at rest
    next =>
      cases rest
      refine ⟨rfl, ?_, fits, encoded⟩
      rw [UInt32.toNat_ofNat']
      omega
    next => cases rest
  next => cases rest

theorem measuredRecords_of_encodes (lossless : codec.Lossless)
    (known : Compression.tryFrom batch.attributes = some compression)
    (encodes : deflated.Encodes codec compression batch)
    (within : (batch.records.map (Record.decodedSize compression)).sum ≤ maxDecodedBatchBytes) :
    deflated.measuredRecords codec = some (batch.records.map Record.measured) := by
  have same : deflated.attributes = batch.attributes :=
    (congrArg Inflated.Batch.attributes encodes.header).symm
  have least := sizeOfRecord_mul_length_le batch.records
  have length := length_flatMap_bytes batch.records
  have few := seven_mul_length_le batch.records
  have data := encodes.written
  rw [Deflated.written] at data
  by_cases plain : compression = .none
  · subst plain
    have whole : (batch.records.map Record.allocatedSize).sum ≤ maxDecodedBatchBytes := within
    have enough : ¬deflated.recordData.length / minEncodedRecordSize < batch.records.length := by
      rw [← some.inj data, minEncodedRecordSize]
      omega
    have decoded := decodeMeasuredRecords_flatMap encodes.fits (Nat.le_refl _) whole
    rw [some.inj data] at decoded
    simp only [Batch.measuredRecords, same, known, encodes.recordCount, true_and, enough, if_false, if_true]
    rw [if_neg (by omega)]
    exact decoded
  · rw [if_neg plain] at data
    rw [Record.sum_decodedSize plain] at within
    have inflated := lossless _ _ _ data
    simp only [Batch.measuredRecords, same, known, encodes.recordCount, some.injEq, plain, false_and,
      if_false, bind_eq_bind, bind_some, inflated, length]
    rw [if_neg (by omega), if_pos (by omega)]
    exact decodeMeasuredRecords_flatMap encodes.fits (Nat.sub_le _ _) (by omega)

end Deflated

namespace Inflated

variable {codec : Codec} {compression : Compression}

theorem MeasuredBatch.tryFromRef_of_encodes (lossless : codec.Lossless) {inflated : MeasuredBatch}
    {deflated : Deflated.Batch} (known : Compression.tryFrom inflated.batch.attributes = some compression)
    (encoded : Deflated.Batch.tryFromInflated codec inflated.batch = some deflated)
    (within : (inflated.batch.records.map (Record.decodedSize compression)).sum ≤ maxDecodedBatchBytes) :
    tryFromRef codec deflated = some (inflated.measuredBy codec deflated.toBytes) := by
  have encodes := Deflated.encodes_of_tryFromInflated known encoded
  have header := congrArg (fun header : Batch => { header with records := inflated.batch.records }) encodes.header
  have snd : (inflated.batch.records.map Record.measured).map Prod.snd = inflated.batch.records := by
    rw [List.map_map]
    exact map_id _
  have fst : (inflated.batch.records.map Record.measured).map Prod.fst =
      inflated.batch.records.map fun record => Int32.ofNat record.bodySize := map_map
  rw [tryFromRef, Deflated.measuredRecords_of_encodes lossless known encodes within]
  simp only [bind_eq_bind, bind_some, snd, fst]
  rw [measuredBy, deflated.batchLength_toBytes, deflated.drop_toBytes]
  have crc := Deflated.Batch.crc_of_tryFromInflated encoded
  rw [Deflated.Batch.computedCrc] at crc
  rw [crc]
  exact congrArg (fun batch => some (MeasuredBatch.mk batch _ _ _)) header.symm

/-- A batch is read back from what it was written to, whatever follows: inflating a reference to it yields the
batch, and inflating the batch itself yields it with attributes that no longer say how it was compressed. -/
theorem batch_survives_the_wire (codec : Codec) (lossless : codec.Lossless) (inflated : MeasuredBatch)
    (compression : Compression) (known : Compression.tryFrom inflated.batch.attributes = some compression)
    (fits : inflated.batch.FitsWire codec compression)
    (within : ∃ size, inflated.batch.decodedSizeFor compression = some size ∧ size ≤ maxDecodedBatchBytes) :
    ∃ deflated, Deflated.Batch.tryFromInflated codec inflated.batch = some deflated ∧
      ∀ trailing, Deflated.Batch.tryFrom (deflated.toBytes ++ trailing) = some (deflated, trailing) ∧
        MeasuredBatch.tryFromRef codec deflated = some (inflated.measuredBy codec deflated.toBytes) ∧
        ∃ attributes, BatchAttribute.tryFrom inflated.batch.attributes = some attributes ∧
          MeasuredBatch.tryFromValue codec deflated =
            some ((inflated.measuredBy codec deflated.toBytes).uncompressed attributes) := by
  have each : ∀ record ∈ inflated.batch.records, record.Fits :=
    fun record member => Record.fits_of_bodySize (fits.records record member)
  have whole := (decodedSizeFor_le_iff each compression).mp within
  have few : inflated.batch.records.length < 2 ^ 32 := by
    have least := Deflated.sizeOfRecord_mul_length_le inflated.batch.records
    have allocated := sum_allocatedSize_le compression inflated.batch.records
    rw [Record.sizeOfRecord] at least
    rw [maxDecodedBatchBytes] at whole
    omega
  obtain ⟨deflated, encoded⟩ := Deflated.tryFromInflated_of_fitsWire known fits few
  have read := MeasuredBatch.tryFromRef_of_encodes lossless known encoded whole
  refine ⟨deflated, encoded, fun trailing => ⟨deflated.reads_tryFrom trailing, read, ?_⟩⟩
  have same : deflated.attributes = inflated.batch.attributes :=
    (congrArg Batch.attributes (Deflated.encodes_of_tryFromInflated known encoded).header).symm
  refine ⟨_, by rw [BatchAttribute.tryFrom, known]; rfl, ?_⟩
  rw [MeasuredBatch.tryFromValue, same, BatchAttribute.tryFrom, known, read]
  rfl

def gzipUnmeasured : MeasuredBatch where
  batch := gzipBatch
  batchLength := 0
  crc := 0
  lengths := [0]

theorem fitsWire_gzipBatch : gzipBatch.FitsWire markingCodec .gzip where
  records := by decide +kernel
  data := ⟨_, rfl, by decide +kernel⟩

theorem batch_survives_the_wire_gzip :
    ∃ deflated, Deflated.Batch.tryFromInflated markingCodec gzipBatch = some deflated ∧
      ∀ trailing, Deflated.Batch.tryFrom (deflated.toBytes ++ trailing) = some (deflated, trailing) ∧
        MeasuredBatch.tryFromRef markingCodec deflated =
          some (gzipUnmeasured.measuredBy markingCodec deflated.toBytes) ∧
        ∃ attributes, BatchAttribute.tryFrom 1 = some attributes ∧ MeasuredBatch.tryFromValue markingCodec deflated =
            some ((gzipUnmeasured.measuredBy markingCodec deflated.toBytes).uncompressed attributes) :=
  batch_survives_the_wire markingCodec lossless_markingCodec gzipUnmeasured .gzip rfl fitsWire_gzipBatch
    ⟨187, by decide +kernel, by decide⟩

/-- Inflating a batch itself yields other attributes than it was deflated with. -/
theorem inflated_batch_forgets_its_compression : markingCodec.Lossless ∧ gzipBatch.FitsWire markingCodec .gzip ∧
      gzipBatch.decodedSizeFor .gzip = some 187 ∧
      ∃ deflated inflated, Deflated.Batch.tryFromInflated markingCodec gzipBatch = some deflated ∧
        Deflated.Batch.tryFrom deflated.toBytes = some (deflated, []) ∧
        MeasuredBatch.tryFromValue markingCodec deflated = some inflated ∧
        gzipBatch.attributes = 1 ∧ inflated.batch.attributes = 0 := by
  refine ⟨lossless_markingCodec, fitsWire_gzipBatch, by decide +kernel, ?_⟩
  obtain ⟨deflated, encoded⟩ := exists_deflated_gzipBatch
  have read := @MeasuredBatch.tryFromRef_of_encodes markingCodec .gzip lossless_markingCodec gzipUnmeasured deflated
    rfl encoded (by decide +kernel)
  have same : deflated.attributes = 1 :=
    (congrArg Batch.attributes (Deflated.encodes_of_tryFromInflated rfl encoded).header).symm
  refine ⟨deflated, (gzipUnmeasured.measuredBy markingCodec deflated.toBytes).uncompressed
    ⟨.gzip, .createTime, false, false, false⟩, encoded, deflated.reads_tryFrom.all, ?_, rfl, rfl⟩
  rw [MeasuredBatch.tryFromValue, same, read]
  rfl

end Inflated

end Nisshi.SansIo
