import Nisshi.SansIo.RoundTrip

/-! `Builder::build` of an inflated batch: the length and the checksum that it gives the batch, beside those of
the bytes that are written. -/

namespace Nisshi.SansIo

open Nisshi.Lib Nisshi.Lib.Bytes Option

def Octets.serialize : Octets → Option (List UInt8)
  | none => some (VarInt.encode (-1))
  | some data => do
    let length ← VarInt.tryFrom data.length
    pure (VarInt.encode length ++ data)

def Header.serialize (header : Header) : Option (List UInt8) := do
  let key ← Octets.serialize header.key
  let value ← Octets.serialize header.value
  pure (key ++ value)

def Headers.serialize (headers : Headers) : Option (List UInt8) := do
  let length ← VarInt.tryFrom headers.length
  let items ← headers.mapM Header.serialize
  pure (VarInt.encode length ++ items.flatten)

/-- `Serialize for record::Builder`. The length is left out, without an error, when it does not fit. -/
def Record.serialize (record : Record) : Option (List UInt8) := do
  let size ← record.bodySizeInBytes
  let length := ((VarInt.tryFrom size).map VarInt.encode).getD []
  let key ← Octets.serialize record.key
  let value ← Octets.serialize record.value
  let headers ← Headers.serialize record.headers
  pure (length ++ ([record.attributes] ++ (LongVarInt.encode record.timestampDelta ++
    (VarInt.encode record.offsetDelta ++ (key ++ (value ++ headers))))))

theorem Octets.serialize_eq (octets : Octets) : serialize octets = encode octets := by
  cases octets with
  | none => rfl
  | some => exact (map_eq_bind ..).symm

theorem Headers.serialize_eq (headers : Headers) : headers.serialize = headers.encode := by
  have each : Header.serialize = Header.encode := by
    funext header
    rw [Header.serialize, Header.encode, Octets.serialize_eq, Octets.serialize_eq]
  rw [serialize, encode, each]

theorem Record.serialize_eq {record : Record} (sized : record.bodySizeInBytes.bind VarInt.tryFrom = some length) :
    record.serialize = record.encode := by
  obtain ⟨_, sized, fits⟩ := bind_eq_some_iff.mp sized
  rw [serialize, encode, sized, Octets.serialize_eq, Octets.serialize_eq, Headers.serialize_eq]
  simp only [bind_eq_bind, bind_some, fits]
  rfl

namespace Inflated

namespace Batch

def builderSize (batch : Batch) : Option Nat := do
  let sizes ← batch.records.mapM sizeInclusive
  pure (builderFieldsSize + (4 + sizes.sum))

def builderCrc (codec : Codec) (batch : Batch) : Option UInt32 := do
  let _capacity ← batch.builderSize
  if batch.records.length < 2 ^ 32 then
    let records ← batch.records.mapM Record.serialize
    pure (codec.crc32c (Deflated.putI16 batch.attributes ++ Deflated.putI32 batch.lastOffsetDelta ++
      Deflated.putI64 batch.baseTimestamp ++ Deflated.putI64 batch.maxTimestamp ++
      Deflated.putI64 batch.producerId ++ Deflated.putI16 batch.producerEpoch ++
      Deflated.putI32 batch.baseSequence ++
      (Deflated.putU32 (UInt32.ofNat batch.records.length) ++ records.flatten)))
  else none

end Batch

def MeasuredBatch.build (codec : Codec) (builder : Batch) : Option MeasuredBatch := do
  let size ← builder.builderSize
  if size < 2 ^ 31 then
    let crc ← builder.builderCrc codec
    let lengths ← builder.records.mapM fun record => record.bodySizeInBytes.bind VarInt.tryFrom
    pure { batch := builder, batchLength := Int32.ofNat size, crc, lengths }
  else none

/-- The unsigned varint of the record's length, which the builder counts, is as long as the signed one, which is
written. -/
def SameWidth (record : Record) : Prop :=
  varintSize record.bodySize = VarInt.sizeInBytes (Int32.ofNat record.bodySize)

namespace MeasuredBatch

variable {codec : Codec} {builder : Batch} {built : MeasuredBatch}

theorem builderSize_eq (fits : ∀ record ∈ builder.records, record.Fits) :
    builder.builderSize = some builder.countedSize := by
  rw [Batch.builderSize, mapM_eq_map fun record member => Batch.sizeInclusive_eq (fits record member)]
  rfl

theorem build_eq (fits : ∀ record ∈ builder.records, record.Fits) (few : builder.records.length < 2 ^ 32)
    (small : builder.countedSize < 2 ^ 31) : build codec builder = some
      { batch := builder
        batchLength := Int32.ofNat builder.countedSize
        crc := codec.crc32c (Deflated.crcData builder (UInt32.ofNat builder.records.length)
          (builder.records.flatMap Record.bytes))
        lengths := builder.records.map fun record => Int32.ofNat record.bodySize } := by
  have written : builder.records.mapM Record.serialize = some (builder.records.map Record.bytes) := by
    refine mapM_eq_map fun record member => ?_
    rw [Record.serialize_eq (Record.sized_of_fits (fits record member)), Record.encode_eq (fits record member)]
  rw [build, Batch.builderCrc, builderSize_eq fits, written,
    mapM_eq_map fun record member => Record.sized_of_fits (fits record member)]
  simp only [bind_eq_bind, bind_some, if_pos small, if_pos few, Deflated.crcData, List.append_assoc]
  rfl

theorem of_build (ok : build codec builder = some built) :
    (∀ record ∈ builder.records, record.Fits) ∧ builder.records.length < 2 ^ 32 ∧ builder.countedSize < 2 ^ 31 := by
  obtain ⟨_, counted, rest⟩ := bind_eq_some_iff.mp ok
  obtain ⟨small, rest⟩ := ite_none_right_eq_some.mp rest
  obtain ⟨_, summed, rest⟩ := bind_eq_some_iff.mp rest
  obtain ⟨_, measured, -⟩ := bind_eq_some_iff.mp rest
  obtain ⟨-, -, digest⟩ := bind_eq_some_iff.mp summed
  obtain ⟨few, digest⟩ := ite_none_right_eq_some.mp digest
  obtain ⟨_, mapped, -⟩ := bind_eq_some_iff.mp digest
  have fits : ∀ record ∈ builder.records, record.Fits := by
    intro record member
    obtain ⟨_, sized⟩ := exists_of_mapM measured member
    obtain ⟨_, serialized⟩ := exists_of_mapM mapped member
    rw [Record.serialize_eq sized] at serialized
    exact Record.fits_of_encode serialized
  rw [builderSize_eq fits] at counted
  cases counted
  exact ⟨fits, few, small⟩

/-- What is built with a length and a checksum is also built without them. -/
theorem batch_of_build (ok : build codec builder = some built) : builder.build = some built.batch := by
  obtain ⟨_, counted, rest⟩ := bind_eq_some_iff.mp ok
  obtain ⟨small, rest⟩ := ite_none_right_eq_some.mp rest
  obtain ⟨_, -, rest⟩ := bind_eq_some_iff.mp rest
  obtain ⟨_, lengths, same⟩ := bind_eq_some_iff.mp rest
  obtain ⟨_, sizes, size⟩ := bind_eq_some_iff.mp counted
  cases size
  cases same
  rw [Batch.build, sizes, lengths]
  exact if_pos small

theorem countedSize_eq (widths : ∀ record ∈ builder.records, SameWidth record) :
    builder.countedSize = Deflated.fixedBatchLength + builder.recordDataSize := by
  have sizes : builder.records.map (fun record => varintSize record.bodySize + record.bodySize) =
      builder.records.map Record.size :=
    List.map_congr_left fun record member => by rw [widths record member, Record.size]
  rw [Batch.countedSize, sizes, ← Nat.add_assoc]
  rfl

/-- The length and the checksum of the bytes that are written. -/
theorem tryFromInflated_wire (plain : Compression.tryFrom builder.attributes = some .none)
    (fits : ∀ record ∈ builder.records, record.Fits) (few : builder.records.length < 2 ^ 32)
    (small : builder.Fits) : ∃ deflated, Deflated.Batch.tryFromInflated codec builder = some deflated ∧
      deflated.batchLength = Int32.ofNat (Deflated.fixedBatchLength + builder.recordDataSize) ∧
      deflated.crc = codec.crc32c (Deflated.crcData builder (UInt32.ofNat builder.records.length)
        (builder.records.flatMap Record.bytes)) := by
  have length := Deflated.length_flatMap_bytes builder.records
  have written : Deflated.fixedBatchLength + (builder.records.flatMap Record.bytes).length < 2 ^ 31 := by
    rw [length]
    exact small
  simp only [Deflated.Batch.tryFromInflated, plain, bind_eq_bind, bind_some,
    Deflated.intoRecordData_eq fits, if_pos few, dif_pos written]
  exact ⟨_, rfl, congrArg (Int32.ofNat <| Deflated.fixedBatchLength + ·) length, rfl⟩

/-- No record is counted with more bytes than are written, so that equal sums come from equal summands. -/
theorem sameWidth_of_sum_eq {records : List Record} (fits : ∀ record ∈ records, record.Fits)
    (same : (records.map fun record => varintSize record.bodySize + record.bodySize).sum =
      (records.map Record.size).sum) : ∀ record ∈ records, SameWidth record := by
  induction records with
  | nil => nofun
  | cons record rest ih =>
    obtain ⟨fit, fits⟩ := List.forall_mem_cons.mp fits
    have counted := VarInt.varintSize_le_sizeInBytes fit.body
    have others := Batch.sum_counted_le fits
    rw [List.map_cons, List.map_cons, List.sum_cons, List.sum_cons, Record.size] at same
    refine List.forall_mem_cons.mpr ⟨?_, ih fits (by omega)⟩
    rw [SameWidth]
    omega

/-- A batch that a builder gives has the length and the checksum of the bytes that are written exactly if the length
of each of its records has the same width as a signed and as an unsigned varint. -/
theorem built_batch_agrees_with_wire_iff (codec : Codec) (builder : Batch)
    (plain : Compression.tryFrom builder.attributes = some .none) (built : MeasuredBatch)
    (ok : build codec builder = some built) :
    (built.batch = builder ∧ ∃ deflated, Deflated.Batch.tryFromInflated codec built.batch = some deflated ∧
      built.batchLength = deflated.batchLength ∧ built.crc = deflated.crc) ↔
      ∀ record ∈ builder.records, SameWidth record := by
  obtain ⟨fits, few, small⟩ := of_build ok
  rw [build_eq fits few small] at ok
  cases ok
  constructor
  · rintro ⟨-, _, deflates, lengths, -⟩
    have short := Deflated.fits_of_tryFromInflated plain deflates
    obtain ⟨_, same, length, -⟩ := tryFromInflated_wire plain fits few short
    rw [same] at deflates
    cases deflates
    rw [length] at lengths
    have sums := congrArg Int32.toInt lengths
    rw [Int32.toInt_ofNat_of_lt small, Int32.toInt_ofNat_of_lt short] at sums
    rw [Batch.countedSize, Batch.recordDataSize, Deflated.fixedBatchLength, builderFieldsSize] at sums
    exact sameWidth_of_sum_eq fits (by omega)
  · intro widths
    have same := countedSize_eq widths
    rw [same] at small
    obtain ⟨deflated, deflates, length, crc⟩ := tryFromInflated_wire plain fits few small
    exact ⟨rfl, deflated, deflates, (congrArg Int32.ofNat same).trans length.symm, crc.symm⟩

def ofValue (size : Nat) : Batch :=
  { gzipBatch with attributes := 0, records := [⟨0, 0, 0, none, some (List.replicate size 0), []⟩] }

theorem built_batch_agrees_with_wire_iff_short : ∃ built, build markingCodec (ofValue 57) = some built ∧
    ∃ deflated, Deflated.Batch.tryFromInflated markingCodec built.batch = some deflated ∧
      built.batchLength = deflated.batchLength ∧ built.crc = deflated.crc := by
  obtain ⟨built, ok⟩ : ∃ built, build markingCodec (ofValue 57) = some built :=
    isSome_iff_exists.mp (by decide +kernel)
  have widths : ∀ record ∈ (ofValue 57).records, SameWidth record := by
    unfold SameWidth
    decide +kernel
  exact ⟨built, ok, ((built_batch_agrees_with_wire_iff markingCodec _ (by decide) built ok).mpr widths).2⟩

/-- The length of a record of 64 bytes is counted as one byte and written as two. -/
theorem built_batch_is_shorter_than_wire : (build markingCodec (ofValue 58)).map MeasuredBatch.batchLength = some 114 ∧
      ((build markingCodec (ofValue 58)).bind fun built =>
        Deflated.Batch.tryFromInflated markingCodec built.batch).map Deflated.Batch.batchLength = some 115 := by
  decide +kernel

end MeasuredBatch

end Inflated

end Nisshi.SansIo
