import Nisshi.Lib.Bytes
import Mathlib.Tactic.NormNum

/-! Deflated record batches: the header fields and the record data of one batch, and the bytes that a
batch object of the store holds. -/

namespace Nisshi.SansIo.Deflated

open Nisshi.Lib.Bytes List

/-- The bytes of a batch from `partition_leader_epoch` to `record_count`. -/
def fixedBatchLength : Nat :=
  49

/-- A batch as it is written on the wire. A batch is built by reading `batch_length` bytes or by
measuring its record data, so its length field always covers exactly its record data. -/
structure Batch where
  baseOffset : Int64
  batchLength : Int32
  partitionLeaderEpoch : Int32
  magic : Int8
  crc : UInt32
  attributes : Int16
  lastOffsetDelta : Int32
  baseTimestamp : Int64
  maxTimestamp : Int64
  producerId : Int64
  producerEpoch : Int16
  baseSequence : Int32
  recordCount : UInt32
  recordData : List UInt8
  measured : batchLength.toInt = fixedBatchLength + recordData.length
  deriving DecidableEq

namespace Batch

def transactionalBitmask : Int16 :=
  0b10000

def controlBitmask : Int16 :=
  0b100000

def isTransactional (batch : Batch) : Bool :=
  batch.attributes &&& transactionalBitmask == transactionalBitmask

def isControl (batch : Batch) : Bool :=
  batch.attributes &&& controlBitmask == controlBitmask

def isIdempotent (batch : Batch) : Bool :=
  batch.producerId != -1 && batch.baseSequence != -1

def sizeInBytes (batch : Batch) : Nat :=
  8 + 4 + fixedBatchLength + batch.recordData.length

end Batch

def putI64 (value : Int64) : List UInt8 :=
  putNat 8 value.toBitVec.toNat

def putI32 (value : Int32) : List UInt8 :=
  putNat 4 value.toBitVec.toNat

def putI16 (value : Int16) : List UInt8 :=
  putNat 2 value.toBitVec.toNat

def putI8 (value : Int8) : List UInt8 :=
  putNat 1 value.toBitVec.toNat

def putU32 (value : UInt32) : List UInt8 :=
  putNat 4 value.toNat

def tryGetI64 : Reader Int64 :=
  (fun value => Int64.ofBitVec (BitVec.ofNat 64 value)) <$> getNat 8 0

def tryGetI32 : Reader Int32 :=
  (fun value => Int32.ofBitVec (BitVec.ofNat 32 value)) <$> getNat 4 0

def tryGetI16 : Reader Int16 :=
  (fun value => Int16.ofBitVec (BitVec.ofNat 16 value)) <$> getNat 2 0

def tryGetI8 : Reader Int8 :=
  (fun value => Int8.ofBitVec (BitVec.ofNat 8 value)) <$> getNat 1 0

def tryGetU32 : Reader UInt32 :=
  UInt32.ofNat <$> getNat 4 0

theorem reads_field {α : Type} {read : Nat → α} {value : α} (fits : bits < 256 ^ width) (inverse : read bits = value) :
    Reads (read <$> getNat width 0) (putNat width bits) value := by
  have reads := (reads_getNat width bits 0).map read
  rwa [Nat.zero_mul, Nat.zero_add, Nat.mod_eq_of_lt fits, inverse] at reads

theorem reads_i64 (value : Int64) : Reads tryGetI64 (putI64 value) value :=
  reads_field (Nat.lt_of_lt_of_le value.toBitVec.isLt (by decide)) (by simp)

theorem reads_i32 (value : Int32) : Reads tryGetI32 (putI32 value) value :=
  reads_field (Nat.lt_of_lt_of_le value.toBitVec.isLt (by decide)) (by simp)

theorem reads_i16 (value : Int16) : Reads tryGetI16 (putI16 value) value :=
  reads_field (Nat.lt_of_lt_of_le value.toBitVec.isLt (by decide)) (by simp)

theorem reads_i8 (value : Int8) : Reads tryGetI8 (putI8 value) value :=
  reads_field (Nat.lt_of_lt_of_le value.toBitVec.isLt (by decide)) (by simp)

theorem reads_u32 (value : UInt32) : Reads tryGetU32 (putU32 value) value :=
  reads_field (Nat.lt_of_lt_of_le value.toNat_lt (by decide)) (by simp)

namespace Batch

def toBytes (batch : Batch) : List UInt8 :=
  putI64 batch.baseOffset ++ (putI32 batch.batchLength ++ (putI32 batch.partitionLeaderEpoch ++
    (putI8 batch.magic ++ (putU32 batch.crc ++ (putI16 batch.attributes ++
    (putI32 batch.lastOffsetDelta ++ (putI64 batch.baseTimestamp ++ (putI64 batch.maxTimestamp ++
    (putI64 batch.producerId ++ (putI16 batch.producerEpoch ++ (putI32 batch.baseSequence ++
    (putU32 batch.recordCount ++ batch.recordData))))))))))))

/-- The part of `batch_length` after its first `header` bytes, when the buffer still holds it. -/
def remaining (batchLength : Int32) (header : Nat) : Reader Nat := fun buffer =>
  if (header : Int) ≤ batchLength.toInt ∧ batchLength.toInt - header ≤ buffer.length then
    some ((batchLength.toInt - header).toNat, buffer)
  else none

/-- `TryFrom<Bytes> for Batch`. Bytes after the record data are left alone. -/
def tryFrom : Reader Batch := do
  let baseOffset ← tryGetI64
  let batchLength ← tryGetI32
  let partitionLeaderEpoch ← tryGetI32
  let magic ← tryGetI8
  let crc ← tryGetU32
  -- The bytes that the CRC covers must be there. A CRC that does not match them is only logged.
  let _crcDataSize ← remaining batchLength 9
  let attributes ← tryGetI16
  let lastOffsetDelta ← tryGetI32
  let baseTimestamp ← tryGetI64
  let maxTimestamp ← tryGetI64
  let producerId ← tryGetI64
  let producerEpoch ← tryGetI16
  let baseSequence ← tryGetI32
  let recordCount ← tryGetU32
  let recordDataSize ← remaining batchLength fixedBatchLength
  let recordData ← slice recordDataSize
  if measured : batchLength.toInt = fixedBatchLength + recordData.length then
    pure { baseOffset, batchLength, partitionLeaderEpoch, magic, crc, attributes, lastOffsetDelta,
           baseTimestamp, maxTimestamp, producerId, producerEpoch, baseSequence, recordCount,
           recordData, measured }
  else failure

private theorem remaining_eq (batch : Batch) {header : Nat} {bytes : List UInt8} (small : header ≤ fixedBatchLength)
    (rest_ : bytes.length = fixedBatchLength - header + batch.recordData.length) (rest : List UInt8) :
    remaining batch.batchLength header (bytes ++ rest) = some (bytes.length, bytes ++ rest) := by
  have measured := batch.measured
  have enough : header ≤ batch.batchLength.toInt ∧ batch.batchLength.toInt - header ≤ (bytes ++ rest).length := by
    rw [length_append]
    omega
  have size : (batch.batchLength.toInt - header).toNat = bytes.length := by omega
  rw [remaining, if_pos enough, size]

theorem reads_tryFrom (batch : Batch) : Reads tryFrom batch.toBytes batch := by
  refine (reads_i64 _).bind ((reads_i32 _).bind ((reads_i32 _).bind ((reads_i8 _).bind
    ((reads_u32 _).bind (Reads.peek (remaining_eq batch (by decide) ?_) ((reads_i16 _).bind
    ((reads_i32 _).bind ((reads_i64 _).bind ((reads_i64 _).bind ((reads_i64 _).bind
    ((reads_i16 _).bind ((reads_i32 _).bind ((reads_u32 _).bind
    (Reads.peek (remaining_eq batch (Nat.le_refl _) ?_) ?_))))))))))))))
  · simp only [length_append, putI16, putI32, putI64, putU32, length_putNat, fixedBatchLength]
    omega
  · simp
  · refine (reads_slice batch.recordData).last ?_
    rw [dif_pos batch.measured]
    exact Reads.pure batch

end Batch

end Nisshi.SansIo.Deflated
