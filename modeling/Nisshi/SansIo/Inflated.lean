import Mathlib.Tactic.Common

/-! Inflated record batches: the records of a batch, its attributes, and the timestamp that a consumer
reads for a record. -/

namespace Nisshi.SansIo

inductive TimestampType where
  | createTime
  | logAppendTime
  deriving DecidableEq

namespace TimestampType

def timestampTypeBitmask : Int16 :=
  8

def «from» (attributes : Int16) : TimestampType :=
  if attributes &&& timestampTypeBitmask = timestampTypeBitmask then .logAppendTime else .createTime

def toI16 : TimestampType → Int16
  | .createTime => 0
  | .logAppendTime => timestampTypeBitmask

end TimestampType

inductive Compression where
  | none
  | gzip
  | snappy
  | lz4
  | zstd
  deriving DecidableEq

namespace Compression

def tryFrom (attributes : Int16) : Option Compression :=
  match (attributes &&& 0b111).toInt with
  | 0 => some .none
  | 1 => some .gzip
  | 2 => some .snappy
  | 3 => some .lz4
  | 4 => some .zstd
  | _ => Option.none

def toI16 : Compression → Int16
  | .none => 0
  | .gzip => 1
  | .snappy => 2
  | .lz4 => 3
  | .zstd => 4

end Compression

structure BatchAttribute where
  compression : Compression
  timestamp : TimestampType
  transaction : Bool
  control : Bool
  deleteHorizon : Bool
  deriving DecidableEq

namespace BatchAttribute

def transactionBitmask : Int16 :=
  16

def controlBitmask : Int16 :=
  32

def deleteHorizonBitmask : Int16 :=
  64

def tryFrom (attributes : Int16) : Option BatchAttribute :=
  (Compression.tryFrom attributes).map fun compression =>
    { compression
      timestamp := TimestampType.from attributes
      transaction := attributes &&& transactionBitmask == transactionBitmask
      control := attributes &&& controlBitmask == controlBitmask
      deleteHorizon := attributes &&& deleteHorizonBitmask == deleteHorizonBitmask }

def toI16 (value : BatchAttribute) : Int16 :=
  value.compression.toI16 ||| value.timestamp.toI16 |||
    (if value.transaction then transactionBitmask else 0) |||
    (if value.control then controlBitmask else 0) |||
    (if value.deleteHorizon then deleteHorizonBitmask else 0)

end BatchAttribute

structure Header where
  key : Option (List UInt8)
  value : Option (List UInt8)
  deriving DecidableEq

structure Record where
  attributes : UInt8
  timestampDelta : Int64
  offsetDelta : Int32
  key : Option (List UInt8)
  value : Option (List UInt8)
  headers : List Header
  deriving DecidableEq

namespace Inflated

structure Batch where
  baseOffset : Int64
  partitionLeaderEpoch : Int32
  magic : Int8
  attributes : Int16
  lastOffsetDelta : Int32
  baseTimestamp : Int64
  maxTimestamp : Int64
  producerId : Int64
  producerEpoch : Int16
  baseSequence : Int32
  records : List Record
  deriving DecidableEq

def Batch.recordTimestamp (batch : Batch) (record : Record) : Int64 :=
  match TimestampType.from batch.attributes with
  | .logAppendTime => batch.maxTimestamp
  | .createTime => batch.baseTimestamp + record.timestampDelta

end Inflated

/-- `to_system_time`: a timestamp before the epoch is an error. -/
def toSystemTime (timestamp : Int64) : Option Int64 :=
  if timestamp < 0 then none else some timestamp

end Nisshi.SansIo
