import Nisshi.SansIo.Deflated
import Nisshi.SansIo.ErrorCode

/-! The `Produce` request and its response. -/

namespace Nisshi.SansIo

structure PartitionProduceData where
  index : Int32
  /-- The batches of the partition's `Frame`. -/
  records : Option (List Deflated.Batch)
  deriving DecidableEq

structure TopicProduceData where
  name : String
  partitionData : Option (List PartitionProduceData)
  deriving DecidableEq

structure ProduceRequest where
  transactionalId : Option String
  acks : Int16
  timeoutMs : Int32
  topicData : Option (List TopicProduceData)
  deriving DecidableEq

structure BatchIndexAndErrorMessage where
  batchIndex : Int32
  batchIndexErrorMessage : Option String
  deriving DecidableEq

structure PartitionProduceResponse where
  index : Int32
  errorCode : ErrorCode
  baseOffset : Int64
  logAppendTimeMs : Option Int64
  logStartOffset : Option Int64
  recordErrors : Option (List BatchIndexAndErrorMessage)
  errorMessage : Option String
  deriving DecidableEq

structure TopicProduceResponse where
  name : String
  partitionResponses : Option (List PartitionProduceResponse)
  deriving DecidableEq

structure ProduceResponse where
  responses : Option (List TopicProduceResponse)
  throttleTimeMs : Option Int32
  deriving DecidableEq

/-- `acks`: who must have stored a batch before a `Produce` is answered. -/
inductive Ack where
  | none
  | leader
  | fullIsr
  deriving DecidableEq

namespace Ack

def toI16 : Ack → Int16
  | .none => 0
  | .leader => 1
  | .fullIsr => -1

def tryFrom (acks : Int16) : Option Ack :=
  if acks = -1 then some .fullIsr
  else if acks = 0 then some .none
  else if acks = 1 then some .leader
  else Option.none

end Ack

end Nisshi.SansIo
