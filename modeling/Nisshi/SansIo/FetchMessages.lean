import Nisshi.SansIo.Deflated
import Nisshi.SansIo.ErrorCode

/-! The `Fetch` request and its response. Offsets are integers. -/

namespace Nisshi.SansIo

abbrev TopicIdBytes := Vector UInt8 16

def nullTopicId : TopicIdBytes :=
  Vector.replicate 16 0

structure FetchPartition where
  partition : Int32
  fetchOffset : Int
  partitionMaxBytes : Int32
  deriving DecidableEq

structure FetchTopic where
  topic : Option String
  topicId : Option TopicIdBytes
  partitions : Option (List FetchPartition)
  deriving DecidableEq

structure FetchRequest where
  maxWaitMs : Int32
  minBytes : Int32
  maxBytes : Option Int32
  isolationLevel : Option Int8
  topics : Option (List FetchTopic)
  deriving DecidableEq

structure EpochEndOffset where
  epoch : Int32
  endOffset : Int
  deriving DecidableEq

structure SnapshotId where
  endOffset : Int
  epoch : Int32
  deriving DecidableEq

structure PartitionData where
  partitionIndex : Int32
  errorCode : ErrorCode
  highWatermark : Int
  lastStableOffset : Option Int
  logStartOffset : Option Int
  divergingEpoch : Option EpochEndOffset
  snapshotId : Option SnapshotId
  preferredReadReplica : Option Int32
  /-- The batches of the partition's `Frame`. -/
  records : Option (List Deflated.Batch)
  deriving DecidableEq

structure FetchableTopicResponse where
  topic : Option String
  topicId : Option TopicIdBytes
  partitions : Option (List PartitionData)
  deriving DecidableEq

structure FetchResponse where
  throttleTimeMs : Option Int32
  errorCode : Option ErrorCode
  sessionId : Option Int32
  responses : Option (List FetchableTopicResponse)
  deriving DecidableEq

def PartitionData.batches (data : PartitionData) : List Deflated.Batch :=
  data.records.getD []

def FetchableTopicResponse.batches (response : FetchableTopicResponse) : List Deflated.Batch :=
  (response.partitions.getD []).flatMap PartitionData.batches

def FetchResponse.batches (response : FetchResponse) : List Deflated.Batch :=
  (response.responses.getD []).flatMap FetchableTopicResponse.batches

end Nisshi.SansIo
