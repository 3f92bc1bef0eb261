import Nisshi.SansIo.ErrorCode

/-! The requests and responses of the group coordinator: the fields that it reads or sets. -/

namespace Nisshi.SansIo

structure JoinGroupRequestProtocol where
  name : String
  metadata : List UInt8
  deriving DecidableEq

structure SyncGroupRequestAssignment where
  memberId : String
  assignment : List UInt8
  deriving DecidableEq

structure MemberIdentity where
  memberId : String
  groupInstanceId : Option String
  deriving DecidableEq

structure OffsetCommitRequestTopic where
  name : String
  partitions : Option (List Int)
  deriving DecidableEq

structure JoinGroupResponseMember where
  memberId : String := ""
  groupInstanceId : Option String := none
  metadata : List UInt8 := []
  deriving DecidableEq

structure JoinGroupResponse where
  throttleTimeMs : Option Int
  errorCode : ErrorCode
  generationId : Int
  protocolType : Option String
  protocolName : Option String
  leader : String
  skipAssignment : Option Bool
  memberId : String
  members : Option (List JoinGroupResponseMember)
  deriving DecidableEq

structure SyncGroupResponse where
  throttleTimeMs : Option Int
  errorCode : ErrorCode
  protocolType : Option String
  protocolName : Option String
  assignment : List UInt8
  deriving DecidableEq

structure HeartbeatResponse where
  throttleTimeMs : Option Int
  errorCode : ErrorCode
  deriving DecidableEq

structure MemberResponse where
  memberId : String
  groupInstanceId : Option String
  errorCode : ErrorCode
  deriving DecidableEq

structure LeaveGroupResponse where
  throttleTimeMs : Option Int
  errorCode : ErrorCode
  members : Option (List MemberResponse)
  deriving DecidableEq

structure OffsetCommitResponsePartition where
  partitionIndex : Int
  errorCode : ErrorCode
  deriving DecidableEq

structure OffsetCommitResponseTopic where
  name : String
  partitions : Option (List OffsetCommitResponsePartition)
  deriving DecidableEq

structure OffsetCommitResponse where
  throttleTimeMs : Option Int
  topics : Option (List OffsetCommitResponseTopic)
  deriving DecidableEq

inductive Body where
  | joinGroup (response : JoinGroupResponse)
  | syncGroup (response : SyncGroupResponse)
  | heartbeat (response : HeartbeatResponse)
  | leaveGroup (response : LeaveGroupResponse)
  | offsetCommit (response : OffsetCommitResponse)
  deriving DecidableEq

end Nisshi.SansIo
