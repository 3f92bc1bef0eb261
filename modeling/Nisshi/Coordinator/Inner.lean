import Nisshi.Storage.Group

/-! A consumer group as the group coordinator holds it, in either of its two states, and the functions that
do not depend on the state. A function that changes the group answers the changed group first. -/

namespace Nisshi.Coordinator

open Nisshi.SansIo Nisshi.Storage
open Std (ExtTreeMap ExtTreeSet)

def fallbackSessionTimeout : Duration :=
  fromMillis 45000

def memberIdRequiredVersion : Int :=
  4

def skipAssignmentVersion : Int :=
  9

structure JoinRequest where
  apiVersion : Int
  clientId : Option String
  clientHost : Option String
  sessionTimeoutMs : Int
  rebalanceTimeoutMs : Int
  memberId : String
  groupInstanceId : Option String
  protocolType : String
  protocols : Option (List JoinGroupRequestProtocol)
  deriving DecidableEq

structure SyncRequest where
  generationId : Int
  memberId : String
  groupInstanceId : Option String
  protocolType : Option String
  protocolName : Option String
  assignments : Option (List SyncGroupRequestAssignment)
  deriving DecidableEq

structure OffsetCommit where
  generationIdOrMemberEpoch : Option Int
  memberId : Option String
  groupInstanceId : Option String
  topics : Option (List OffsetCommitRequestTopic)
  isTransactional : Bool
  deriving DecidableEq

inductive Reply where
  | ready (body : Body)
  /-- The request is held until the group's phase changes, and then runs again for `memberId`. -/
  | held (memberId : String)
  deriving DecidableEq

structure Member where
  joinResponse : JoinGroupResponseMember
  lastContact : Option SystemTime := none
  clientId : String := ""
  clientHost : String := ""
  deriving DecidableEq

structure Protocol where
  protocolType : String
  protocolName : String
  leader : Option String
  deriving DecidableEq

/-- Kafka's Empty, PreparingRebalance and CompletingRebalance states. -/
structure Forming where
  protocol : Option Protocol
  joinPhase : Option JoinPhase
  deriving DecidableEq

local instance lawfulBEqBytes : LawfulBEq (List UInt8) := inferInstance

structure Formed where
  protocolType : String
  protocolName : String
  leader : String
  assignments : ExtTreeMap String (List UInt8)
  deriving DecidableEq

structure Inner (S : Type) where
  sessionTimeoutMs : Int
  rebalanceTimeoutMs : Option Int
  members : ExtTreeMap String Member
  generationId : Int
  state : S
  skipAssignment : Option Bool
  inception : SystemTime
  pendingMembers : ExtTreeMap String SystemTime
  pendingSync : Option PendingSync
  deriving DecidableEq

namespace Forming

def fromParts (protocolType protocolName leader : Option String) : Forming where
  protocol :=
    match protocolType, protocolName with
    | some protocolType, some protocolName => some { protocolType, protocolName, leader }
    | _, _ => none
  joinPhase := none

def protocolType (state : Forming) : Option String :=
  state.protocol.map (·.protocolType)

def protocolName (state : Forming) : Option String :=
  state.protocol.map (·.protocolName)

def leader (state : Forming) : Option String :=
  state.protocol.bind (·.leader)

def setLeader (state : Forming) (leader : Option String) : Forming :=
  { state with protocol := state.protocol.map fun protocol => { protocol with leader } }

end Forming

def positiveMillis (milliseconds : Int) : Option Duration :=
  if 0 < milliseconds then some (fromMillis milliseconds.toNat) else none

/-- `uuid` is what `Uuid::new_v4` answers. -/
def newMemberId (uuid : String) : Option String → String
  | some client => client ++ "-" ++ uuid
  | none => uuid

def joinErrorResponse (memberId : String) (errorCode : ErrorCode) : Body :=
  .joinGroup { throttleTimeMs := some 0, errorCode, generationId := -1, protocolType := none,
               protocolName := some "", leader := "", skipAssignment := some false, memberId,
               members := some [] }

def joinError (memberId : String) (errorCode : ErrorCode) : Reply :=
  .ready (joinErrorResponse memberId errorCode)

def memberIdRequired (memberId : String) : Reply :=
  joinError memberId .memberIdRequired

def rebalanceInProgressJoin (memberId : String) : Body :=
  joinErrorResponse memberId .rebalanceInProgress

def syncErrorResponse (errorCode : ErrorCode) : Body :=
  .syncGroup { throttleTimeMs := some 0, errorCode, protocolType := none, protocolName := none,
               assignment := [] }

def syncError (errorCode : ErrorCode) : Reply :=
  .ready (syncErrorResponse errorCode)

def rebalanceInProgressSync : Body :=
  syncErrorResponse .rebalanceInProgress

def heartbeatResponse (errorCode : ErrorCode) : Body :=
  .heartbeat { throttleTimeMs := some 0, errorCode }

def leaveResponse (members : List MemberResponse) : Body :=
  .leaveGroup { throttleTimeMs := some 0, errorCode := .none, members := some members }

def offsetCommitResponse (detail : OffsetCommit) (errorCode : ErrorCode) : Body :=
  .offsetCommit
    { throttleTimeMs := some 0
      topics := detail.topics.map (·.map fun topic =>
        { name := topic.name
          partitions := topic.partitions.map (·.map fun partitionIndex =>
            { partitionIndex, errorCode }) }) }

/-- The protocol of the request that the member joins with: the one named as the group's protocol, or the
first for a group without a protocol. -/
def JoinRequest.joiningProtocol (request : JoinRequest) (groupProtocol : Option (String × String)) :
    Except ErrorCode JoinGroupRequestProtocol :=
  match request.protocols with
  | none => .error .invalidRequest
  | some protocols =>
    match groupProtocol with
    | some (protocolType, protocolName) =>
      if request.protocolType ≠ protocolType then .error .inconsistentGroupProtocol
      else
        match protocols.find? (·.name == protocolName) with
        | some protocol => .ok protocol
        | none => .error .inconsistentGroupProtocol
    | none =>
      if request.protocolType = "" then .error .inconsistentGroupProtocol
      else
        match protocols.head? with
        | some protocol => .ok protocol
        | none => .error .inconsistentGroupProtocol

inductive NewMember where
  | pending (memberId : String)
  | added (memberId : String)
  | replacing (old new : String)
  deriving DecidableEq

def NewMember.of (uuid : String) (request : JoinRequest) (staticMemberId : Option String) : NewMember :=
  match request.groupInstanceId with
  | some groupInstanceId =>
    match staticMemberId with
    | some old => .replacing old (newMemberId uuid (some groupInstanceId))
    | none => .added (newMemberId uuid (some groupInstanceId))
  | none =>
    if memberIdRequiredVersion ≤ request.apiVersion then .pending (newMemberId uuid request.clientId)
    else .added (newMemberId uuid request.clientId)

namespace Inner

def new (inception : SystemTime) : Inner Forming where
  sessionTimeoutMs := 0
  rebalanceTimeoutMs := none
  members := ∅
  generationId := 0
  state := { protocol := none, joinPhase := none }
  skipAssignment := some false
  inception
  pendingMembers := ∅
  pendingSync := none

variable {S : Type} (inner : Inner S) (now : SystemTime)

def sessionTimeout : Duration :=
  (positiveMillis inner.sessionTimeoutMs).getD fallbackSessionTimeout

def rebalanceTimeout : Duration :=
  (inner.rebalanceTimeoutMs.bind positiveMillis).getD inner.sessionTimeout

def memberList : List JoinGroupResponseMember :=
  inner.members.values.map (·.joinResponse)

def staticMemberId (groupInstanceId : String) : Option String :=
  inner.members.toList.findSome? fun (memberId, member) =>
    if member.joinResponse.groupInstanceId = some groupInstanceId then some memberId else none

def validateMember (memberId : String) (groupInstanceId : Option String) : Except ErrorCode Unit :=
  let known := if inner.members.contains memberId then .ok () else .error .unknownMemberId
  match groupInstanceId with
  | none => known
  | some groupInstanceId =>
    match inner.staticMemberId groupInstanceId with
    | none => .error .unknownMemberId
    | some existing => if existing ≠ memberId then .error .fencedInstanceId else known

def hasJoinedWith (memberId : String) (metadata : List UInt8) : Bool :=
  inner.members[memberId]?.any (·.joinResponse.metadata == metadata)

def raiseRebalanceTimeout (rebalanceTimeoutMs : Int) : Inner S :=
  { inner with
    rebalanceTimeoutMs := some (inner.rebalanceTimeoutMs.elim rebalanceTimeoutMs (max · rebalanceTimeoutMs)) }

def upsertMember (memberId : String) (request : JoinRequest) (metadata : List UInt8) : Inner S :=
  let inner := inner.raiseRebalanceTimeout request.rebalanceTimeoutMs
  let member := inner.members[memberId]?.getD
    { joinResponse := { memberId, groupInstanceId := request.groupInstanceId } }
  { inner with
    members := inner.members.insert memberId
      { joinResponse := { member.joinResponse with metadata }
        lastContact := some now
        clientId := request.clientId.getD ""
        clientHost := request.clientHost.getD "" } }

def contact (memberId : String) : Inner S :=
  { inner with members := inner.members.modify memberId fun member => { member with lastContact := some now } }

def forgetPendingMembers : Inner S × Bool :=
  let pendingMembers := inner.pendingMembers.filter fun _ expires => decide (now < expires)
  ({ inner with pendingMembers }, decide (pendingMembers.size < inner.pendingMembers.size))

def removeExpiredMembers (isWaiting : String → Bool) : Inner S × Bool :=
  let members := inner.members.filter fun memberId member =>
    isWaiting memberId || !member.lastContact.all fun lastContact =>
      decide (inner.sessionTimeout < durationSince now lastContact)
  ({ inner with members }, decide (members.size < inner.members.size))

def forgetPendingSync (memberIds : List String) : Inner S :=
  { inner with
    pendingSync := inner.pendingSync.bind fun pendingSync =>
      let members := memberIds.foldl (fun members memberId => members.erase memberId) pendingSync.members
      if members.isEmpty then none else some { pendingSync with members } }

def removeMembersPendingSync : Inner S × Bool :=
  match inner.pendingSync with
  | some pendingSync =>
    if pendingSync.deadline ≤ now then
      let members := inner.members.filter fun memberId _ => !pendingSync.members.contains memberId
      ({ inner with members, pendingSync := none }, decide (members.size < inner.members.size))
    else (inner, false)
  | none => (inner, false)

def leavingMember (memberId : String) : Option String → Except ErrorCode String
  | some groupInstanceId =>
    match inner.staticMemberId groupInstanceId with
    | none => .error .unknownMemberId
    | some existing =>
      if memberId ≠ "" ∧ existing ≠ memberId then .error .fencedInstanceId else .ok existing
  | none => if inner.members.contains memberId then .ok memberId else .error .unknownMemberId

def removeLeaving (memberId : String) (groupInstanceId : Option String) : Inner S × MemberResponse × Bool :=
  if groupInstanceId = none ∧ inner.pendingMembers.contains memberId = true then
    ({ inner with pendingMembers := inner.pendingMembers.erase memberId },
      { memberId, groupInstanceId, errorCode := .none }, true)
  else
    match inner.leavingMember memberId groupInstanceId with
    | .ok removing =>
      ({ inner with members := inner.members.erase removing }.forgetPendingSync [removing],
        { memberId, groupInstanceId, errorCode := .none }, true)
    | .error errorCode => (inner, { memberId, groupInstanceId, errorCode }, false)

def removeEachLeaving (inner : Inner S) : List MemberIdentity → Inner S × List MemberResponse × Bool
  | [] => (inner, [], false)
  | member :: members =>
    let (inner, response, left) := inner.removeLeaving member.memberId member.groupInstanceId
    let (inner, responses, anyLeft) := removeEachLeaving inner members
    (inner, response :: responses, left || anyLeft)

def removeLeavingMembers (memberId : Option String) (members : Option (List MemberIdentity)) :
    Inner S × List MemberResponse × Bool :=
  inner.removeEachLeaving <| match memberId with
    | some memberId => [{ memberId, groupInstanceId := none }]
    | none => members.getD []

def offsetCommitFence (detail : OffsetCommit) (isCompletingRebalance : Bool) : Inner S × Option ErrorCode :=
  let generationId := detail.generationIdOrMemberEpoch.getD (-1)
  let memberId := detail.memberId.getD ""
  -- What is left when the commit's member and generation are the group's.
  let contacted :=
    if isCompletingRebalance ∧ detail.isTransactional = false then (inner, some .rebalanceInProgress)
    else if detail.isTransactional = false then (inner.contact now memberId, none)
    else (inner, none)
  if generationId < 0 ∧ inner.members.isEmpty = true then (inner, none)
  else if 0 ≤ generationId ∨ memberId ≠ "" ∨ detail.groupInstanceId.isSome = true then
    match inner.validateMember memberId detail.groupInstanceId with
    | .error errorCode => (inner, some errorCode)
    | .ok () => if generationId ≠ inner.generationId then (inner, some .illegalGeneration) else contacted
  else if inner.members.isEmpty = false then (inner, some .unknownMemberId)
  else contacted

end Inner

end Nisshi.Coordinator
