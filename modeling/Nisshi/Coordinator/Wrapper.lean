import Nisshi.Coordinator.Forming

/-! The requests of a group's members in its two states, what the passing of time does to the group, and the
document that storage holds of it. -/

namespace Nisshi.Coordinator

open Nisshi.SansIo Nisshi.Storage
open Std (ExtTreeMap ExtTreeSet)

inductive Wrapper where
  | forming (inner : Inner Forming)
  | formed (inner : Inner Formed)
  deriving DecidableEq

namespace Inner

section Formed

variable (inner : Inner Formed) (now : SystemTime)

def intoPreparingRebalance : Inner Forming :=
  let leader :=
    if inner.members.contains inner.state.leader then some inner.state.leader
    else inner.members.keys.head?
  { inner with
    state := { protocol := some { protocolType := inner.state.protocolType
                                  protocolName := inner.state.protocolName
                                  leader }
               joinPhase := none }
    pendingSync := none : Inner Forming }.startJoinPhase now

def formedJoinResponse (memberId leader : String) (skipAssignment : Bool) : Body :=
  .joinGroup { throttleTimeMs := some 0
               errorCode := .none
               generationId := inner.generationId
               protocolType := some inner.state.protocolType
               protocolName := some inner.state.protocolName
               leader
               skipAssignment := some skipAssignment
               memberId
               members := some (if leader = memberId then inner.memberList else []) }

def syncResponse (memberId : String) : Reply :=
  .ready (.syncGroup { throttleTimeMs := some 0
                       errorCode := .none
                       protocolType := some inner.state.protocolType
                       protocolName := some inner.state.protocolName
                       assignment := inner.state.assignments[memberId]?.getD [] })

def takePlace (old new : String) : Inner Formed :=
  let renamed := inner.renameMember old new
  { renamed with
    state := { renamed.state with
               assignments :=
                 match renamed.state.assignments[old]? with
                 | some assignment => (renamed.state.assignments.erase old).insert new assignment
                 | none => renamed.state.assignments
               leader := if renamed.state.leader = old then new else renamed.state.leader }
    pendingSync := renamed.pendingSync.map fun pendingSync =>
      if pendingSync.members.contains old then
        { pendingSync with members := (pendingSync.members.erase old).insert new }
      else pendingSync }

def joinFormed (uuid : String) (request : JoinRequest) (initialRebalanceDelay : Duration) : Wrapper × Reply :=
  match request.joiningProtocol (some (inner.state.protocolType, inner.state.protocolName)) with
  | .error errorCode => (.formed inner, joinError request.memberId errorCode)
  | .ok protocol =>
    if request.memberId = "" then
      match NewMember.of uuid request (request.groupInstanceId.bind inner.staticMemberId) with
      | .pending memberId => (.formed (inner.addPending now memberId request), memberIdRequired memberId)
      | .added memberId =>
        let (forming, reply) :=
          (inner.intoPreparingRebalance now).addMember now memberId request protocol initialRebalanceDelay
        (.forming forming, reply)
      | .replacing old new =>
        let replaced := (inner.takePlace old new).upsertMember now new request protocol.metadata
        let body :=
          if skipAssignmentVersion ≤ request.apiVersion then
            replaced.formedJoinResponse new replaced.state.leader (replaced.state.leader == new)
          else replaced.formedJoinResponse new inner.state.leader false
        (.formed replaced, .ready body)
    else if inner.pendingMembers.contains request.memberId then
      let (forming, reply) :=
        ((inner.forgetPending request.memberId).intoPreparingRebalance now).addMember now request.memberId
          request protocol initialRebalanceDelay
      (.forming forming, reply)
    else
      match inner.validateMember request.memberId request.groupInstanceId with
      | .error errorCode => (.formed inner, joinError request.memberId errorCode)
      | .ok () =>
        if inner.state.leader ≠ request.memberId ∧ inner.hasJoinedWith request.memberId protocol.metadata = true then
          (.formed inner, .ready (inner.formedJoinResponse request.memberId inner.state.leader false))
        else
          let (forming, reply) :=
            (inner.intoPreparingRebalance now).updateMember now request.memberId request protocol.metadata
          (.forming forming, reply)

def syncFormed (request : SyncRequest) : Inner Formed × Reply :=
  match inner.validateMember request.memberId request.groupInstanceId with
  | .error errorCode => (inner, syncError errorCode)
  | .ok () =>
    if request.generationId ≠ inner.generationId then (inner, syncError .illegalGeneration)
    else if request.protocolType.any (· != inner.state.protocolType) ||
        request.protocolName.any (· != inner.state.protocolName) then
      (inner, syncError .inconsistentGroupProtocol)
    else
      let synced :=
        if inner.pendingSync.any fun pendingSync => pendingSync.members.contains request.memberId then
          (inner.forgetPendingSync [request.memberId]).contact now request.memberId
        else inner
      (synced, synced.syncResponse request.memberId)

def heartbeatFormed (generationId : Int) (memberId : String) (groupInstanceId : Option String) : Inner Formed × Body :=
  match inner.validateMember memberId groupInstanceId with
  | .error errorCode => (inner, heartbeatResponse errorCode)
  | .ok () =>
    if generationId ≠ inner.generationId then (inner, heartbeatResponse .illegalGeneration)
    else (inner.contact now memberId, heartbeatResponse .none)

def leaveFormed (memberId : Option String) (members : Option (List MemberIdentity)) : Wrapper × Body :=
  let (left, responses, anyLeft) := inner.removeLeavingMembers memberId members
  if anyLeft then
    (.forming ((left.intoPreparingRebalance now).completeJoinIfAllJoined now), leaveResponse responses)
  else (.formed left, leaveResponse responses)

end Formed

section Forming

variable (inner : Inner Forming) (now : SystemTime)

def joinForming (uuid : String) (request : JoinRequest) (initialRebalanceDelay : Duration) : Inner Forming × Reply :=
  match request.joiningProtocol (inner.state.protocol.map fun protocol =>
    (protocol.protocolType, protocol.protocolName)) with
  | .error errorCode => (inner, joinError request.memberId errorCode)
  | .ok protocol =>
    if request.memberId = "" then
      match NewMember.of uuid request (request.groupInstanceId.bind inner.staticMemberId) with
      | .pending memberId => (inner.addPending now memberId request, memberIdRequired memberId)
      | .added memberId => inner.addMember now memberId request protocol initialRebalanceDelay
      | .replacing old new => inner.replaceStaticMember now old new request protocol.metadata
    else if inner.pendingMembers.contains request.memberId then
      (inner.forgetPending request.memberId).addMember now request.memberId request protocol
        initialRebalanceDelay
    else
      match inner.validateMember request.memberId request.groupInstanceId with
      | .error errorCode => (inner, joinError request.memberId errorCode)
      | .ok () =>
        if inner.isCompletingRebalance && inner.hasJoinedWith request.memberId protocol.metadata then
          (inner, .ready (inner.joinResponse request.memberId))
        else inner.updateMember now request.memberId request protocol.metadata

def completeAssignments (assignments : List SyncGroupRequestAssignment) : ExtTreeMap String (List UInt8) :=
  let given := (assignments.filter fun assignment => inner.members.contains assignment.memberId).foldl
    (fun assigned assignment => assigned.insert assignment.memberId assignment.assignment) ∅
  inner.members.keys.foldl (fun assigned memberId => assigned.insertIfNew memberId []) given

def syncForming (request : SyncRequest) : Wrapper × Reply :=
  match inner.validateMember request.memberId request.groupInstanceId with
  | .error errorCode => (.forming inner, syncError errorCode)
  | .ok () =>
    if request.generationId ≠ inner.generationId then (.forming inner, syncError .illegalGeneration)
    else if (request.protocolType.any fun requested => inner.state.protocolType.any (requested != ·)) ||
        request.protocolName.any fun requested => inner.state.protocolName.any (requested != ·) then
      (.forming inner, syncError .inconsistentGroupProtocol)
    else if inner.state.joinPhase.isSome then (.forming inner, syncError .rebalanceInProgress)
    else
      let synced := inner.forgetPendingSync [request.memberId]
      match synced.state.protocol with
      | some { protocolType, protocolName, leader := some leader } =>
        if leader ≠ request.memberId then (.forming synced, .held request.memberId)
        else
          let restarted := synced.restartSessionsOfSyncedMembers now
          let assignments := synced.completeAssignments (request.assignments.getD [])
          let formed : Inner Formed :=
            { restarted with state := { protocolType, protocolName, leader, assignments } }
          (.formed formed, formed.syncResponse request.memberId)
      | _ => (.forming synced, syncError .rebalanceInProgress)

def heartbeatForming (generationId : Int) (memberId : String) (groupInstanceId : Option String) :
    Inner Forming × Body :=
  match inner.validateMember memberId groupInstanceId with
  | .error errorCode => (inner, heartbeatResponse errorCode)
  | .ok () =>
    if generationId ≠ inner.generationId then (inner, heartbeatResponse .illegalGeneration)
    else
      (inner.contact now memberId,
        heartbeatResponse (if inner.state.joinPhase.isSome then .rebalanceInProgress else .none))

def leaveForming (memberId : Option String) (members : Option (List MemberIdentity)) : Inner Forming × Body :=
  let wasCompletingRebalance := inner.isCompletingRebalance
  let (left, responses, anyLeft) := inner.removeLeavingMembers memberId members
  let rebalanced :=
    if anyLeft then
      let kept := left.forgetRemovedMembers
      if kept.state.joinPhase.isSome then kept.completeJoinIfAllJoinedAfterJoin now
      else if wasCompletingRebalance then (kept.prepareRebalance now).completeJoinIfAllJoined now
      else kept
    else left
  (rebalanced, leaveResponse responses)

end Forming

end Inner

namespace Wrapper

variable (group : Wrapper) (now : SystemTime)

def new (inception : SystemTime) : Wrapper :=
  .forming (.new inception)

def rebalanceTimeout : Wrapper → Duration
  | .forming inner => inner.rebalanceTimeout
  | .formed inner => inner.rebalanceTimeout

def holdLimit (rebalanceTimeoutMs : Option Int) : Duration :=
  max ((rebalanceTimeoutMs.bind positiveMillis).getD 0) group.rebalanceTimeout * 2

def settle : Wrapper → Wrapper
  | .forming inner =>
    let wasCompletingRebalance := inner.isCompletingRebalance
    let (remembered, forgotPending) := inner.forgetPendingMembers now
    let (kept, removedMembers) := remembered.removeExpired now
    if kept.state.joinPhase.isSome then
      let completed :=
        if forgotPending || removedMembers then kept.completeJoinIfAllJoined now else kept
      .forming (completed.endJoinPhaseAfterDeadline now)
    else if wasCompletingRebalance then
      let (synced, removedPending) :=
        if removedMembers then (kept, true) else kept.removeMembersPendingSync now
      if removedPending then
        .forming ((synced.forgetRemovedMembers.prepareRebalance now).completeJoinIfAllJoined now)
      else .forming synced
    else .forming kept
  | .formed inner =>
    let (remembered, _) := inner.forgetPendingMembers now
    let (kept, removedMembers) := remembered.removeExpiredMembers now fun _ => false
    let (synced, removedPending) := kept.removeMembersPendingSync now
    if removedMembers || removedPending then
      .forming ((synced.intoPreparingRebalance now).completeJoinIfAllJoined now)
    else .formed synced

def join (uuid : String) (request : JoinRequest) (initialRebalanceDelay : Duration) : Wrapper → Wrapper × Reply
  | .forming inner =>
    let (inner, reply) := inner.joinForming now uuid request initialRebalanceDelay
    (.forming inner, reply)
  | .formed inner => inner.joinFormed now uuid request initialRebalanceDelay

def sync (request : SyncRequest) : Wrapper → Wrapper × Reply
  | .forming inner => inner.syncForming now request
  | .formed inner =>
    let (inner, reply) := inner.syncFormed now request
    (.formed inner, reply)

def heartbeat (generationId : Int) (memberId : String) (groupInstanceId : Option String) : Wrapper → Wrapper × Body
  | .forming inner =>
    let (inner, body) := inner.heartbeatForming now generationId memberId groupInstanceId
    (.forming inner, body)
  | .formed inner =>
    let (inner, body) := inner.heartbeatFormed now generationId memberId groupInstanceId
    (.formed inner, body)

def leave (memberId : Option String) (members : Option (List MemberIdentity)) : Wrapper → Wrapper × Body
  | .forming inner =>
    let (inner, body) := inner.leaveForming now memberId members
    (.forming inner, body)
  | .formed inner => inner.leaveFormed now memberId members

def checkOffsetCommit (detail : OffsetCommit) : Wrapper → Wrapper × Option ErrorCode
  | .forming inner =>
    let (inner, errorCode) := inner.offsetCommitFence now detail inner.isCompletingRebalance
    (.forming inner, errorCode)
  | .formed inner =>
    let (inner, errorCode) := inner.offsetCommitFence now detail false
    (.formed inner, errorCode)

end Wrapper

end Nisshi.Coordinator
