import Nisshi.Coordinator.Inner

/-! A forming group: the join phase, its end, and the requests of the members. -/

namespace Nisshi.Storage.JoinPhase

open Option

def extended (joinPhase : JoinPhase) : Option JoinPhase :=
  match joinPhase.initialDelay with
  | some initialDelay =>
    if initialDelay.newMemberAdded = true ∧ 0 < initialDelay.remainingMs then
      let delayMs := min initialDelay.delayMs initialDelay.remainingMs
      some { joinPhase with
             deadline := joinPhase.deadline + fromMillis delayMs
             initialDelay := some { delayMs
                                    remainingMs := initialDelay.remainingMs - initialDelay.delayMs
                                    newMemberAdded := false } }
    else none
  | none => none

theorem extended_extended {joinPhase : JoinPhase} (more : joinPhase.extended = some longer) :
    longer.extended = none := by
  cases delayed : joinPhase.initialDelay with
  | none => simp [extended, delayed] at more
  | some =>
    simp only [extended, delayed, ite_none_right_eq_some, some.injEq] at more
    obtain ⟨_, rfl⟩ := more
    simp [extended]

end Nisshi.Storage.JoinPhase

namespace Nisshi.Coordinator

open Nisshi.SansIo Nisshi.Storage
open Std (ExtTreeMap ExtTreeSet)

namespace Inner

variable (inner : Inner Forming) (now : SystemTime)

def setJoinPhase (joinPhase : Option JoinPhase) : Inner Forming :=
  { inner with state := { inner.state with joinPhase } }

def setLeader (leader : Option String) : Inner Forming :=
  { inner with state := inner.state.setLeader leader }

def isWaiting (memberId : String) : Bool :=
  match inner.state.joinPhase with
  | some joinPhase => joinPhase.joined.contains memberId
  | none => inner.pendingSync.all fun pendingSync => !pendingSync.members.contains memberId

/-- Keeps the leader, the join phase and the pending syncs consistent with the members, after the coordinator
removes some. -/
def forgetRemovedMembers : Inner Forming :=
  let led :=
    if inner.state.leader.any fun leader => !inner.members.contains leader then
      inner.setLeader inner.members.keys.head?
    else inner
  let joined := led.setJoinPhase (led.state.joinPhase.map fun joinPhase =>
    { joinPhase with joined := joinPhase.joined.filter fun memberId => led.members.contains memberId })
  { joined with
    pendingSync := joined.pendingSync.map fun pendingSync =>
      { pendingSync with
        members := pendingSync.members.filter fun memberId => joined.members.contains memberId } }

def removeExpired : Inner Forming × Bool :=
  let (kept, removed) := inner.removeExpiredMembers now inner.isWaiting
  (if removed then kept.forgetRemovedMembers else kept, removed)

def isCompletingRebalance : Bool :=
  inner.state.joinPhase.isNone && !inner.members.isEmpty

def restartSessionsOfSyncedMembers : Inner Forming :=
  { inner with
    members := inner.members.map fun memberId member =>
      if inner.pendingSync.all fun pendingSync => !pendingSync.members.contains memberId then
        { member with lastContact := some now }
      else member }

def rejoinPhase : JoinPhase where
  deadline := now + inner.rebalanceTimeout
  joined := ∅
  initialDelay := none

def startJoinPhase : Inner Forming :=
  { inner with pendingSync := none }.setJoinPhase (some (inner.rejoinPhase now))

def prepareRebalance : Inner Forming :=
  if inner.isCompletingRebalance then (inner.restartSessionsOfSyncedMembers now).startJoinPhase now
  else inner.startJoinPhase now

def prepareInitialRebalance (initialRebalanceDelay : Duration) : Inner Forming :=
  { inner with pendingSync := none }.setJoinPhase
    (some { deadline := now + initialRebalanceDelay
            joined := ∅
            initialDelay := some
              { delayMs := min (asMillis initialRebalanceDelay) u64Max
                remainingMs := min (asMillis (inner.rebalanceTimeout - initialRebalanceDelay)) u64Max
                newMemberAdded := false } })

def allMembersJoined : Bool :=
  inner.pendingMembers.isEmpty &&
    inner.state.joinPhase.any fun joinPhase => inner.members.keys.all joinPhase.joined.contains

def keepJoined (joinPhase : JoinPhase) : Inner Forming :=
  { inner with
    members := inner.members.filter fun memberId member =>
      joinPhase.joined.contains memberId || member.joinResponse.groupInstanceId.isSome }.setJoinPhase none

def electLeader (joinPhase : JoinPhase) : Inner Forming :=
  if inner.state.leader.any joinPhase.joined.contains then inner
  else inner.setLeader (inner.members.keys.find? joinPhase.joined.contains)

/-- Starts the next generation, in which every member must sync. A group without members becomes empty. -/
def startGeneration : Inner Forming :=
  if inner.members.isEmpty then
    { inner with
      generationId := inner.generationId + 1
      state := { inner.state with protocol := none }
      pendingSync := none }
  else
    { inner with
      generationId := inner.generationId + 1
      members := inner.members.map fun _ member => { member with lastContact := some now }
      pendingSync := some { deadline := now + inner.rebalanceTimeout
                            members := ExtTreeSet.ofList inner.members.keys } }

def completeJoin : Inner Forming :=
  match inner.state.joinPhase with
  | none => inner
  | some joinPhase =>
    let kept := inner.keepJoined joinPhase
    if !kept.members.isEmpty && !kept.members.keys.any joinPhase.joined.contains then
      -- Only static members that did not rejoin remain, and get another rebalance timeout.
      kept.setJoinPhase (some (kept.rejoinPhase now))
    else (kept.electLeader joinPhase).startGeneration now

def completeJoinIfAllJoined : Inner Forming :=
  if inner.allMembersJoined then inner.completeJoin now else inner

def completeJoinIfAllJoinedAfterJoin : Inner Forming :=
  if inner.state.joinPhase.any fun joinPhase => joinPhase.initialDelay.isNone then
    inner.completeJoinIfAllJoined now
  else inner

def rounds : Nat :=
  match inner.state.joinPhase with
  | none => 0
  | some joinPhase =>
    if joinPhase.deadline ≤ now then (if joinPhase.extended.isSome then 2 else 1) else 0

theorem positiveMillis_pos {milliseconds : Int} (positive : positiveMillis milliseconds = some duration) :
    0 < duration := by
  simp only [positiveMillis, Option.ite_none_right_eq_some, Option.some.injEq] at positive
  obtain ⟨above, rfl⟩ := positive
  exact Nat.mul_pos (Int.pos_iff_toNat_pos.mp above) (by decide)

theorem sessionTimeout_pos (inner : Inner S) : 0 < inner.sessionTimeout := by
  simp only [sessionTimeout]
  cases given : positiveMillis inner.sessionTimeoutMs with
  | none => decide
  | some => exact positiveMillis_pos given

theorem rebalanceTimeout_pos (inner : Inner S) : 0 < inner.rebalanceTimeout := by
  simp only [rebalanceTimeout]
  cases given : inner.rebalanceTimeoutMs.bind positiveMillis with
  | none => exact inner.sessionTimeout_pos
  | some =>
    obtain ⟨_, _, positive⟩ := Option.bind_eq_some_iff.mp given
    exact positiveMillis_pos positive

theorem rounds_completeJoin : (inner.completeJoin now).rounds now = 0 ∨ inner.state.joinPhase = none := by
  cases phase : inner.state.joinPhase with
  | none => exact .inr rfl
  | some joinPhase =>
    refine .inl ?_
    simp only [completeJoin, phase]
    split
    · have later := (inner.keepJoined joinPhase).rebalanceTimeout_pos
      have future : ¬ now + ((inner.keepJoined joinPhase).rebalanceTimeout) ≤ now :=
        Int.not_le.mpr (Int.lt_add_of_pos_right now (Int.natCast_pos.mpr later))
      simp only [rounds, setJoinPhase, rejoinPhase, if_neg future]
    · simp only [electLeader, startGeneration]
      split <;> split <;> simp [rounds, keepJoined, setJoinPhase, setLeader, Forming.setLeader]

section

variable {inner now} {joinPhase longer : JoinPhase}

theorem rounds_of_extended (phase : inner.state.joinPhase = some joinPhase) (late : joinPhase.deadline ≤ now)
    (more : joinPhase.extended = some longer) :
    (inner.setJoinPhase (some longer)).rounds now < inner.rounds now := by
  simp only [rounds, setJoinPhase, phase, if_pos late, more, JoinPhase.extended_extended more]
  split <;> simp

theorem rounds_of_completed (phase : inner.state.joinPhase = some joinPhase) (late : joinPhase.deadline ≤ now)
    (last : joinPhase.extended = none) : (inner.completeJoin now).rounds now < inner.rounds now := by
  rw [(inner.rounds_completeJoin now).resolve_right (by rw [phase]; nofun)]
  simp [rounds, phase, late, last]

end

def endJoinPhaseAfterDeadline (inner : Inner Forming) (now : SystemTime) : Inner Forming :=
  match phase : inner.state.joinPhase with
  | none => inner
  | some joinPhase =>
    if due : joinPhase.deadline ≤ now then
      match more : joinPhase.extended with
      | some longer => endJoinPhaseAfterDeadline (inner.setJoinPhase (some longer)) now
      | none => endJoinPhaseAfterDeadline (inner.completeJoin now) now
    else inner
termination_by inner.rounds now
decreasing_by
  · exact rounds_of_extended phase due more
  · exact rounds_of_completed phase due more

def markJoined (memberId : String) : Inner Forming :=
  inner.setJoinPhase (inner.state.joinPhase.map fun joinPhase =>
    { joinPhase with joined := joinPhase.joined.insert memberId })

def joinResponse (memberId : String) : Body :=
  let leader := inner.state.leader.getD ""
  .joinGroup { throttleTimeMs := some 0
               errorCode := .none
               generationId := inner.generationId
               protocolType := inner.state.protocolType
               protocolName := inner.state.protocolName
               leader
               skipAssignment := inner.skipAssignment
               memberId
               members := some (if leader = memberId then inner.memberList else []) }

def replyToJoined (memberId : String) : Reply :=
  if inner.state.joinPhase.isNone && inner.members.contains memberId then
    .ready (inner.joinResponse memberId)
  else .held memberId

def joined (memberId : String) : Inner Forming × Reply :=
  let inner := (inner.markJoined memberId).completeJoinIfAllJoinedAfterJoin now
  (inner, inner.replyToJoined memberId)

def adoptProtocol (request : JoinRequest) (protocol : JoinGroupRequestProtocol) : Inner Forming :=
  if inner.state.protocol.isNone then
    { inner with
      state := { inner.state with
                 protocol := some { protocolType := request.protocolType
                                    protocolName := protocol.name
                                    leader := none } }
      sessionTimeoutMs := request.sessionTimeoutMs
      rebalanceTimeoutMs := none }
  else inner

def enterJoinPhase (isEmpty : Bool) (initialRebalanceDelay : Duration) : Inner Forming :=
  match inner.state.joinPhase with
  | some joinPhase =>
    inner.setJoinPhase (some { joinPhase with
      initialDelay := joinPhase.initialDelay.map ({ · with newMemberAdded := true }) })
  | none =>
    if isEmpty then inner.prepareInitialRebalance now initialRebalanceDelay
    else inner.prepareRebalance now

/-- The member with its protocol, as the leader if the group has none. -/
def seatMember (memberId : String) (request : JoinRequest) (protocol : JoinGroupRequestProtocol) : Inner Forming :=
  let added := (inner.adoptProtocol request protocol).upsertMember now memberId request protocol.metadata
  if added.state.leader.isNone then added.setLeader (some memberId) else added

def addMember (memberId : String) (request : JoinRequest) (protocol : JoinGroupRequestProtocol)
    (initialRebalanceDelay : Duration) : Inner Forming × Reply :=
  let isEmpty := inner.members.isEmpty && inner.state.joinPhase.isNone
  ((inner.seatMember now memberId request protocol).enterJoinPhase now isEmpty
    initialRebalanceDelay).joined now memberId

def ensureJoinPhase : Inner Forming :=
  if inner.state.joinPhase.isNone then inner.prepareRebalance now else inner

def updateMember (memberId : String) (request : JoinRequest) (metadata : List UInt8) : Inner Forming × Reply :=
  let isWaiting := (inner.state.joinPhase.any fun joinPhase => joinPhase.joined.contains memberId) &&
    inner.hasJoinedWith memberId metadata
  if isWaiting then (inner, inner.replyToJoined memberId)
  else ((inner.upsertMember now memberId request metadata).ensureJoinPhase now).joined now memberId

def renameMember {S : Type} (inner : Inner S) (old new : String) : Inner S :=
  match inner.members[old]? with
  | none => inner
  | some member =>
    { inner with
      members := (inner.members.erase old).insert new
        { member with joinResponse := { member.joinResponse with memberId := new } } }

/-- The earlier instance's place for the new one, which has yet to join. -/
def handOver (old new : String) : Inner Forming :=
  let renamed := inner.renameMember old new
  let led := if renamed.state.leader = some old then renamed.setLeader (some new) else renamed
  led.setJoinPhase (led.state.joinPhase.map fun joinPhase =>
    { joinPhase with joined := joinPhase.joined.erase old })

def replaceStaticMember (old new : String) (request : JoinRequest) (metadata : List UInt8) : Inner Forming × Reply :=
  (((inner.handOver old new).upsertMember now new request metadata).ensureJoinPhase now).joined now new

def addPending {S : Type} (inner : Inner S) (now : SystemTime) (memberId : String) (request : JoinRequest) : Inner S :=
  { inner with
    pendingMembers := inner.pendingMembers.insert memberId
      (now + (positiveMillis request.sessionTimeoutMs).getD fallbackSessionTimeout) }

def forgetPending {S : Type} (inner : Inner S) (memberId : String) : Inner S :=
  { inner with pendingMembers := inner.pendingMembers.erase memberId }

end Inner

end Nisshi.Coordinator
