import Nisshi.Coordinator.Sound

/-! The document of a group in storage, and the group that a broker makes of a document it reads. -/

namespace Nisshi.Storage

def GroupDetail.leaderIsMember (detail : GroupDetail) : Bool :=
  match detail.state with
  | .forming _ _ leader => leader.all detail.members.contains
  | .formed .. => true

end Nisshi.Storage

namespace Nisshi.Coordinator

open Nisshi.SansIo Nisshi.Storage Nisshi.Lib
open Std (ExtTreeMap ExtTreeSet)

def Member.toGroupMember (member : Member) : GroupMember where
  joinResponse := member.joinResponse
  lastContact := member.lastContact
  clientId := member.clientId
  clientHost := member.clientHost

def Member.ofGroupMember (member : GroupMember) : Member where
  joinResponse := member.joinResponse
  lastContact := member.lastContact
  clientId := member.clientId
  clientHost := member.clientHost

def Inner.toGroupDetail {S : Type} (inner : Inner S) (state : GroupState) (joinPhase : Option JoinPhase) :
    GroupDetail where
  sessionTimeoutMs := inner.sessionTimeoutMs
  rebalanceTimeoutMs := inner.rebalanceTimeoutMs
  members := inner.members.map fun _ member => member.toGroupMember
  generationId := inner.generationId
  skipAssignment := inner.skipAssignment
  inception := inner.inception
  state
  rebalance := { joinPhase, pendingSync := inner.pendingSync, pendingMembers := inner.pendingMembers }

def Inner.ofGroupDetail {S : Type} (detail : GroupDetail) (state : S) : Inner S where
  sessionTimeoutMs := detail.sessionTimeoutMs
  rebalanceTimeoutMs := detail.rebalanceTimeoutMs
  members := detail.members.map fun _ member => Member.ofGroupMember member
  generationId := detail.generationId
  state
  skipAssignment := detail.skipAssignment
  inception := detail.inception
  pendingMembers := detail.rebalance.pendingMembers
  pendingSync := detail.rebalance.pendingSync

namespace Wrapper

def toGroupDetail : Wrapper → GroupDetail
  | .forming inner => inner.toGroupDetail
      (.forming inner.state.protocolType inner.state.protocolName inner.state.leader) inner.state.joinPhase
  | .formed inner => inner.toGroupDetail (.formed inner.state.protocolType inner.state.protocolName
      inner.state.leader inner.state.assignments) none

def lastContact {S : Type} (inner : Inner S) : SystemTime :=
  (inner.members.values.filterMap (·.lastContact)).max?.getD inner.inception

def repaired (inner : Inner Forming) : Inner Forming :=
  if inner.state.joinPhase.isNone && inner.pendingSync.isNone && !inner.members.isEmpty then
    inner.setJoinPhase (some { deadline := lastContact inner + inner.rebalanceTimeout
                               joined := ∅
                               initialDelay := none })
  else inner

def withStorageGroupDetail (detail : GroupDetail) : Wrapper :=
  match detail.state with
  | .forming protocolType protocolName leader =>
    -- A leader that is not a member is dropped.
    .forming (repaired (.ofGroupDetail detail
      { Forming.fromParts protocolType protocolName (leader.filter detail.members.contains) with
        joinPhase := detail.rebalance.joinPhase }))
  | .formed protocolType protocolName leader assignments =>
    .formed (.ofGroupDetail detail { protocolType, protocolName, leader, assignments })

def dropLeader (inner : Inner Forming) : Inner Forming :=
  inner.setLeader (inner.state.leader.filter inner.members.contains)

theorem members_of_toGroupMember (members : ExtTreeMap String Member) :
    (members.map fun _ member => member.toGroupMember).map
      (fun _ member => Member.ofGroupMember member) = members := by
  rw [ExtTreeMap.map_map]
  exact ExtTreeMap.map_id

theorem contains_toGroupMember (members : ExtTreeMap String Member) :
    (members.map fun _ member => member.toGroupMember).contains = members.contains := by
  funext memberId
  exact Bool.eq_iff_iff.mpr ((ExtTreeMap.contains_iff_mem.trans ExtTreeMap.mem_map).trans
    ExtTreeMap.contains_iff_mem.symm)

/-- A document is read back as the group, except that a leader who is not a member is dropped, and a group
stored without its rebalance is repaired. -/
theorem withStorageGroupDetail_forming (inner : Inner Forming) :
    withStorageGroupDetail (toGroupDetail (.forming inner)) = .forming (repaired (dropLeader inner)) := by
  simp only [withStorageGroupDetail, toGroupDetail, Inner.toGroupDetail, Inner.ofGroupDetail,
    members_of_toGroupMember, contains_toGroupMember,
    dropLeader, Inner.setLeader, Forming.setLeader, Forming.fromParts, Forming.protocolType,
    Forming.protocolName, Forming.leader]
  cases held : inner.state.protocol <;> rfl

theorem withStorageGroupDetail_formed (inner : Inner Formed) :
    withStorageGroupDetail (toGroupDetail (.formed inner)) = .formed inner := by
  simp only [withStorageGroupDetail, toGroupDetail, Inner.toGroupDetail, Inner.ofGroupDetail, members_of_toGroupMember]

variable {group : Wrapper} {inner : Inner Forming}

theorem dropLeader_eq_self (known : inner.state.leader.all inner.members.contains = true) :
    dropLeader inner = inner := by
  cases held : inner.state.protocol with
  | none =>
    simp only [dropLeader, Inner.setLeader, Forming.setLeader, held, Option.map_none]
    rw [← held]
  | some protocol =>
    have kept : protocol.leader.filter inner.members.contains = protocol.leader := by
      have all : protocol.leader.all inner.members.contains = true := by
        simpa only [Forming.leader, held, Option.bind_some] using known
      cases leads : protocol.leader with
      | none => rfl
      | some =>
        rw [leads, Option.all_some] at all
        rw [Option.filter_some, if_pos all]
    simp only [dropLeader, Inner.setLeader, Forming.setLeader, Forming.leader, held, Option.map_some,
      Option.bind_some, kept]
    rw [← held]

theorem repaired_eq_self (sound : inner.Sound) : repaired inner = inner := by
  rw [repaired, if_neg]
  simp only [Bool.and_eq_true, Option.isNone_iff_eq_none, Bool.not_eq_true']
  rintro ⟨⟨phase, unsynced⟩, filled⟩
  obtain ⟨_, _, _, _, awaited, _⟩ := sound.completing phase filled
  rw [unsynced] at awaited
  cases awaited

theorem sound_dropLeader (sound : inner.Sound) : (dropLeader inner).Sound := by
  refine ⟨sound.setLeader _, fun phase filled => ?_⟩
  obtain ⟨leader, pendingSync, led, member, awaits⟩ := sound.completing phase filled
  have known : inner.state.leader.all inner.members.contains = true := by
    rw [led]
    exact ExtTreeMap.contains_iff_mem.mpr member
  rw [dropLeader_eq_self known]
  exact ⟨leader, pendingSync, led, member, awaits⟩

theorem Sound.withStorageGroupDetail (sound : group.Sound) : (withStorageGroupDetail group.toGroupDetail).Sound := by
  cases group with
  | formed =>
    exact sound
  | forming =>
    have dropped := sound_dropLeader sound
    rw [withStorageGroupDetail_forming, repaired_eq_self dropped]
    exact dropped

theorem leaderIsMember_forming : (toGroupDetail (.forming inner)).leaderIsMember =
    inner.state.leader.all inner.members.contains := by
  simp only [GroupDetail.leaderIsMember, toGroupDetail, Inner.toGroupDetail, contains_toGroupMember]

theorem Sound.read_back (sound : group.Sound) (known : group.toGroupDetail.leaderIsMember = true) :
    Wrapper.withStorageGroupDetail group.toGroupDetail = group := by
  cases group with
  | formed inner => exact withStorageGroupDetail_formed inner
  | forming =>
    rw [leaderIsMember_forming] at known
    rw [withStorageGroupDetail_forming, dropLeader_eq_self known, repaired_eq_self sound]

end Wrapper

end Nisshi.Coordinator
