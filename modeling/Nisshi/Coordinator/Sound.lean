import Nisshi.Coordinator.Passes

/-! What every group keeps: a forming group with members has a protocol, only members are in its join phase,
and while it waits for its leader's assignment the leader is a member that must still sync. -/

namespace Nisshi.Coordinator

open Nisshi.SansIo Nisshi.Storage Nisshi.Lib Option
open Std (ExtTreeMap ExtTreeSet)

namespace Inner

/-- What holds of a forming group also between the removal of a member and the rebalance that follows. -/
structure Coherent (inner : Inner Forming) : Prop where
  protocol : ∀ memberId ∈ inner.members, inner.state.protocol.isSome = true
  joined : ∀ joinPhase, inner.state.joinPhase = some joinPhase → ∀ memberId ∈ joinPhase.joined, memberId ∈ inner.members

def AwaitsLeader (inner : Inner Forming) : Prop :=
  ∃ leader pendingSync, inner.state.leader = some leader ∧ leader ∈ inner.members ∧
    inner.pendingSync = some pendingSync ∧ leader ∈ pendingSync.members

structure Sound (inner : Inner Forming) : Prop extends Coherent inner where
  completing : inner.state.joinPhase = none → inner.members.isEmpty = false → inner.AwaitsLeader

variable {inner next : Inner Forming} {now : SystemTime} {memberId : String} {request : JoinRequest}

theorem Coherent.sound (coherent : inner.Coherent) (phase : inner.state.joinPhase.isSome = true) : inner.Sound :=
  ⟨coherent, fun none => by rw [none] at phase; cases phase⟩

theorem Sound.congr (sound : inner.Sound) (members : ∀ id, id ∈ next.members ↔ id ∈ inner.members)
    (state : next.state = inner.state) (pendingSync : next.pendingSync = inner.pendingSync) :
    next.Sound where
  protocol := fun id present => by rw [state]; exact sound.protocol id ((members id).mp present)
  joined := fun joinPhase phase id present =>
    (members id).mpr (sound.joined joinPhase (state ▸ phase) id present)
  completing := fun phase filled => by
    obtain ⟨id, present⟩ := OrderedMap.exists_mem filled
    obtain ⟨leader, sync, led, member, awaited, unsynced⟩ := sound.completing (state ▸ phase)
      (OrderedMap.isEmpty_eq_false ((members id).mp present))
    exact ⟨leader, sync, by rw [state]; exact led, (members leader).mpr member,
      by rw [pendingSync]; exact awaited, unsynced⟩

/-! The phases of a rebalance. -/

theorem Coherent.setJoinPhase (coherent : inner.Coherent) (joinPhase : JoinPhase)
    (joined : ∀ id ∈ joinPhase.joined, id ∈ inner.members) :
    (inner.setJoinPhase (some joinPhase)).Coherent :=
  ⟨coherent.protocol, by rintro _ ⟨⟩; exact joined⟩

theorem Coherent.startJoinPhase (coherent : inner.Coherent) : (inner.startJoinPhase now).Sound := by
  refine Coherent.sound ⟨coherent.protocol, ?_⟩ rfl
  rintro _ ⟨⟩ _ present
  exact absurd present ExtTreeSet.not_mem_empty

theorem mem_restartSessionsOfSyncedMembers :
    memberId ∈ (inner.restartSessionsOfSyncedMembers now).members ↔ memberId ∈ inner.members :=
  ExtTreeMap.mem_map

theorem Coherent.prepareRebalance (coherent : inner.Coherent) : (inner.prepareRebalance now).Sound := by
  rw [Inner.prepareRebalance]
  split
  · refine Coherent.startJoinPhase ⟨fun id present => ?_, fun joinPhase phase id present => ?_⟩
    · exact coherent.protocol id (mem_restartSessionsOfSyncedMembers.mp present)
    · exact mem_restartSessionsOfSyncedMembers.mpr (coherent.joined joinPhase phase id present)
  · exact coherent.startJoinPhase

variable {delay : Duration} {joinPhase : JoinPhase} {S : Type} {metadata : List UInt8}
  {protocol : JoinGroupRequestProtocol}

theorem Coherent.prepareInitialRebalance (coherent : inner.Coherent) :
    (inner.prepareInitialRebalance now delay).Sound := by
  refine Coherent.sound ⟨coherent.protocol, ?_⟩ rfl
  rintro _ ⟨⟩ _ present
  exact absurd present ExtTreeSet.not_mem_empty

theorem Coherent.ensureJoinPhase (coherent : inner.Coherent) : (inner.ensureJoinPhase now).Sound := by
  rw [Inner.ensureJoinPhase]
  split
  next => exact coherent.prepareRebalance
  next phase => exact coherent.sound (isSome_iff_ne_none.mpr (by simpa using phase))

theorem Coherent.enterJoinPhase (coherent : inner.Coherent) : (inner.enterJoinPhase now isEmpty delay).Sound := by
  rw [Inner.enterJoinPhase]
  split
  next joinPhase phase =>
    exact Coherent.sound (coherent.setJoinPhase _ (coherent.joined joinPhase phase)) rfl
  next => split; exacts [coherent.prepareInitialRebalance, coherent.prepareRebalance]

/-! The end of a join phase. -/

theorem mem_keepJoined : memberId ∈ (inner.keepJoined joinPhase).members ↔
    ∃ member, inner.members[memberId]? = some member ∧
      (joinPhase.joined.contains memberId || member.joinResponse.groupInstanceId.isSome) = true :=
  OrderedMap.mem_filter_iff

theorem mem_of_mem_keepJoined (present : memberId ∈ (inner.keepJoined joinPhase).members) : memberId ∈ inner.members :=
  ExtTreeMap.mem_of_mem_filter present

@[simp]
theorem protocol_isSome_setLeader : (inner.setLeader leader).state.protocol.isSome = inner.state.protocol.isSome := by
  simp [Inner.setLeader, Forming.setLeader]

theorem startGeneration_sound (phase : inner.state.joinPhase = none) (led : inner.members.isEmpty = false →
      ∃ leader, inner.state.leader = some leader ∧ leader ∈ inner.members) :
    (inner.startGeneration now).Sound := by
  rw [startGeneration]
  split
  next empty =>
    have none := OrderedMap.isEmpty_iff_forall_not_mem.mp empty
    exact ⟨⟨fun id present => absurd present (none id), by simp [phase]⟩,
      fun _ filled => by rw [empty] at filled; cases filled⟩
  next filled =>
    obtain ⟨leader, led, member⟩ := led (by simpa using filled)
    refine ⟨⟨fun _ _ => protocol_isSome_of_leader led, by simp [phase]⟩, fun _ _ => ?_⟩
    refine ⟨leader, _, led, ExtTreeMap.mem_map.mpr member, rfl, ?_⟩
    rw [ExtTreeSet.mem_ofList, List.contains_iff_mem]
    exact ExtTreeMap.mem_keys.mpr member

theorem electLeader_leader (protocol : inner.state.protocol.isSome = true)
    (members : ∀ id, joinPhase.joined.contains id = true → id ∈ inner.members)
    (rejoined : inner.members.keys.any joinPhase.joined.contains = true) :
    ∃ leader, (inner.electLeader joinPhase).state.leader = some leader ∧
      leader ∈ (inner.electLeader joinPhase).members := by
  rw [electLeader]
  split
  next stays =>
    obtain ⟨leader, led, joined⟩ := (any_eq_true _ _).mp stays
    exact ⟨leader, led, members leader joined⟩
  next =>
    obtain ⟨leader, found⟩ := isSome_iff_exists.mp (List.find?_isSome.mpr (List.any_eq_true.mp rejoined))
    refine ⟨leader, (leader_setLeader protocol _).trans found, ?_⟩
    exact ExtTreeMap.mem_keys.mp (List.mem_of_find?_eq_some found)

theorem Coherent.elected (coherent : inner.Coherent) (phase : inner.state.joinPhase = some joinPhase)
    (rejoined : ¬(!(inner.keepJoined joinPhase).members.isEmpty &&
      !(inner.keepJoined joinPhase).members.keys.any joinPhase.joined.contains) = true)
    (filled : ((inner.keepJoined joinPhase).electLeader joinPhase).members.isEmpty = false) :
    ∃ leader, ((inner.keepJoined joinPhase).electLeader joinPhase).state.leader = some leader ∧
      leader ∈ ((inner.keepJoined joinPhase).electLeader joinPhase).members := by
  have same : ((inner.keepJoined joinPhase).electLeader joinPhase).members = (inner.keepJoined joinPhase).members := by
    rw [electLeader]
    split <;> rfl
  rw [same] at filled
  obtain ⟨id, present⟩ := OrderedMap.exists_mem filled
  refine electLeader_leader (coherent.protocol id (mem_of_mem_keepJoined present)) (fun id joined => ?_)
    (by simpa [filled] using rejoined)
  have member := coherent.joined joinPhase phase id (ExtTreeSet.contains_iff_mem.mp joined)
  exact mem_keepJoined.mpr ⟨_, ExtTreeMap.getElem?_eq_some_getElem member, by rw [joined]; rfl⟩

theorem Coherent.completeJoin (coherent : inner.Coherent) (phase : inner.state.joinPhase = some joinPhase) :
    (inner.completeJoin now).Sound := by
  simp only [Inner.completeJoin, phase]
  split
  next =>
    refine Coherent.sound ⟨fun id present => coherent.protocol id (mem_of_mem_keepJoined present), ?_⟩ rfl
    rintro _ ⟨⟩ _ present
    exact absurd present ExtTreeSet.not_mem_empty
  next rejoined =>
    refine startGeneration_sound ?_ (coherent.elected phase rejoined)
    rw [electLeader]
    split <;> rfl

theorem joined_of_extended (more : joinPhase.extended = some longer) : longer.joined = joinPhase.joined := by
  cases delayed : joinPhase.initialDelay with
  | none => simp [JoinPhase.extended, delayed] at more
  | some =>
    simp only [JoinPhase.extended, delayed, ite_none_right_eq_some, some.injEq] at more
    obtain ⟨_, rfl⟩ := more
    rfl

theorem Sound.ends (sound : inner.Sound) (ends : Ends due now inner next) : next.Sound := by
  induction ends with
  | refl => exact sound
  | extended phase _ more _ ih =>
    refine ih (Coherent.sound (sound.setJoinPhase _ ?_) rfl)
    rw [joined_of_extended more]
    exact sound.joined _ phase
  | completed phase _ _ ih => exact ih (sound.toCoherent.completeJoin phase)

/-! Members that join. -/

theorem mem_upsertMember {inner : Inner S} {id : String} :
    id ∈ (inner.upsertMember now memberId request metadata).members ↔ memberId = id ∨ id ∈ inner.members := by
  simp [upsertMember, raiseRebalanceTimeout, ExtTreeMap.mem_insert]

theorem Coherent.upsertMember (coherent : inner.Coherent) (protocol : inner.state.protocol.isSome = true) :
    (inner.upsertMember now memberId request metadata).Coherent :=
  ⟨fun _ _ => protocol,
    fun joinPhase phase id present => mem_upsertMember.mpr (.inr (coherent.joined joinPhase phase id present))⟩

theorem Coherent.setLeader (coherent : inner.Coherent) (leader : Option String) : (inner.setLeader leader).Coherent :=
  ⟨fun id present => by rw [protocol_isSome_setLeader]; exact coherent.protocol id present, coherent.joined⟩

theorem mem_prepareRebalance : memberId ∈ (inner.prepareRebalance now).members ↔ memberId ∈ inner.members := by
  rw [prepareRebalance]
  split
  exacts [mem_restartSessionsOfSyncedMembers, Iff.rfl]

theorem mem_ensureJoinPhase : memberId ∈ (inner.ensureJoinPhase now).members ↔ memberId ∈ inner.members := by
  rw [ensureJoinPhase]
  split
  exacts [mem_prepareRebalance, Iff.rfl]

theorem mem_enterJoinPhase :
    memberId ∈ (inner.enterJoinPhase now isEmpty delay).members ↔ memberId ∈ inner.members := by
  rw [enterJoinPhase]
  split
  · exact Iff.rfl
  · split
    exacts [Iff.rfl, mem_prepareRebalance]

theorem Sound.markJoined (sound : inner.Sound) (member : memberId ∈ inner.members) :
    (inner.markJoined memberId).Sound := by
  cases phase : inner.state.joinPhase with
  | none =>
    refine sound.congr (fun _ => Iff.rfl) ?_ rfl
    simp only [Inner.markJoined, Inner.setJoinPhase, phase, map_none]
    rw [← phase]
  | some joinPhase =>
    simp only [Inner.markJoined, phase, map_some]
    refine Coherent.sound (sound.setJoinPhase _ fun id present => ?_) rfl
    rcases ExtTreeSet.mem_insert.mp present with same | earlier
    · exact Std.compare_eq_iff_eq.mp same ▸ member
    · exact sound.joined joinPhase phase id earlier

theorem Sound.afterJoin (sound : inner.Sound) (member : memberId ∈ inner.members) :
    (inner.joined now memberId).1.Sound :=
  (sound.markJoined member).ends (.joined inner now memberId)

theorem Coherent.adoptProtocol (coherent : inner.Coherent) : (inner.adoptProtocol request protocol).Coherent ∧
      (inner.adoptProtocol request protocol).state.protocol.isSome = true := by
  rw [Inner.adoptProtocol]
  split
  next => exact ⟨⟨fun _ _ => rfl, coherent.joined⟩, rfl⟩
  next held => exact ⟨coherent, isSome_iff_ne_none.mpr (by simpa using held)⟩

theorem Coherent.seatMember (coherent : inner.Coherent) :
    (inner.seatMember now memberId request protocol).Coherent := by
  have added : ((inner.adoptProtocol request protocol).upsertMember now memberId request
      protocol.metadata).Coherent := coherent.adoptProtocol.1.upsertMember coherent.adoptProtocol.2
  simp only [Inner.seatMember]
  split
  exacts [added.setLeader _, added]

theorem mem_seatMember : memberId ∈ (inner.seatMember now memberId request protocol).members := by
  simp only [seatMember]
  split
  all_goals exact mem_upsertMember.mpr (.inl rfl)

theorem Coherent.addMember (coherent : inner.Coherent) :
    (inner.addMember now memberId request protocol delay).1.Sound := by
  exact Sound.afterJoin coherent.seatMember.enterJoinPhase (mem_enterJoinPhase.mpr mem_seatMember)

theorem Sound.updateMember (sound : inner.Sound) (member : memberId ∈ inner.members) :
    (inner.updateMember now memberId request metadata).1.Sound := by
  rw [Inner.updateMember]
  split
  · exact sound
  · exact Sound.afterJoin (Coherent.ensureJoinPhase (sound.upsertMember (sound.protocol _ member)))
      (mem_ensureJoinPhase.mpr (mem_upsertMember.mpr (.inl rfl)))

theorem mem_renameMember {inner : Inner S} {new id : String} (member : id ∈ inner.members) (other : id ≠ old) :
    id ∈ (inner.renameMember old new).members := by
  rw [renameMember]
  split
  · exact member
  · exact ExtTreeMap.mem_insert.mpr (.inr (ExtTreeMap.mem_erase.mpr
      ⟨fun same => other (Std.compare_eq_iff_eq.mp same).symm, member⟩))

theorem state_renameMember (inner : Inner S) (old new : String) : (inner.renameMember old new).state = inner.state := by
  rw [renameMember]
  split <;> rfl

theorem members_handOver {new : String} : (inner.handOver old new).members = (inner.renameMember old new).members := by
  simp only [handOver, Inner.setJoinPhase]
  split <;> rfl

theorem joinPhase_handOver {new : String} : (inner.handOver old new).state.joinPhase =
    inner.state.joinPhase.map fun joinPhase => { joinPhase with joined := joinPhase.joined.erase old } := by
  rw [← state_renameMember inner old new]
  simp only [Inner.handOver, Inner.setJoinPhase]
  split <;> rfl

theorem Sound.handOver (sound : inner.Sound) (new : String) (member : old ∈ inner.members) :
    (inner.handOver old new).Coherent ∧ (inner.handOver old new).state.protocol.isSome = true := by
  have known : (inner.handOver old new).state.protocol.isSome = true := by
    have protocol := sound.protocol old member
    rw [← state_renameMember inner old new] at protocol
    simp only [Inner.handOver, Inner.setJoinPhase]
    split
    · rw [protocol_isSome_setLeader]
      exact protocol
    · exact protocol
  refine ⟨⟨fun _ _ => known, fun left phase id present => ?_⟩, known⟩
  rw [joinPhase_handOver] at phase
  obtain ⟨joinPhase, before, rfl⟩ := map_eq_some_iff.mp phase
  obtain ⟨other, joined⟩ := ExtTreeSet.mem_erase.mp present
  rw [members_handOver]
  exact mem_renameMember (sound.joined joinPhase before id joined)
    fun same => other (Std.compare_eq_iff_eq.mpr same.symm)

theorem Sound.replaceStaticMember (sound : inner.Sound) {new : String} (member : old ∈ inner.members) :
    (inner.replaceStaticMember now old new request metadata).1.Sound := by
  obtain ⟨coherent, protocol⟩ := sound.handOver new member
  exact Sound.afterJoin (Coherent.ensureJoinPhase (coherent.upsertMember protocol))
    (mem_ensureJoinPhase.mpr (mem_upsertMember.mpr (.inl rfl)))

theorem mem_of_staticMemberId {inner : Inner S} (found : inner.staticMemberId groupInstanceId = some memberId) :
    memberId ∈ inner.members := by
  obtain ⟨⟨id, _⟩, listed, holds⟩ := List.exists_of_findSome?_eq_some found
  obtain ⟨_, rfl⟩ : _ ∧ id = memberId := by simpa using holds
  rw [ExtTreeMap.mem_iff_isSome_getElem?, ExtTreeMap.mem_toList_iff_getElem?_eq_some.mp listed]
  rfl

theorem mem_of_validateMember {inner : Inner S} (valid : inner.validateMember memberId groupInstanceId = .ok ()) :
    memberId ∈ inner.members := by
  have known : ∀ {errorCode : ErrorCode},
      (if inner.members.contains memberId then .ok () else .error errorCode : Except ErrorCode Unit) = .ok () →
      memberId ∈ inner.members := by
    intro errorCode result
    split at result
    next present => exact ExtTreeMap.contains_iff_mem.mp present
    next => cases result
  simp only [validateMember] at valid
  split at valid
  · exact known valid
  · split at valid
    · cases valid
    · split at valid
      · cases valid
      · exact known valid

/-! Members that are removed. -/

theorem forgetRemovedMembers_coherent
    (protocol : ∀ id ∈ inner.members, inner.state.protocol.isSome = true) :
    inner.forgetRemovedMembers.Coherent := by
  refine ⟨fun id present => ?_, fun joinPhase phase id present => ?_⟩
  · rw [members_forgetRemovedMembers] at present
    have held := protocol id present
    simp only [forgetRemovedMembers, Inner.setJoinPhase]
    split
    · rw [protocol_isSome_setLeader]
      exact held
    · exact held
  · rw [members_forgetRemovedMembers]
    obtain ⟨_, _, rfl⟩ := map_eq_some_iff.mp phase
    have kept := ExtTreeMap.contains_iff_mem.mp (OrderedMap.mem_filter_set_iff.mp present).2
    split at kept
    · exact kept
    · exact kept

theorem Sound.rests (sound : inner.Sound) (rests : inner.Rests next) : next.Sound := by
  cases rests with
  | contacts => exact sound.congr (fun _ => ExtTreeMap.mem_modify) rfl rfl
  | forgets => exact sound.congr (fun _ => Iff.rfl) rfl rfl
  | synced _ ended =>
    refine ⟨⟨sound.protocol, sound.joined⟩, fun phase filled => ?_⟩
    -- A group that waits for its leader's assignment has a member that must still sync.
    obtain ⟨leader, pendingSync, _, member, awaited, unsynced⟩ := sound.completing phase filled
    exact absurd member (ended pendingSync awaited leader unsynced)

theorem Sound.removal (sound : inner.Sound) (removal : inner.Removal next) :
    next.forgetRemovedMembers.Coherent := by
  refine forgetRemovedMembers_coherent fun id present => ?_
  rw [removal.state]
  exact sound.protocol id (removal.mem present)

theorem intoPreparingRebalance_sound (inner : Inner Formed) (now : SystemTime) :
    (inner.intoPreparingRebalance now).Sound :=
  Coherent.startJoinPhase ⟨fun _ _ => rfl, nofun⟩

theorem NewMember.of_replacing {inner : Inner S} {new : String}
    (replacing : NewMember.of uuid request (request.groupInstanceId.bind inner.staticMemberId) =
      .replacing old new) : old ∈ inner.members := by
  simp only [NewMember.of] at replacing
  split at replacing
  next given =>
    rw [given] at replacing
    split at replacing
    next found =>
      obtain ⟨rfl, _⟩ := NewMember.replacing.inj replacing
      exact mem_of_staticMemberId found
    next => cases replacing
  next => split at replacing <;> cases replacing

theorem Sound.joinForming (sound : inner.Sound) : (inner.joinForming now uuid request delay).1.Sound := by
  rw [Inner.joinForming]
  split
  · exact sound
  · split
    · split
      next => exact sound.congr (fun _ => Iff.rfl) rfl rfl
      next => exact sound.toCoherent.addMember
      next replacing => exact sound.replaceStaticMember (NewMember.of_replacing replacing)
    · split
      · have forgot : (inner.forgetPending request.memberId).Sound := sound.congr (fun _ => Iff.rfl) rfl rfl
        exact forgot.toCoherent.addMember
      · split
        next => exact sound
        next valid =>
          split
          exacts [sound, sound.updateMember (mem_of_validateMember valid)]

theorem Sound.forgetPendingSync (sound : inner.Sound) (phase : inner.state.joinPhase = none)
    (member : memberId ∈ inner.members) (led : inner.state.leader = some leader) (follower : leader ≠ memberId) :
    (inner.forgetPendingSync [memberId]).Sound := by
  refine ⟨⟨sound.protocol, sound.joined⟩, fun _ _ => ?_⟩
  obtain ⟨_, pendingSync, same, leads, awaited, unsynced⟩ :=
    sound.completing phase (OrderedMap.isEmpty_eq_false member)
  obtain rfl := some.inj (led.symm.trans same)
  have stays : leader ∈ pendingSync.members.erase memberId :=
    ExtTreeSet.mem_erase.mpr ⟨fun equal => follower (Std.compare_eq_iff_eq.mp equal).symm, unsynced⟩
  have filled : (pendingSync.members.erase memberId).isEmpty = false := by
    refine Bool.eq_false_iff.mpr fun empty => ?_
    rw [ExtTreeSet.isEmpty_iff.mp empty] at stays
    exact ExtTreeSet.not_mem_empty stays
  refine ⟨leader, { pendingSync with members := pendingSync.members.erase memberId }, led, leads, ?_, stays⟩
  simp only [Inner.forgetPendingSync, awaited, bind_some, List.foldl_cons, List.foldl_nil, filled,
    Bool.false_eq_true, if_false]

end Inner

def Wrapper.Sound : Wrapper → Prop
  | .forming inner => inner.Sound
  | .formed _ => True

namespace Inner

theorem Sound.syncForming {inner : Inner Forming} (sound : inner.Sound) {now : SystemTime} :
    (inner.syncForming now request).1.Sound := by
  simp only [Inner.syncForming]
  split
  next => exact sound
  next valid =>
    have member := mem_of_validateMember valid
    split
    · exact sound
    · split
      · exact sound
      · split
        next => exact sound
        next idle =>
          have phase : inner.state.joinPhase = none := by simpa using idle
          split
          next leader protocol =>
            split
            next follower =>
              have led : inner.state.leader = some leader := by
                rw [Forming.leader]
                exact protocol ▸ rfl
              exact sound.forgetPendingSync phase member led follower
            next => trivial
          next leaderless =>
            -- A group that waits for its leader's assignment has a leader.
            obtain ⟨leader, _, led, _⟩ := sound.completing phase (OrderedMap.isEmpty_eq_false member)
            obtain ⟨⟨protocolType, protocolName, _⟩, protocol, rfl⟩ := bind_eq_some_iff.mp led
            exact absurd protocol (leaderless protocolType protocolName leader)

theorem joinFormed_sound (inner : Inner Formed) (now : SystemTime) (uuid : String) (request : JoinRequest)
    (delay : Duration) : (inner.joinFormed now uuid request delay).1.Sound := by
  have preparing : ∀ inner : Inner Formed, (inner.intoPreparingRebalance now).Sound :=
    fun inner => inner.intoPreparingRebalance_sound now
  rw [joinFormed]
  split
  · trivial
  · split
    · split
      exacts [trivial, (preparing inner).toCoherent.addMember, trivial]
    · split
      · exact (preparing _).toCoherent.addMember
      · split
        next => trivial
        next valid =>
          split
          · trivial
          · exact (preparing inner).updateMember (mem_of_validateMember valid)

end Inner

namespace Wrapper

variable {group : Wrapper} {now : SystemTime}

theorem sound_new (inception : SystemTime) : (new inception).Sound :=
  ⟨⟨fun _ present => absurd present ExtTreeMap.not_mem_empty, nofun⟩,
    fun _ filled => by cases filled⟩

theorem Sound.passes {next : Wrapper} (sound : group.Sound) (passes : Passes due now group next) : next.Sound := by
  cases passes with
  | rests rests ends => exact (Inner.Sound.rests sound rests).ends ends
  | restsFormed => trivial
  | removes removal phase _ ends =>
    exact ((Inner.Sound.removal sound removal).sound (removal.joinPhase_isSome.trans phase)).ends ends
  | rebalances removal _ ends => exact (Inner.Sound.removal sound removal).prepareRebalance.ends ends
  | idles removal _ empty =>
    refine ⟨Inner.Sound.removal sound removal, fun _ filled => ?_⟩
    obtain ⟨id, present⟩ := OrderedMap.exists_mem filled
    rw [Inner.members_forgetRemovedMembers] at present
    exact absurd (removal.mem present) (OrderedMap.isEmpty_iff_forall_not_mem.mp empty id)
  | reopens _ ends => exact (Inner.intoPreparingRebalance_sound _ now).ends ends

theorem Sound.join (sound : group.Sound) {request : JoinRequest} : (group.join now uuid request delay).1.Sound := by
  cases group with
  | forming => exact Inner.Sound.joinForming sound
  | formed inner => exact inner.joinFormed_sound now uuid request delay

theorem Sound.sync (sound : group.Sound) : (group.sync now request).1.Sound := by
  cases group with
  | forming => exact Inner.Sound.syncForming sound
  | formed => trivial

end Wrapper

end Nisshi.Coordinator
