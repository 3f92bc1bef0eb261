import Nisshi.Coordinator.Wrapper
import Nisshi.Lib.OrderedMap

/-! What a call that brings no member makes of a group. Either nobody is removed, or some members are and the
group rebalances; and a join phase goes on until everyone has joined or it is over. -/

namespace Nisshi.Coordinator

open Nisshi.SansIo Nisshi.Storage Nisshi.Lib Option Function
open Std (ExtTreeMap ExtTreeSet)

namespace Inner

section

variable {S : Type} {inner during next : Inner S}

/-- Some of the members and of the pending member ids are left, as they were. -/
inductive Removal (inner : Inner S) : Inner S → Prop
  | mk {members : ExtTreeMap String Member} {pendingMembers : ExtTreeMap String SystemTime}
      {pendingSync : Option PendingSync}
      (left : ∀ (id : String) (member : Member), members[id]? = some member → inner.members[id]? = some member)
      (pending : ∀ id ∈ pendingMembers, id ∈ inner.pendingMembers)
      (unsynced : inner.pendingSync = none → pendingSync = none) :
      Removal inner { inner with members, pendingMembers, pendingSync }

inductive Rests (inner : Inner S) : Inner S → Prop
  | contacts (now : SystemTime) (memberId : String) : Rests inner (inner.contact now memberId)
  | forgets {pendingMembers : ExtTreeMap String SystemTime}
      (pending : ∀ id ∈ pendingMembers, id ∈ inner.pendingMembers) : Rests inner { inner with pendingMembers }
  /-- The sync deadline has passed, and no member had to sync. -/
  | synced {pendingMembers : ExtTreeMap String SystemTime}
      (pending : ∀ id ∈ pendingMembers, id ∈ inner.pendingMembers)
      (ended : ∀ pendingSync, inner.pendingSync = some pendingSync → ∀ id ∈ pendingSync.members, id ∉ inner.members) :
      Rests inner { inner with pendingMembers, pendingSync := none }

theorem Rests.refl : inner.Rests inner :=
  .forgets fun _ present => present

theorem Rests.state (rests : inner.Rests next) : next.state = inner.state := by
  cases rests <;> rfl

theorem Rests.spec (rests : inner.Rests next) : next.generationId = inner.generationId ∧
    ∀ id, id ∈ next.members ↔ id ∈ inner.members := by
  cases rests with
  | contacts => exact ⟨rfl, fun _ => ExtTreeMap.mem_modify⟩
  | forgets | synced => exact ⟨rfl, fun _ => Iff.rfl⟩

namespace Removal

theorem refl : inner.Removal inner :=
  .mk (fun _ _ found => found) (fun _ present => present) id

theorem trans (first : inner.Removal during) (second : during.Removal next) : inner.Removal next := by
  cases first with
  | mk left pending unsynced =>
    cases second with
    | mk later fewer synced =>
      exact .mk (fun id member found => left id member (later id member found))
        (fun id present => pending id (fewer id present)) fun none => synced (unsynced none)

theorem mem (removal : inner.Removal next) {id : String} (present : id ∈ next.members) : id ∈ inner.members := by
  cases removal with
  | mk left =>
    rw [ExtTreeMap.mem_iff_isSome_getElem?, left id _ (ExtTreeMap.getElem?_eq_some_getElem present)]
    rfl

theorem state (removal : inner.Removal next) : next.state = inner.state := by
  cases removal
  rfl

theorem of_filter {pendingSync : Option PendingSync} (unsynced : inner.pendingSync = none → pendingSync = none) :
    inner.Removal { inner with members := inner.members.filter keep, pendingSync } :=
  .mk (fun _ _ found => OrderedMap.getElem?_of_filter found) (fun _ present => present) unsynced

theorem forgetPendingMembers (inner : Inner S) (now : SystemTime) : inner.Removal (inner.forgetPendingMembers now).1 :=
  .mk (fun _ _ found => found) (fun _ present => ExtTreeMap.mem_of_mem_filter present) id

theorem removeMembersPendingSync (inner : Inner S) (now : SystemTime) :
    inner.Removal (inner.removeMembersPendingSync now).1 := by
  rw [Inner.removeMembersPendingSync]
  split
  · split
    exacts [of_filter fun _ => rfl, refl]
  · exact refl

theorem removeLeaving (inner : Inner S) (memberId : String) (groupInstanceId : Option String) :
    inner.Removal (inner.removeLeaving memberId groupInstanceId).1 := by
  rw [Inner.removeLeaving]
  split
  · exact .mk (fun _ _ found => found) (fun _ present => ExtTreeMap.mem_of_mem_erase present) id
  · split
    next =>
      refine .mk (fun id member found => ?_) (fun _ present => present) fun none => ?_
      · rw [ExtTreeMap.getElem?_erase] at found
        split at found
        · cases found
        · exact found
      · rw [none, bind_none]
    next => exact refl

theorem removeEachLeaving (inner : Inner S) (members : List MemberIdentity) :
    inner.Removal (inner.removeEachLeaving members).1 := by
  induction members generalizing inner with
  | nil => exact refl
  | cons _ _ ih => exact (removeLeaving inner _ _).trans (ih _)

end Removal

theorem removeExpiredMembers_eq_self {isWaiting : String → Bool}
    (kept : (inner.removeExpiredMembers now isWaiting).2 = false) :
    (inner.removeExpiredMembers now isWaiting).1 = inner := by
  simp only [removeExpiredMembers, decide_eq_false_iff_not] at kept ⊢
  rw [OrderedMap.filter_eq_self kept]

theorem rests_forgetPendingMembers (inner : Inner S) (now : SystemTime) :
    inner.Rests (inner.forgetPendingMembers now).1 :=
  .forgets fun _ present => ExtTreeMap.mem_of_mem_filter present

theorem rests_removeMembersPendingSync (inner : Inner S)
    (kept : ((inner.forgetPendingMembers now).1.removeMembersPendingSync now).2 = false) :
    inner.Rests ((inner.forgetPendingMembers now).1.removeMembersPendingSync now).1 := by
  have forgets := inner.rests_forgetPendingMembers now
  rw [removeMembersPendingSync] at kept ⊢
  split
  next awaited =>
    simp only [awaited] at kept
    split
    next due =>
      rw [if_pos due, decide_eq_false_iff_not] at kept
      rw [OrderedMap.filter_eq_self kept]
      refine .synced (fun _ present => ExtTreeMap.mem_of_mem_filter present) fun other held id present member => ?_
      obtain rfl := some.inj (held.symm.trans awaited)
      refine kept (OrderedMap.size_filter_lt member fun stays => ?_)
      obtain ⟨_, _, outside⟩ := OrderedMap.mem_filter_iff.mp stays
      rw [ExtTreeSet.contains_iff_mem.mpr present] at outside
      cases outside
    next => exact forgets
  next => exact forgets

theorem rests_offsetCommitFence (inner : Inner S) (now : SystemTime) (detail : OffsetCommit)
    (completing : Bool) : inner.Rests (inner.offsetCommitFence now detail completing).1 := by
  have contacts : inner.Rests (inner.contact now (detail.memberId.getD "")) := .contacts now _
  simp only [offsetCommitFence]
  repeat' split
  all_goals first | exact .refl | exact contacts

theorem removeLeaving_of_none {memberId : String}
    (nobody : (inner.removeLeaving memberId groupInstanceId).2.2 = false) :
    (inner.removeLeaving memberId groupInstanceId).1 = inner := by
  rw [removeLeaving] at nobody ⊢
  split
  next leaves => rw [if_pos leaves] at nobody; cases nobody
  next stays =>
    rw [if_neg stays] at nobody
    split at nobody
    · cases nobody
    · rfl

theorem removeEachLeaving_of_none (inner : Inner S) (members : List MemberIdentity)
    (nobody : (inner.removeEachLeaving members).2.2 = false) : (inner.removeEachLeaving members).1 = inner := by
  induction members generalizing inner with
  | nil => rfl
  | cons _ _ ih =>
    obtain ⟨first, rest⟩ := Bool.or_eq_false_iff.mp nobody
    exact (ih _ rest).trans (removeLeaving_of_none first)

end

section

variable {inner next kept : Inner Forming} {due : Bool} {now : SystemTime}

/-- What comes of a join phase: it is extended, or completed because everyone has joined or it is over. Only a
call with `due` looks at the deadline. -/
inductive Ends (due : Bool) (now : SystemTime) : Inner Forming → Inner Forming → Prop
  | refl {inner : Inner Forming} : Ends due now inner inner
  | extended {inner next : Inner Forming} {joinPhase longer : JoinPhase}
      (phase : inner.state.joinPhase = some joinPhase) (late : due = true ∧ joinPhase.deadline ≤ now)
      (more : joinPhase.extended = some longer) (rest : Ends due now (inner.setJoinPhase (some longer)) next) :
      Ends due now inner next
  | completed {inner next : Inner Forming} {joinPhase : JoinPhase}
      (phase : inner.state.joinPhase = some joinPhase)
      (late : inner.allMembersJoined = true ∨ due = true ∧ joinPhase.deadline ≤ now)
      (rest : Ends due now (inner.completeJoin now) next) : Ends due now inner next

namespace Ends

theorem of_completeJoinIfAllJoined (rest : Ends due now (inner.completeJoinIfAllJoined now) next) :
    Ends due now inner next := by
  rw [Inner.completeJoinIfAllJoined] at rest
  split at rest
  next all =>
    cases phase : inner.state.joinPhase with
    | none => simp [allMembersJoined, phase] at all
    | some => exact .completed phase (.inl all) rest
  next => exact rest

theorem completeJoinIfAllJoined : Ends due now inner (inner.completeJoinIfAllJoined now) :=
  of_completeJoinIfAllJoined .refl

theorem completeJoinIfAllJoinedAfterJoin : Ends due now inner (inner.completeJoinIfAllJoinedAfterJoin now) := by
  rw [Inner.completeJoinIfAllJoinedAfterJoin]
  split
  exacts [completeJoinIfAllJoined, .refl]

theorem joined (inner : Inner Forming) (now : SystemTime) (memberId : String) :
    Ends false now (inner.markJoined memberId) (inner.joined now memberId).1 :=
  completeJoinIfAllJoinedAfterJoin

theorem endJoinPhaseAfterDeadline (inner : Inner Forming) (now : SystemTime) :
    Ends true now inner (inner.endJoinPhaseAfterDeadline now) := by
  fun_induction Inner.endJoinPhaseAfterDeadline inner now with
  | case1 => exact .refl
  | case2 _ _ phase late _ more ih => exact .extended phase ⟨rfl, late⟩ more ih
  | case3 _ _ phase late _ ih => exact .completed phase (.inr ⟨rfl, late⟩) ih
  | case4 => exact .refl

theorem eq_of_none (ends : Ends due now inner next) (none : inner.state.joinPhase = none) : next = inner := by
  cases ends with
  | refl => rfl
  | extended phase | completed phase => rw [none] at phase; cases phase

end Ends

theorem members_forgetRemovedMembers : inner.forgetRemovedMembers.members = inner.members := by
  simp only [forgetRemovedMembers, Inner.setJoinPhase]
  split <;> rfl

theorem joinPhase_forgetRemovedMembers : inner.forgetRemovedMembers.state.joinPhase =
    inner.state.joinPhase.map fun joinPhase => { joinPhase with
      joined := joinPhase.joined.filter fun memberId => inner.members.contains memberId } := by
  simp only [forgetRemovedMembers, Inner.setJoinPhase]
  split <;> rfl

theorem Removal.joinPhase_isSome (removal : inner.Removal kept) :
    kept.forgetRemovedMembers.state.joinPhase.isSome = inner.state.joinPhase.isSome := by
  rw [joinPhase_forgetRemovedMembers, isSome_map, removal.state]

theorem pendingSync_forgetRemovedMembers : inner.forgetRemovedMembers.pendingSync =
    inner.pendingSync.map fun pendingSync => { pendingSync with
      members := pendingSync.members.filter fun memberId => inner.members.contains memberId } := by
  simp only [forgetRemovedMembers, Inner.setJoinPhase]
  split <;> rfl

theorem protocol_isSome_of_leader (led : inner.state.leader = some leader) : inner.state.protocol.isSome = true := by
  obtain ⟨_, held, _⟩ := bind_eq_some_iff.mp led
  rw [held]
  rfl

theorem leader_setLeader (protocol : inner.state.protocol.isSome = true) (leader : Option String) :
    (inner.setLeader leader).state.leader = leader := by
  obtain ⟨_, held⟩ := isSome_iff_exists.mp protocol
  simp [Inner.setLeader, Forming.setLeader, Forming.leader, held]

theorem leader_forgetRemovedMembers : inner.forgetRemovedMembers.state.leader =
    if inner.state.leader.any fun leader => !inner.members.contains leader then inner.members.keys.head?
    else inner.state.leader := by
  simp only [forgetRemovedMembers, Inner.setJoinPhase]
  split
  next removed =>
    obtain ⟨_, leads, _⟩ := (any_eq_true _ _).mp removed
    exact leader_setLeader (protocol_isSome_of_leader leads) _
  next => rfl

theorem mem_of_leader_forgetRemovedMembers (leads : inner.forgetRemovedMembers.state.leader = some leader) :
    leader ∈ inner.members := by
  rw [leader_forgetRemovedMembers] at leads
  split at leads
  next => exact OrderedMap.mem_of_head? leads
  next kept =>
    rw [leads] at kept
    exact ExtTreeMap.contains_iff_mem.mp (by simpa using kept)

theorem filter_filter_self (members : ExtTreeSet String) (keep : String → Bool) :
    (members.filter keep).filter keep = members.filter keep := by
  refine ExtTreeSet.ext_mem fun id => ?_
  simp only [OrderedMap.mem_filter_set_iff, and_assoc, and_self]

theorem forgetRemovedMembers_forgetRemovedMembers (inner : Inner Forming) :
    inner.forgetRemovedMembers.forgetRemovedMembers = inner.forgetRemovedMembers := by
  have led : ¬ (inner.forgetRemovedMembers.state.leader.any fun leader =>
      !inner.forgetRemovedMembers.members.contains leader) = true := by
    intro removed
    obtain ⟨_, leads, absent⟩ := (any_eq_true _ _).mp removed
    rw [members_forgetRemovedMembers,
      ExtTreeMap.contains_iff_mem.mpr (mem_of_leader_forgetRemovedMembers leads)] at absent
    cases absent
  have phase := inner.joinPhase_forgetRemovedMembers
  have sync := inner.pendingSync_forgetRemovedMembers
  have members := inner.members_forgetRemovedMembers
  generalize inner.forgetRemovedMembers = tidy at led phase sync members ⊢
  rw [forgetRemovedMembers, if_neg led]
  obtain ⟨_, _, _, _, ⟨_, _⟩⟩ := tidy
  subst members
  simp only [Inner.setJoinPhase] at phase sync ⊢
  subst phase sync
  simp only [Option.map_map, comp_def, filter_filter_self]

theorem removeExpired_eq_self (kept : (inner.removeExpired now).2 = false) : (inner.removeExpired now).1 = inner := by
  simp only [removeExpired] at kept ⊢
  rw [kept]
  exact removeExpiredMembers_eq_self kept

/-! A join phase that begins now is not over. -/

theorem early_startJoinPhase (inner : Inner Forming) (now : SystemTime) (joinPhase : JoinPhase)
    (phase : (inner.startJoinPhase now).state.joinPhase = some joinPhase) : now < joinPhase.deadline := by
  obtain rfl : inner.rejoinPhase now = joinPhase := some.inj phase
  exact Int.lt_add_of_pos_right now (Int.natCast_pos.mpr inner.rebalanceTimeout_pos)

theorem early_prepareRebalance (inner : Inner Forming) (now : SystemTime) (joinPhase : JoinPhase)
    (phase : (inner.prepareRebalance now).state.joinPhase = some joinPhase) : now < joinPhase.deadline := by
  rw [prepareRebalance] at phase
  split at phase
  all_goals exact early_startJoinPhase _ now joinPhase phase

theorem early_completeJoin (ended : inner.state.joinPhase = some before)
    (phase : (inner.completeJoin now).state.joinPhase = some joinPhase) : now < joinPhase.deadline := by
  have none := (inner.rounds_completeJoin now).resolve_right (by rw [ended]; nofun)
  rw [rounds, phase] at none
  by_contra late
  simp only [if_pos (Int.not_lt.mp late)] at none
  split at none <;> cases none

theorem isEmpty_of_not_completing (idle : inner.isCompletingRebalance = false)
    (phase : inner.state.joinPhase = none) : inner.members.isEmpty = true := by
  simpa [isCompletingRebalance, phase] using idle

end

end Inner

namespace Wrapper

open Inner (Ends Removal)

/-- What a call that brings no member makes of a group. -/
inductive Passes (due : Bool) (now : SystemTime) : Wrapper → Wrapper → Prop
  | rests {inner during next : Inner Forming} (rests : inner.Rests during) (ends : Ends due now during next) :
      Passes due now (.forming inner) (.forming next)
  | restsFormed {inner next : Inner Formed} (rests : inner.Rests next) :
      Passes due now (.formed inner) (.formed next)
  /-- Members leave a join phase. Those that wait in it are not removed because time passes. -/
  | removes {inner kept next : Inner Forming} (removal : inner.Removal kept)
      (phase : inner.state.joinPhase.isSome = true)
      (waiting : due = true → ∀ id ∈ inner.members, inner.isWaiting id = true → id ∈ kept.members)
      (ends : Ends due now kept.forgetRemovedMembers next) : Passes due now (.forming inner) (.forming next)
  | rebalances {inner kept next : Inner Forming} (removal : inner.Removal kept)
      (phase : inner.state.joinPhase = none)
      (ends : Ends due now (kept.forgetRemovedMembers.prepareRebalance now) next) :
      Passes due now (.forming inner) (.forming next)
  | idles {inner kept : Inner Forming} (removal : inner.Removal kept) (phase : inner.state.joinPhase = none)
      (empty : inner.members.isEmpty = true) : Passes due now (.forming inner) (.forming kept.forgetRemovedMembers)
  | reopens {inner kept : Inner Formed} {next : Inner Forming} (removal : inner.Removal kept)
      (ends : Ends due now (kept.intoPreparingRebalance now) next) : Passes due now (.formed inner) (.forming next)

variable (group : Wrapper) (now : SystemTime)

theorem settle_passes : Passes true now group (group.settle now) := by
  cases group with
  | formed inner =>
    simp only [settle]
    split
    next =>
      exact .reopens ((Removal.forgetPendingMembers inner now).trans ((Removal.of_filter id).trans
        (Removal.removeMembersPendingSync _ now))) .completeJoinIfAllJoined
    next kept =>
      obtain ⟨nobody, all⟩ := Bool.or_eq_false_iff.mp (Bool.eq_false_iff.mpr kept)
      rw [Inner.removeExpiredMembers_eq_self nobody] at all ⊢
      exact .restsFormed (inner.rests_removeMembersPendingSync all)
  | forming inner =>
    have forgets := inner.rests_forgetPendingMembers now
    have forgot := Removal.forgetPendingMembers inner now
    have phases : (inner.forgetPendingMembers now).1.state.joinPhase = inner.state.joinPhase := rfl
    simp only [settle]
    cases removed : ((inner.forgetPendingMembers now).1.removeExpired now).2 with
    | false =>
      rw [Inner.removeExpired_eq_self removed, phases]
      split
      next =>
        refine .rests forgets ?_
        split
        exacts [.of_completeJoinIfAllJoined (.endJoinPhaseAfterDeadline _ now), .endJoinPhaseAfterDeadline _ now]
      next unjoined =>
        have phase : inner.state.joinPhase = none := by simpa using unjoined
        split
        next =>
          simp only [Bool.false_eq_true, if_false]
          split
          next =>
            exact .rebalances (forgot.trans (Removal.removeMembersPendingSync _ now)) phase
              .completeJoinIfAllJoined
          next all => exact .rests (inner.rests_removeMembersPendingSync (Bool.eq_false_iff.mpr all)) .refl
        next => exact .rests forgets .refl
    | true =>
      have left : inner.Removal ((inner.forgetPendingMembers now).1.removeExpiredMembers now
        (inner.forgetPendingMembers now).1.isWaiting).1 := forgot.trans (.of_filter id)
      have kept : ((inner.forgetPendingMembers now).1.removeExpired now).1 =
          ((inner.forgetPendingMembers now).1.removeExpiredMembers now
            (inner.forgetPendingMembers now).1.isWaiting).1.forgetRemovedMembers := by
        simp only [Inner.removeExpired] at removed ⊢
        rw [if_pos removed]
      rw [kept, left.joinPhase_isSome]
      split
      next phase =>
        refine .removes left phase (fun _ id member waits => ?_) ?_
        · refine OrderedMap.mem_filter_iff.mpr ⟨_, ExtTreeMap.getElem?_eq_some_getElem member, ?_⟩
          exact Bool.or_eq_true_iff.mpr (.inl waits)
        · rw [Bool.or_true]
          exact .of_completeJoinIfAllJoined (.endJoinPhaseAfterDeadline _ now)
      next unjoined =>
        have phase : inner.state.joinPhase = none := by simpa using unjoined
        split
        next =>
          simp only [if_true]
          rw [Inner.forgetRemovedMembers_forgetRemovedMembers]
          exact .rebalances left phase .completeJoinIfAllJoined
        next idle =>
          exact .idles left phase (Inner.isEmpty_of_not_completing (Bool.eq_false_iff.mpr idle) phase)

theorem leave_passes (memberId : Option String) (members : Option (List MemberIdentity)) :
    Passes false now group (group.leave now memberId members).1 := by
  cases group with
  | formed inner =>
    simp only [leave, Inner.leaveFormed]
    split
    next => exact .reopens (.removeEachLeaving inner _) .completeJoinIfAllJoined
    next nobody =>
      have same : (inner.removeLeavingMembers memberId members).1 = inner :=
        inner.removeEachLeaving_of_none _ (Bool.eq_false_iff.mpr nobody)
      rw [same]
      exact .restsFormed .refl
  | forming inner =>
    have left : inner.Removal (inner.removeLeavingMembers memberId members).1 := .removeEachLeaving inner _
    simp only [leave, Inner.leaveForming, left.joinPhase_isSome]
    split
    next =>
      split
      next phase => exact .removes left phase nofun .completeJoinIfAllJoinedAfterJoin
      next unjoined =>
        have phase : inner.state.joinPhase = none := by simpa using unjoined
        split
        next => exact .rebalances left phase .completeJoinIfAllJoined
        next idle =>
          exact .idles left phase (Inner.isEmpty_of_not_completing (Bool.eq_false_iff.mpr idle) phase)
    next nobody =>
      have same : (inner.removeLeavingMembers memberId members).1 = inner :=
        inner.removeEachLeaving_of_none _ (Bool.eq_false_iff.mpr nobody)
      rw [same]
      exact .rests .refl .refl

theorem heartbeat_passes (generationId : Int) (memberId : String) (groupInstanceId : Option String) :
    Passes false now group (group.heartbeat now generationId memberId groupInstanceId).1 := by
  cases group with
  | formed =>
    simp only [heartbeat, Inner.heartbeatFormed]
    repeat' split
    exacts [.restsFormed .refl, .restsFormed .refl, .restsFormed (.contacts now memberId)]
  | forming =>
    simp only [heartbeat, Inner.heartbeatForming]
    repeat' split
    exacts [.rests .refl .refl, .rests .refl .refl, .rests (.contacts now memberId) .refl,
      .rests (.contacts now memberId) .refl]

theorem checkOffsetCommit_passes (detail : OffsetCommit) :
    Passes false now group (group.checkOffsetCommit now detail).1 := by
  cases group with
  | formed inner => exact .restsFormed (inner.rests_offsetCommitFence now detail _)
  | forming inner => exact .rests (inner.rests_offsetCommitFence now detail _) .refl

end Wrapper

end Nisshi.Coordinator
