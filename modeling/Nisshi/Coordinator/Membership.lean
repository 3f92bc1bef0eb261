import Nisshi.Coordinator.Roster

/-! The member ids of a group. Each was made for one request, so a member that was removed stays out, and
its requests are refused. -/

namespace Nisshi.Coordinator

open Nisshi.SansIo Nisshi.Storage Nisshi.Lib List Option Function
open Std (ExtTreeMap)

namespace Roster

/-- The member ids of a group are among those that were made, and no member id is in two places. -/
structure Accounted (roster : Roster) (issued : List String) (removed : String → Prop) : Prop where
  keyed : ∀ memberId response, roster.response memberId = some response → response.memberId = memberId
  member : ∀ memberId ∈ roster.members, memberId ∈ issued
  pending : ∀ memberId ∈ roster.pendingMembers, memberId ∈ issued ∧ memberId ∉ roster.members
  removed : ∀ memberId, removed memberId →
    memberId ∈ issued ∧ memberId ∉ roster.members ∧ memberId ∉ roster.pendingMembers

variable {before during after : Roster} {issued later : List String} {removed : String → Prop}
  {uuid : String} {request : JoinRequest} {offered : JoinGroupRequestProtocol}

theorem Accounted.dwindles (accounted : before.Accounted issued removed) (dwindles : before.Dwindles after) :
    after.Accounted issued removed where
  keyed := fun memberId response held => accounted.keyed memberId response
    (dwindles.response memberId response held)
  member := fun memberId present => accounted.member memberId (dwindles.mem present)
  pending := fun memberId present =>
    have ⟨made, absent⟩ := accounted.pending memberId (dwindles.pending memberId present)
    ⟨made, fun member => absent (dwindles.mem member)⟩
  removed := fun memberId gone =>
    have ⟨made, absent, forgotten⟩ := accounted.removed memberId gone
    ⟨made, fun member => absent (dwindles.mem member), fun pending => forgotten (dwindles.pending memberId pending)⟩

theorem Accounted.grow (accounted : before.Accounted issued removed) (more : ∀ id ∈ issued, id ∈ later) :
    before.Accounted later removed where
  keyed := accounted.keyed
  member := fun memberId present => more memberId (accounted.member memberId present)
  pending := fun memberId present => (accounted.pending memberId present).imp_left (more memberId)
  removed := fun memberId gone => (accounted.removed memberId gone).imp_left (more memberId)

variable {memberId : String} {response : JoinGroupResponseMember}

theorem mem_update {id : String} (same : after.response = Function.update before.response memberId (some response)) :
    id ∈ after.members ↔ id = memberId ∨ id ∈ before.members := by
  rw [← isSome_response, ← isSome_response, same]
  by_cases equal : id = memberId
  · simp [equal]
  · simp [equal]

theorem Accounted.place (accounted : before.Accounted issued removed)
    (keyed : ∀ id found, after.response id = some found → found.memberId = id)
    (members : ∀ id ∈ after.members, id = memberId ∨ id ∈ before.members) (made : memberId ∈ issued)
    (apart : memberId ∉ after.pendingMembers) (stays : ¬ removed memberId)
    (pending : ∀ id ∈ after.pendingMembers, id ∈ before.pendingMembers) : after.Accounted issued removed where
  keyed := keyed
  member := fun id present => by
    rcases members id present with rfl | earlier
    exacts [made, accounted.member id earlier]
  pending := fun id present => by
    obtain ⟨known, absent⟩ := accounted.pending id (pending id present)
    refine ⟨known, fun member => ?_⟩
    rcases members id member with rfl | earlier
    exacts [apart present, absent earlier]
  removed := fun id gone => by
    obtain ⟨known, absent, forgotten⟩ := accounted.removed id gone
    refine ⟨known, fun member => ?_, fun present => forgotten (pending id present)⟩
    rcases members id member with rfl | earlier
    exacts [stays gone, absent earlier]

theorem Accounted.upsert (accounted : before.Accounted issued removed)
    (response : after.response = Function.update before.response memberId
      (some (before.upserted request offered memberId))) (made : memberId ∈ issued)
    (apart : memberId ∉ after.pendingMembers) (stays : ¬ removed memberId)
    (pending : ∀ id ∈ after.pendingMembers, id ∈ before.pendingMembers) : after.Accounted issued removed := by
  refine accounted.place (fun id found held => ?_) (fun id => (mem_update response).mp) made apart stays pending
  rw [response, update_apply] at held
  split at held
  next same =>
    obtain rfl := some.inj held
    rw [same, upserted]
    cases earlier : before.response memberId with
    | none => rfl
    | some before => exact accounted.keyed memberId before earlier
  next => exact accounted.keyed id found held

theorem mem_rename {id : String}
    (same : after.response = Function.update (Function.update before.response old none) new (some response)) :
    id ∈ after.members ↔ id = new ∨ id ≠ old ∧ id ∈ before.members := by
  rw [← isSome_response, ← isSome_response, same, update_apply]
  by_cases renamed : id = new
  · simp [renamed]
  · by_cases equal : id = old
    · simp [equal]
    · simp [renamed, equal]

theorem Accounted.rename (accounted : before.Accounted issued removed)
    (same : after.response = Function.update (Function.update before.response old none) new (some response))
    (key : response.memberId = new) (made : new ∈ issued) (fresh : new ∉ before.pendingMembers)
    (stays : ¬ removed new) (pending : after.pendingMembers = before.pendingMembers) :
    after.Accounted issued removed := by
  refine accounted.place (fun id found held => ?_) (fun id member => ((mem_rename same).mp member).imp_right And.right)
    made (pending ▸ fresh) stays (pending ▸ fun _ => id)
  rw [same, update_apply, update_apply] at held
  split at held
  next renamed =>
    obtain rfl := some.inj held
    rw [renamed, key]
  next =>
    split at held
    · cases held
    · exact accounted.keyed id found held

theorem Joins.pending_of_mem (joins : before.Joins uuid request offered after)
    (present : memberId ∈ after.pendingMembers) :
    memberId ∈ before.pendingMembers ∨ request.memberId = "" ∧ memberId = request.madeMemberId uuid := by
  cases joins with
  | issued unnamed _ _ pending => exact ((pending memberId).mp present).symm.imp_right (⟨unnamed, ·⟩)
  | added _ _ _ pending | rejoined _ _ pending | replaced _ _ _ _ _ pending => exact .inl (pending ▸ present)
  | pending _ _ pending =>
    rw [pending] at present
    exact .inl (ExtTreeMap.mem_of_mem_erase present)

theorem Accounted.joins (accounted : before.Accounted issued removed) (joins : before.Joins uuid request offered after)
    (fresh : request.memberId = "" → request.madeMemberId uuid ∉ issued)
    (more : ∀ id ∈ issued, id ∈ later)
    (made : request.memberId = "" → request.madeMemberId uuid ∈ later) : after.Accounted later removed := by
  -- A member id that was just made is nowhere in the group.
  have nowhere : request.memberId = "" → request.madeMemberId uuid ∉ before.pendingMembers ∧
      ¬ removed (request.madeMemberId uuid) := fun unnamed =>
    ⟨fun present => fresh unnamed (accounted.pending _ present).1,
      fun gone => fresh unnamed (accounted.removed _ gone).1⟩
  have grown := accounted.grow more
  cases joins with
  | issued unnamed _ response pending =>
    have members : ∀ id, id ∈ after.members ↔ id ∈ before.members := fun id => by
      rw [← isSome_response, ← isSome_response, response]
    refine ⟨response ▸ grown.keyed, fun id present => grown.member id ((members id).mp present),
      fun id present => ?_, fun id gone => ?_⟩
    · rw [members]
      rcases (pending id).mp present with rfl | earlier
      · exact ⟨made unnamed, fun member => fresh unnamed (accounted.member _ member)⟩
      · exact grown.pending id earlier
    · obtain ⟨known, absent, forgotten⟩ := grown.removed id gone
      refine ⟨known, (members id).not.mpr absent, fun present => ?_⟩
      rcases (pending id).mp present with rfl | earlier
      exacts [(nowhere unnamed).2 gone, forgotten earlier]
  | added unnamed _ response pending =>
    exact grown.upsert response (made unnamed) (pending ▸ (nowhere unnamed).1) (nowhere unnamed).2
      fun _ present => pending ▸ present
  | pending issued response pending =>
    refine grown.upsert response (grown.pending _ issued).1 ?_ ?_ fun id present => ?_
    · rw [pending]
      exact fun present => (ExtTreeMap.mem_erase.mp present).1 (Std.compare_eq_iff_eq.mpr rfl)
    · exact fun gone => (accounted.removed _ gone).2.2 issued
    · rw [pending] at present
      exact ExtTreeMap.mem_of_mem_erase present
  | rejoined member response pending =>
    refine grown.upsert response (grown.member _ member) ?_ ?_ fun _ present => pending ▸ present
    · rw [pending]
      exact fun present => (accounted.pending _ present).2 member
    · exact fun gone => (accounted.removed _ gone).2.1 member
  | replaced unnamed _ _ _ response pending =>
    exact grown.rename response rfl (made unnamed) (nowhere unnamed).1 (nowhere unnamed).2 pending

theorem Accounted.gone (accounted : after.Accounted later removed) (earlier : before.Accounted issued removed)
    (more : ∀ id ∈ issued, id ∈ later)
    (pending : ∀ id ∈ after.pendingMembers, id ∈ before.pendingMembers ∨ id ∉ issued) :
    after.Accounted later fun id => removed id ∨ id ∈ before.members ∧ id ∉ after.members :=
  { accounted with
    removed := by
      rintro id (gone | ⟨member, absent⟩)
      · exact accounted.removed id gone
      · refine ⟨more id (earlier.member id member), absent, fun present => ?_⟩
        rcases pending id present with before | fresh
        exacts [(earlier.pending id before).2 member, fresh (earlier.member id member)] }

end Roster

namespace History

variable {history : History}

def Removed (history : History) (memberId : String) : Prop :=
  ∃ event ∈ history.events, memberId ∈ event.before.members ∧ memberId ∉ event.after.members

def Accounted (history : History) : Prop :=
  history.group.roster.Accounted history.issued history.Removed

theorem removed_next {now : SystemTime} : (history.next now call).Removed = fun memberId =>
    history.Removed memberId ∨ memberId ∈ history.group.members ∧ memberId ∉ (history.next now call).group.members := by
  funext memberId
  simp [Removed, next, or_comm]

theorem issued_next {now : SystemTime} : (history.next now call).issued = call.made.toList ++ history.issued := by
  cases made : call.made <;> simp [issued, next, made]

theorem Accounted.next (accounted : history.Accounted) (now : SystemTime) (call : Call)
    (fresh : ∀ memberId ∈ call.made, memberId ∉ history.issued) : (history.next now call).Accounted := by
  have more : ∀ id ∈ history.issued, id ∈ (history.next now call).issued := fun id known => by
    rw [issued_next]
    exact mem_append_right _ known
  rw [Accounted, removed_next]
  rcases history.group.call_roster now call with dwindles | ⟨uuid, request, delay, rfl, receives⟩
  · exact (Roster.Accounted.dwindles accounted dwindles).grow more |>.gone accounted more
      fun id present => .inl (dwindles.pending id present)
  · rcases receives with same | ⟨_, arrived, _, joins, dwindles⟩
    · have kept : history.group.roster.Dwindles (history.next now (.join uuid request delay)).group.roster :=
        same ▸ .refl
      exact (Roster.Accounted.dwindles accounted kept).grow more |>.gone accounted more
        fun id present => .inl (kept.pending id present)
    · have made : request.memberId = "" → request.madeMemberId uuid ∈ (Call.join uuid request delay).made :=
        fun unnamed => by simp [Call.made, unnamed]
      have arrives : arrived.Accounted _ _ := Roster.Accounted.joins accounted joins
        (fun unnamed => fresh _ (made unnamed)) more fun unnamed => by
          rw [issued_next]
          exact mem_append_left _ (mem_toList.mpr (made unnamed))
      refine (arrives.dwindles dwindles).gone accounted more fun id present => ?_
      exact (joins.pending_of_mem (dwindles.pending id present)).imp_right fun ⟨unnamed, same⟩ =>
        same ▸ fresh _ (made unnamed)

theorem accounted_of_reachable (reached : machine.Reachable history) : history.Accounted := by
  apply reached.invariant
  · rintro _ ⟨_, rfl⟩
    exact ⟨nofun, fun _ present => absurd present ExtTreeMap.not_mem_empty,
      fun _ present => absurd present ExtTreeMap.not_mem_empty, by rintro _ ⟨_, ⟨⟩, _⟩⟩
  · rintro _ _ _ accounted ⟨fresh⟩
    exact accounted.next _ _ fresh

end History

def refusals : List ErrorCode :=
  [.unknownMemberId, .fencedInstanceId, .illegalGeneration]

namespace Inner

variable {S : Type} {inner : Inner S} {now : SystemTime} {memberId : String} {groupInstanceId : Option String}

theorem mem_refusals_of_validateMember (refused : inner.validateMember memberId groupInstanceId = .error errorCode) :
    errorCode ∈ refusals := by
  simp only [validateMember] at refused
  repeat' split at refused
  all_goals cases refused
  all_goals decide

theorem refused_of_stale {α : Type} {generationId : Int}
    (stale : memberId ∉ inner.members ∨ generationId ≠ inner.generationId) (refuse : ErrorCode → α) (pass : α) :
    ∃ errorCode ∈ refusals, (match inner.validateMember memberId groupInstanceId with
      | .error errorCode => refuse errorCode
      | .ok () => if generationId ≠ inner.generationId then refuse .illegalGeneration else pass) =
      refuse errorCode := by
  cases result : inner.validateMember memberId groupInstanceId with
  | error errorCode => exact ⟨errorCode, mem_refusals_of_validateMember result, rfl⟩
  | ok valid =>
    have other := stale.resolve_left (not_not_intro (mem_of_validateMember result))
    exact ⟨.illegalGeneration, by decide, if_pos other⟩

/-- A commit that names another member or another generation passes only without a generation, in a group
without members. -/
theorem offsetCommitFence_of_stale (inner : Inner S) (now : SystemTime) (detail : OffsetCommit)
    (completing : Bool) (stale : detail.memberId.getD "" ∉ inner.members ∨
      detail.generationIdOrMemberEpoch.getD (-1) ≠ inner.generationId) :
    (detail.generationIdOrMemberEpoch.getD (-1) < 0 ∧ inner.members.isEmpty = true) ∧
      inner.offsetCommitFence now detail completing = (inner, none) ∨
    ¬ (detail.generationIdOrMemberEpoch.getD (-1) < 0 ∧ inner.members.isEmpty = true) ∧
      ∃ errorCode ∈ refusals, inner.offsetCommitFence now detail completing = (inner, some errorCode) := by
  simp only [offsetCommitFence]
  split
  next simple => exact .inl ⟨simple, rfl⟩
  next managed =>
    refine .inr ⟨managed, ?_⟩
    split
    next => exact refused_of_stale stale (fun errorCode => (inner, some errorCode)) _
    next unnamed =>
      have negative : detail.generationIdOrMemberEpoch.getD (-1) < 0 := by omega
      have filled : inner.members.isEmpty = false := by simpa [negative] using managed
      exact ⟨.unknownMemberId, by decide, if_pos filled⟩

end Inner

namespace Wrapper

variable {group : Wrapper} {now : SystemTime} {memberId : String}

theorem heartbeat_of_stale {generationId : Int} (groupInstanceId : Option String)
    (stale : memberId ∉ group.members ∨ generationId ≠ group.generationId) :
    ∃ errorCode ∈ refusals, group.heartbeat now generationId memberId groupInstanceId =
      (group, heartbeatResponse errorCode) := by
  cases group with
  | forming inner =>
    obtain ⟨errorCode, known, refused⟩ : ∃ errorCode ∈ refusals, inner.heartbeatForming now generationId
        memberId groupInstanceId = (inner, heartbeatResponse errorCode) := Inner.refused_of_stale stale _ _
    exact ⟨errorCode, known, by rw [heartbeat, refused]⟩
  | formed inner =>
    obtain ⟨errorCode, known, refused⟩ : ∃ errorCode ∈ refusals, inner.heartbeatFormed now generationId
        memberId groupInstanceId = (inner, heartbeatResponse errorCode) := Inner.refused_of_stale stale _ _
    exact ⟨errorCode, known, by rw [heartbeat, refused]⟩

theorem sync_of_stale (stale : request.memberId ∉ group.members ∨ request.generationId ≠ group.generationId) :
    ∃ errorCode ∈ refusals, group.sync now request = (group, syncError errorCode) := by
  cases group with
  | forming inner => exact Inner.refused_of_stale stale (fun errorCode =>
      (Wrapper.forming inner, syncError errorCode)) _
  | formed inner =>
    obtain ⟨errorCode, known, refused⟩ : ∃ errorCode ∈ refusals, inner.syncFormed now request =
        (inner, syncError errorCode) := Inner.refused_of_stale stale _ _
    exact ⟨errorCode, known, by rw [sync, refused]⟩

def isSimpleCommit (group : Wrapper) (detail : OffsetCommit) : Bool :=
  decide (detail.generationIdOrMemberEpoch.getD (-1) < 0) && group.members.isEmpty

theorem checkOffsetCommit_of_stale (stale : detail.memberId.getD "" ∉ group.members ∨
      detail.generationIdOrMemberEpoch.getD (-1) ≠ group.generationId) :
    group.isSimpleCommit detail = true ∧ group.checkOffsetCommit now detail = (group, none) ∨
    group.isSimpleCommit detail = false ∧
      ∃ errorCode ∈ refusals, group.checkOffsetCommit now detail = (group, some errorCode) := by
  cases group
  case' forming inner => have fence := inner.offsetCommitFence_of_stale now detail inner.isCompletingRebalance stale
  case' formed inner => have fence := inner.offsetCommitFence_of_stale now detail false stale
  all_goals
    rcases fence with ⟨simple, passed⟩ | ⟨managed, errorCode, known, refused⟩
    · exact .inl ⟨by simpa [isSimpleCommit, members] using simple, by rw [checkOffsetCommit, passed]⟩
    · exact .inr ⟨by simpa [isSimpleCommit, members] using managed, errorCode, known,
        by rw [checkOffsetCommit, refused]⟩

end Wrapper

/-- A member id that was removed is never a member again: its heartbeats and its `SyncGroup` are refused, and
no `JoinGroup` brings it back. So are those of another generation than the group's. An offset commit of such
a member or generation passes only as that of a simple consumer: without a generation, and to a group without
members. -/
theorem removed_members_stay_out {history : History} (reached : History.machine.Reachable history) :
    (∀ memberId, history.Removed memberId → memberId ∉ history.group.members ∧
      (∀ now generationId groupInstanceId, ∃ errorCode ∈ refusals,
        history.group.heartbeat now generationId memberId groupInstanceId =
          (history.group, heartbeatResponse errorCode)) ∧
      (∀ now request, request.memberId = memberId → ∃ errorCode ∈ refusals,
        history.group.sync now request = (history.group, syncError errorCode)) ∧
      (∀ now detail, detail.memberId = some memberId → history.group.isSimpleCommit detail = true ∧
          history.group.checkOffsetCommit now detail = (history.group, none) ∨
        history.group.isSimpleCommit detail = false ∧ ∃ errorCode ∈ refusals,
          history.group.checkOffsetCommit now detail = (history.group, some errorCode)) ∧
      (∀ now uuid request delay, (∀ made ∈ (Call.join uuid request delay).made, made ∉ history.issued) →
        memberId ∉ (history.group.join now uuid request delay).1.members)) ∧
    (∀ now generationId memberId groupInstanceId, generationId ≠ history.group.generationId →
      ∃ errorCode ∈ refusals, history.group.heartbeat now generationId memberId groupInstanceId =
        (history.group, heartbeatResponse errorCode)) ∧
    (∀ now request, request.generationId ≠ history.group.generationId →
      ∃ errorCode ∈ refusals, history.group.sync now request = (history.group, syncError errorCode)) ∧
    (∀ now detail, detail.generationIdOrMemberEpoch.getD (-1) ≠ history.group.generationId →
      history.group.isSimpleCommit detail = true ∧ history.group.checkOffsetCommit now detail = (history.group, none) ∨
      history.group.isSimpleCommit detail = false ∧ ∃ errorCode ∈ refusals,
        history.group.checkOffsetCommit now detail = (history.group, some errorCode)) := by
  have accounted := History.accounted_of_reachable reached
  refine ⟨fun memberId removed => ?_, ?_, ?_, ?_⟩
  · obtain ⟨_, absent, _⟩ := accounted.removed memberId removed
    refine ⟨absent, fun now generationId groupInstanceId => ?_, ?_, ?_, ?_⟩
    · exact Wrapper.heartbeat_of_stale groupInstanceId (.inl absent)
    · rintro _ _ rfl
      exact Wrapper.sync_of_stale (.inl absent)
    · intro now detail named
      exact Wrapper.checkOffsetCommit_of_stale (.inl (by rw [named]; exact absent))
    · intro now uuid request delay fresh
      have next := accounted.next now (.join uuid request delay) fresh
      obtain ⟨event, listed, gone⟩ := removed
      exact (next.removed memberId ⟨event, mem_cons_of_mem _ listed, gone⟩).2.1
  · intro now generationId memberId groupInstanceId other
    exact Wrapper.heartbeat_of_stale groupInstanceId (.inr other)
  · intro now request other
    exact Wrapper.sync_of_stale (.inr other)
  · intro now detail other
    exact Wrapper.checkOffsetCommit_of_stale (.inr other)

def plainJoin (apiVersion : Int) (memberId : String) (groupInstanceId : Option String) : JoinRequest where
  apiVersion
  clientId := none
  clientHost := none
  sessionTimeoutMs := 10000
  rebalanceTimeoutMs := 1000
  memberId
  groupInstanceId
  protocolType := "consumer"
  protocols := some [{ name := "range", metadata := [] }]

def comeAndGone : List (SystemTime × Call) :=
  [(0, .join "a" (plainJoin 0 "" none) 0), (0, .leave (some "a") none)]

theorem removed_comeAndGone : ((History.start 0).handleAll comeAndGone).Removed "a" := by
  refine ⟨_, mem_cons_self, ?_⟩
  decide +kernel

/-- The removed member commits offsets without a generation, and the commit passes. -/
theorem removed_member_commits_simply : ∃ history, History.machine.Reachable history ∧
    history.Removed "a" ∧ history.group.checkOffsetCommit 0
      { generationIdOrMemberEpoch := none, memberId := some "a", groupInstanceId := none, topics := none,
        isTransactional := false } = (history.group, none) := by
  refine ⟨(History.start 0).handleAll comeAndGone, ?_, removed_comeAndGone, ?_⟩
  · exact History.reachable_of_admissible comeAndGone (by decide +kernel)
  · decide +kernel

/-- The heartbeat of the member that has left is refused. -/
theorem removed_members_stay_out_heartbeat : ∃ history, History.machine.Reachable history ∧
    history.Removed "a" ∧ ∃ errorCode ∈ refusals,
      history.group.heartbeat 0 0 "a" none = (history.group, heartbeatResponse errorCode) := by
  have reached : History.machine.Reachable ((History.start 0).handleAll comeAndGone) :=
    History.reachable_of_admissible comeAndGone (by decide +kernel)
  exact ⟨_, reached, removed_comeAndGone, ((removed_members_stay_out reached).1 "a" removed_comeAndGone).2.1 0 0 none⟩

end Nisshi.Coordinator
