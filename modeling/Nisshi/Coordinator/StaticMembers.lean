import Nisshi.Coordinator.Membership

/-! Static members: who holds a group instance id. -/

namespace Nisshi.Coordinator

open Nisshi.SansIo Nisshi.Storage Nisshi.Lib List Option Function
open Std (ExtTreeMap)

def Distinct (response : String → Option JoinGroupResponseMember) : Prop :=
  ∀ first second member other groupInstanceId, response first = some member →
    response second = some other → member.groupInstanceId = some groupInstanceId →
    other.groupInstanceId = some groupInstanceId → first = second

namespace Distinct

variable {before after : String → Option JoinGroupResponseMember} {memberId : String}
  {response : JoinGroupResponseMember}

theorem mono (distinct : Distinct before) (within : ∀ id member, after id = some member →
    before id = some member) : Distinct after :=
  fun first second member other groupInstanceId one two => distinct first second member other groupInstanceId
    (within first member one) (within second other two)

theorem update (distinct : Distinct before)
    (alone : ∀ groupInstanceId, response.groupInstanceId = some groupInstanceId → ∀ id member,
      before id = some member → member.groupInstanceId = some groupInstanceId → id = memberId) :
    Distinct (Function.update before memberId (some response)) := by
  intro first second member other groupInstanceId one two holds shares
  rw [update_apply] at one two
  split at one <;> split at two
  next here there => exact here.trans there.symm
  next here _ =>
    obtain rfl := some.inj one
    exact here.trans (alone groupInstanceId holds second other two shares).symm
  next there =>
    obtain rfl := some.inj two
    exact (alone groupInstanceId shares first member one holds).trans there.symm
  next => exact distinct first second member other groupInstanceId one two holds shares

end Distinct

namespace Roster

variable {before after : Roster} {request : JoinRequest} {offered : JoinGroupRequestProtocol} {uuid : String}

theorem distinct_upserted (distinct : Distinct before.response)
    (unheld : before.response memberId = none → before.Unheld request) :
    Distinct (Function.update before.response memberId
      (some (before.upserted request offered memberId))) := by
  refine distinct.update fun groupInstanceId holds id member found shares => ?_
  rw [upserted] at holds
  cases earlier : before.response memberId with
  | none =>
    rw [earlier] at holds
    exact absurd shares (unheld earlier groupInstanceId holds id member found)
  | some held =>
    rw [earlier] at holds
    exact distinct id memberId member held groupInstanceId found earlier shares holds

theorem Joins.distinct (joins : before.Joins uuid request offered after) (distinct : Distinct before.response)
    (unheld : request.memberId ∈ before.pendingMembers → before.Unheld request) : Distinct after.response := by
  cases joins with
  | issued _ _ response =>
    rw [response]
    exact distinct
  | added _ unheld response =>
    rw [response]
    exact distinct_upserted distinct fun _ => unheld
  | pending issued response =>
    rw [response]
    exact distinct_upserted distinct fun _ => unheld issued
  | rejoined member response =>
    rw [response]
    refine distinct_upserted distinct fun absent => ?_
    rw [← isSome_response, absent] at member
    cases member
  | @replaced old groupInstanceId earlier _ _ holds _ response _ =>
    -- The earlier instance is gone before the new one takes its group instance id.
    have vacated : ∀ id member, update before.response old none id = some member →
        before.response id = some member ∧ id ≠ old := by
      intro id member found
      rw [update_apply] at found
      split at found
      next => cases found
      next apart => exact ⟨found, apart⟩
    rw [response]
    refine (distinct.mono fun id member found => (vacated id member found).1).update ?_
    intro shared holding id member found sharing
    obtain ⟨present, apart⟩ := vacated id member found
    exact absurd (distinct id old member earlier shared present holds sharing holding) apart

end Roster

def Wrapper.holds (group : Wrapper) (groupInstanceId : String) : Bool :=
  group.members.toList.any fun (_, member) => member.joinResponse.groupInstanceId == some groupInstanceId

def Call.takesHeldInstance (group : Wrapper) : Call → Bool
  | .join _ request _ =>
    group.pendingMembers.contains request.memberId && request.groupInstanceId.any group.holds
  | _ => false

theorem Wrapper.unheld_of_holds {group : Wrapper} (unheld : request.groupInstanceId.any group.holds = false) :
    group.roster.Unheld request := by
  intro groupInstanceId given memberId response found shares
  obtain ⟨member, present, rfl⟩ := map_eq_some_iff.mp found
  have holds : group.holds groupInstanceId = true := by
    refine any_eq_true.mpr ⟨(memberId, member), ?_, by simpa using shares⟩
    exact ExtTreeMap.mem_toList_iff_getElem?_eq_some.mpr present
  rw [mem_def.mp given, any_some, holds] at unheld
  cases unheld

theorem History.distinct_next {history : History} (distinct : Distinct history.group.roster.response)
    (now : SystemTime) (call : Call) (unheld : call.takesHeldInstance history.group = false) :
    Distinct (history.next now call).group.roster.response := by
  rcases history.group.call_roster now call with dwindles | ⟨_, request, _, rfl, receives⟩
  · exact distinct.mono dwindles.response
  · rcases receives with same | ⟨_, _, _, joins, dwindles⟩
    · exact distinct.mono (same ▸ fun _ _ found => found)
    · refine (joins.distinct distinct fun issued => ?_).mono dwindles.response
      have named : history.group.pendingMembers.contains request.memberId = true :=
        ExtTreeMap.contains_iff_mem.mpr issued
      rw [Call.takesHeldInstance, named] at unheld
      exact Wrapper.unheld_of_holds unheld

/-- When no `JoinGroup` that names a pending member id gives a group instance id that is held, no two members
have the same group instance id. -/
theorem static_members_are_distinct {history : History} (reached : History.machine.ReachableWhile
      (fun history action => action.2.takesHeldInstance history.group = false) history)
    {first second : String} {member other : Member} {groupInstanceId : String}
    (one : history.group.members[first]? = some member) (two : history.group.members[second]? = some other)
    (holds : member.joinResponse.groupInstanceId = some groupInstanceId)
    (shares : other.joinResponse.groupInstanceId = some groupInstanceId) : first = second := by
  have distinct : Distinct history.group.roster.response := by
    apply reached.invariant
    · rintro _ ⟨_, rfl⟩
      exact nofun
    · rintro _ ⟨now, call⟩ _ distinct unheld ⟨_⟩
      exact History.distinct_next distinct now call unheld
  exact distinct first second _ _ groupInstanceId (congrArg (Option.map _) one) (congrArg (Option.map _) two)
    holds shares

def staticAndPending : List (SystemTime × Call) :=
  [(0, .join "s" (plainJoin 5 "" (some "i")) 0), (0, .join "c" (plainJoin 5 "" none) 0)]

/-- The other client joins with its member id and the group instance id of the static member. -/
theorem two_members_hold_one_instance : ∃ history, History.machine.Reachable history ∧
    history.group.members.toList.map (fun (memberId, member) =>
      (memberId, member.joinResponse.groupInstanceId)) = [("c", some "i"), ("i-s", some "i")] := by
  refine ⟨(History.start 0).handleAll (staticAndPending ++ [(0, .join "" (plainJoin 5 "c" (some "i")) 0)]),
    ?_, by decide +kernel⟩
  exact History.reachable_of_admissible _ (by decide +kernel)

/-- The static member is the only one that holds its group instance id, whatever member holds it. -/
theorem static_members_are_distinct_two : ∃ history, (History.machine.ReachableWhile
      (fun history action => action.2.takesHeldInstance history.group = false) history ∧
      history.group.holds "i" = true) ∧
    ∀ memberId member, history.group.members[memberId]? = some member →
      member.joinResponse.groupInstanceId = some "i" → memberId = "i-s" := by
  have reached : History.machine.ReachableWhile
      (fun history action => action.2.takesHeldInstance history.group = false)
      ((History.start 0).handleAll staticAndPending) :=
    History.reachable_of_admissible staticAndPending (by decide +kernel)
  have held : ((History.start 0).handleAll staticAndPending).group.members["i-s"]?.map
      (·.joinResponse.groupInstanceId) = some (some "i") := by decide +kernel
  obtain ⟨static, found, holds⟩ := map_eq_some_iff.mp held
  exact ⟨_, ⟨reached, by decide +kernel⟩, fun memberId member present shares =>
    static_members_are_distinct reached present found shares holds⟩

end Nisshi.Coordinator
