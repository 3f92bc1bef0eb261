import Nisshi.Coordinator.Turns

/-! The generations of a group are rounds: a join phase that completes begins one, the leader's `SyncGroup`
settles it, and the next join phase ends it. -/

namespace Nisshi.Coordinator

open Nisshi.SansIo Nisshi.Storage Nisshi.Lib Option
open Std (ExtTreeMap ExtTreeSet)

def Wrapper.protocol (group : Wrapper) : Option (Option String × Option String) :=
  group.names.map fun (protocolType, protocolName) => (some protocolType, some protocolName)

def toldToLead (response : JoinGroupResponse) : Bool :=
  response.leader == response.memberId && response.skipAssignment != some true

def invitationOf (response : JoinGroupResponse) : Rounds.Invitation String (Option String × Option String) where
  round := response.generationId
  protocol := (response.protocolType, response.protocolName)
  member := response.memberId
  leads := toldToLead response

def Inner.replacedBy (inner : Inner Formed) (request : JoinRequest) (answer : Answer) :
    Option (Int × String × String) :=
  if request.memberId = "" then
    answer.joined.bind fun response =>
      (request.groupInstanceId.bind inner.staticMemberId).map fun old =>
        (inner.generationId, old, response.memberId)
  else none

namespace Event

def installed (event : Event) : Option (Int × (String → Option (List UInt8))) :=
  match event.before, event.after with
  | .forming _, .formed inner => some (inner.generationId, fun memberId => inner.state.assignments[memberId]?)
  | _, _ => none

def replaced (event : Event) : Option (Int × String × String) :=
  match event.before, event.call with
  | .formed inner, .join _ request _ => inner.replacedBy request event.answer
  | _, _ => none

def answered (event : Event) : Option (Int × String × List UInt8) :=
  match event.call with
  | .sync request => event.answer.synced.map fun response =>
      (request.generationId, request.memberId, response.assignment)
  | _ => none

end Event

namespace History

def rounds (history : History) : Rounds.State String (Option String × Option String) (List UInt8) where
  round := history.group.generationId
  protocol := history.group.protocol
  stage := history.group.stage
  invitations := history.events.filterMap fun event => event.answer.joined.map invitationOf
  installed := history.events.filterMap (·.installed)
  replaced := history.events.filterMap (·.replaced)
  answers := history.events.filterMap (·.answered)

end History

def roundsAt (s : Rounds.State String (Option String × Option String) (List UInt8)) (group : Wrapper) :
    Rounds.State String (Option String × Option String) (List UInt8) :=
  { s with round := group.generationId, protocol := group.protocol, stage := group.stage }

section

variable {s : Rounds.State String (Option String × Option String) (List UInt8)} {now : SystemTime}
  {after : Wrapper} {inner : Inner Forming} {memberId : String}

theorem reach_turn (reached : Rounds.machine.Reachable s)
    (protocol : s.protocol = names.map fun (protocolType, protocolName) => (some protocolType, some protocolName))
    (turn : Wrapper.Turn now s.round names s.stage after) : Rounds.machine.Reachable (roundsAt s after) := by
  have gathered : Rounds.machine.Reachable { s with stage := .gathering } := reached.step (a := ()) .gather
  cases turn with
  | stays same named remains =>
    have unchanged : roundsAt s after = s := by
      rw [roundsAt, same, remains, Wrapper.protocol, named, ← protocol]
    rw [unchanged]
    exact reached
  | @advances before after same named advance =>
    cases advance with
    | waits phase generation names =>
      have waiting : roundsAt s (.forming after) = { s with stage := .gathering } := by
        rw [roundsAt, Wrapper.stage_of_joinPhase phase, Wrapper.generationId, generation, same, Wrapper.protocol,
          Wrapper.names, names, named, ← protocol]
      rw [waiting]
      exact gathered
    | @completes during joinPhase phase generation names ended =>
      rcases Inner.completeJoin_spec now phase with ⟨waits, _⟩ | ⟨_, next, called⟩
      · rw [ended] at waits
        cases waits
      · cases empty : (during.completeJoin now).members.isEmpty with
        | true =>
          have dissolved : roundsAt s (.forming (during.completeJoin now)) =
              { s with round := s.round + 1, protocol := none, stage := .gathering } := by
            rw [roundsAt, Wrapper.stage_of_empty empty, Wrapper.generationId, next, generation, same,
              Wrapper.protocol, Wrapper.names, called, if_pos empty, map_none]
          rw [dissolved]
          exact gathered.step (a := ()) (.dissolve rfl)
        | false =>
          have begun : roundsAt s (.forming (during.completeJoin now)) = { s with
              round := s.round + 1
              stage := .awaiting ((during.completeJoin now).state.leader.getD "") } := by
            have completing : (during.completeJoin now).isCompletingRebalance = true := by
              simp [Inner.isCompletingRebalance, ended, empty]
            rw [roundsAt, Wrapper.stage, if_pos completing, Wrapper.generationId, next, generation, same,
              Wrapper.protocol, Wrapper.names, called, if_neg (by simp [empty]), names, named, ← protocol]
          rw [begun]
          exact gathered.step (a := ()) (.begin _ rfl)

theorem protocol_of_sound (sound : inner.Sound) (member : memberId ∈ inner.members) :
    (Wrapper.forming inner).protocol = some (inner.state.protocolType, inner.state.protocolName) := by
  obtain ⟨_, held⟩ := isSome_iff_exists.mp (sound.protocol memberId member)
  simp [Wrapper.protocol, Wrapper.names, Inner.names, Forming.protocolType, Forming.protocolName, held]

theorem reach_invite (sound : inner.Sound) (member : memberId ∈ inner.members)
    (phase : inner.state.joinPhase = none) (reached : Rounds.machine.Reachable s)
    (here : roundsAt s (.forming inner) = s) : Rounds.machine.Reachable { s with
      invitations := ((Answer.reply (.ready (inner.joinResponse memberId))).joined.map invitationOf).toList ++
        s.invitations } := by
  have filled := OrderedMap.isEmpty_eq_false member
  have completing : inner.isCompletingRebalance = true := by
    simp [Inner.isCompletingRebalance, phase, filled]
  have round : inner.generationId = s.round := congrArg Rounds.State.round here
  have agreed : s.protocol = some (inner.state.protocolType, inner.state.protocolName) := by
    rw [← protocol_of_sound sound member]
    exact (congrArg Rounds.State.protocol here).symm
  have awaiting : s.stage = .awaiting (inner.state.leader.getD "") := by
    rw [← congrArg Rounds.State.stage here]
    exact if_pos completing
  simp only [Inner.joinResponse, Answer.joined, if_true, map_some, toList_some, List.singleton_append,
    invitationOf, round]
  refine reached.step (a := ()) (.invite _ memberId _ awaiting agreed fun leads => ?_)
  simp only [toldToLead, Bool.and_eq_true, beq_iff_eq] at leads
  exact leads.1.symm

theorem reach_replyToJoined (sound : inner.Sound) (reached : Rounds.machine.Reachable s)
    (here : roundsAt s (.forming inner) = s) : Rounds.machine.Reachable { s with
      invitations := ((Answer.reply (inner.replyToJoined memberId)).joined.map invitationOf).toList ++
        s.invitations } := by
  rw [Inner.replyToJoined]
  split
  next ready =>
    simp only [Bool.and_eq_true, isNone_iff_eq_none] at ready
    exact reach_invite sound (ExtTreeMap.contains_iff_mem.mp ready.2) ready.1 reached here
  next => exact reached

theorem reach_follow {inner : Inner Formed} {leader : String} (follows : leader = memberId → skipAssignment = true)
    (reached : Rounds.machine.Reachable s)
    (here : roundsAt s (.formed inner) = s) : Rounds.machine.Reachable { s with
      invitations := ((Answer.reply (.ready (inner.formedJoinResponse memberId leader skipAssignment))).joined.map
        invitationOf).toList ++ s.invitations } := by
  have settled : s.stage = .settled inner.state.leader fun memberId => inner.state.assignments[memberId]? :=
    (congrArg Rounds.State.stage here).symm
  have agreed : s.protocol = some (some inner.state.protocolType, some inner.state.protocolName) :=
    (congrArg Rounds.State.protocol here).symm
  have round : inner.generationId = s.round := congrArg Rounds.State.round here
  have told : (leader == memberId && some skipAssignment != some true) = false := by
    by_cases same : leader = memberId
    · simp [follows same]
    · simp [same]
  simp only [Inner.formedJoinResponse, Answer.joined, if_true, map_some, toList_some,
    List.singleton_append, invitationOf, toldToLead, told, round]
  exact reached.step (a := ()) (.follow _ _ settled agreed)

variable {request : JoinRequest} {event : Event} {assignment : List UInt8}

/-- A member joins a join phase, and is answered if that completes it. The first member of an empty group gives
it its protocol. -/
theorem reach_enters {names : Option (String × String)} (enters : Inner.Enters now s.round names request result)
    (reached : Rounds.machine.Reachable s)
    (protocol : s.protocol = names.map fun (protocolType, protocolName) => (some protocolType, some protocolName))
    (free : names = none → s.stage = .gathering) (sound : result.1.Sound) : Rounds.machine.Reachable
      { roundsAt s (.forming result.1) with
        invitations := ((Answer.reply result.2).joined.map invitationOf).toList ++ s.invitations } := by
  cases enters with
  | @enters before after offered memberId accepted same named advance =>
    have adopted : Rounds.machine.Reachable
        { s with protocol := some (some request.protocolType, some offered.name) } := by
      rcases JoinRequest.names_of_joiningProtocol accepted with none | called
      · exact reached.step (a := ()) (.adopt _ (free none) (by rw [protocol, none]; rfl))
      · rw [called] at protocol
        have unchanged : { s with protocol := some (some request.protocolType, some offered.name) } = s := by
          rw [← show s.protocol = some (some request.protocolType, some offered.name) from protocol]
        rw [unchanged]
        exact reached
    have turned := reach_turn adopted rfl (.advances same named advance)
    exact reach_replyToJoined sound turned rfl

def recorded (s : Rounds.State String (Option String × Option String) (List UInt8)) (event : Event) :
    Rounds.State String (Option String × Option String) (List UInt8) :=
  { roundsAt s event.after with
    invitations := (event.answer.joined.map invitationOf).toList ++ s.invitations
    installed := event.installed.toList ++ s.installed
    replaced := event.replaced.toList ++ s.replaced
    answers := event.answered.toList ++ s.answers }

theorem installed_of_turn (turn : Wrapper.Turn now event.before.generationId event.before.names
    event.before.stage event.after) : event.installed = none := by
  obtain ⟨_, _, before, after, _⟩ := event
  cases before with
  | formed => rfl
  | forming =>
    cases turn with
    | @stays after same named remains =>
      cases after with
      | forming => rfl
      | formed =>
        rw [Wrapper.stage] at remains
        split at remains <;> cases remains
    | advances => rfl

theorem reach_of_turn (turn : Wrapper.Turn event.now event.before.generationId event.before.names
    event.before.stage event.after) (reached : Rounds.machine.Reachable s)
    (here : roundsAt s event.before = s) (joined : event.answer.joined = none)
    (replaced : event.replaced = none) (answered : event.answered = none) :
    Rounds.machine.Reachable (recorded s event) := by
  rw [recorded, joined, replaced, answered, installed_of_turn turn]
  rw [← here] at reached ⊢
  exact reach_turn reached rfl turn

theorem reach_joinForming {uuid : String} (sound : inner.Sound)
    (reached : Rounds.machine.Reachable s) (here : roundsAt s (.forming inner) = s) : Rounds.machine.Reachable
      { roundsAt s (.forming (inner.joinForming now uuid request delay).1) with
        invitations := ((Answer.reply (inner.joinForming now uuid request delay).2).joined.map
          invitationOf).toList ++ s.invitations } := by
  have later : (inner.joinForming now uuid request delay).1.Sound := sound.joinForming
  have spec := inner.joinForming_spec sound now uuid request delay
  generalize inner.joinForming now uuid request delay = result at later spec ⊢
  cases spec with
  | @refused after reply members state generation error =>
    have turn : Wrapper.Turn now inner.generationId inner.names (Wrapper.forming inner).stage (.forming after) :=
      Wrapper.turn_of_forming (fun id => by rw [members]) state generation
    rw [joined_of_refused error]
    rw [← here] at reached ⊢
    exact reach_turn reached rfl turn
  | repeated member phase =>
    rw [here]
    exact reach_invite sound member phase reached here
  | entered enters =>
    rw [← here] at reached ⊢
    refine reach_enters enters reached rfl (fun none => Wrapper.stage_of_empty ?_) later
    refine OrderedMap.isEmpty_iff_forall_not_mem.mpr fun id present => ?_
    have held := sound.protocol id present
    rw [map_eq_none_iff.mp none] at held
    cases held

theorem replacedBy_of_joined {inner : Inner Formed} (joined : answer.joined = none) :
    inner.replacedBy request answer = none := by
  simp [Inner.replacedBy, joined]

theorem replacedBy_of_kept {inner : Inner Formed}
    (kept : request.memberId = "" → request.groupInstanceId.bind inner.staticMemberId = none) :
    inner.replacedBy request answer = none := by
  rw [Inner.replacedBy]
  split
  next unnamed => simp [kept unnamed]
  next => rfl

theorem assignments_takePlace {inner : Inner Formed}
    (held : (inner.takePlace old new).state.assignments[memberId]? = some assignment) :
    inner.state.assignments[memberId]? = some assignment ∨
      memberId = new ∧ inner.state.assignments[old]? = some assignment := by
  have state := Inner.state_renameMember inner old new
  simp only [Inner.takePlace, state] at held
  split at held
  next given =>
    rw [ExtTreeMap.getElem?_insert] at held
    split at held
    next same => exact .inr ⟨(Std.compare_eq_iff_eq.mp same).symm, given.trans held⟩
    next =>
      rw [ExtTreeMap.getElem?_erase] at held
      split at held
      next => cases held
      next => exact .inl held
  next => exact .inl held

theorem reach_replaced {inner : Inner Formed} {old : String}
    (placed : replaced = (inner.takePlace old new).upsertMember now new request metadata) {leader : String}
    (follows : leader = new → skipAssignment = true)
    (reached : Rounds.machine.Reachable s) (here : roundsAt s (.formed inner) = s) : Rounds.machine.Reachable
      { roundsAt s (.formed replaced) with
        invitations := ((Answer.reply (.ready (replaced.formedJoinResponse new leader skipAssignment))).joined.map
          invitationOf).toList ++ s.invitations
        replaced := (inner.generationId, old, new) :: s.replaced } := by
  obtain ⟨generation, protocolType, protocolName⟩ := inner.names_takePlace old new
  have settled : s.stage = .settled inner.state.leader fun memberId => inner.state.assignments[memberId]? :=
    (congrArg Rounds.State.stage here).symm
  have same : replaced.generationId = s.round := by
    rw [placed, ← congrArg Rounds.State.round here]
    exact generation
  have named : (Wrapper.formed replaced).protocol = s.protocol := by
    rw [placed, ← congrArg Rounds.State.protocol here]
    exact congrArg₂ (fun t n => some (some t, some n)) protocolType protocolName
  have moved : ∀ member assignment, replaced.state.assignments[member]? = some assignment →
      inner.state.assignments[member]? = some assignment ∨
        member = new ∧ inner.state.assignments[old]? = some assignment := by
    intro member assignment held
    rw [placed] at held
    exact assignments_takePlace held
  have handed := reached.step (a := ()) (.replace replaced.state.leader old new settled moved)
  have there : { roundsAt s (.formed replaced) with replaced := (s.round, old, new) :: s.replaced } =
      { s with stage := (Wrapper.formed replaced).stage, replaced := (s.round, old, new) :: s.replaced } := by
    rw [roundsAt, named, Wrapper.generationId, same]
  have round : inner.generationId = s.round := congrArg Rounds.State.round here
  have followed := reach_follow follows handed there
  rw [round, roundsAt, named, Wrapper.generationId, same]
  exact followed

theorem reach_joinFormed {inner : Inner Formed} {uuid : String} (assigned : inner.Assigned)
    (sound : (inner.joinFormed now uuid request delay).1.Sound)
    (fresh : request.memberId = "" → request.madeMemberId uuid ∉ inner.members)
    (reached : Rounds.machine.Reachable s) (here : roundsAt s (.formed inner) = s) : Rounds.machine.Reachable
      (recorded s { now, call := .join uuid request delay, before := .formed inner
                    after := (inner.joinFormed now uuid request delay).1
                    answer := .reply (inner.joinFormed now uuid request delay).2 }) := by
  have spec := inner.joinFormed_spec now uuid request delay
  generalize inner.joinFormed now uuid request delay = result at sound spec ⊢
  cases spec with
  | @refused after reply members state generation error =>
    have joined := joined_of_refused error
    exact reach_of_turn (Wrapper.turn_of_formed state generation) reached here joined
      (replacedBy_of_joined joined) rfl
  | @replaced old metadata unnamed found replaced placed =>
    have absent := fresh unnamed
    rw [recorded]
    simp only [Event.replaced]
    split
    all_goals
      rw [show inner.replacedBy request _ = some (inner.generationId, old, request.madeMemberId uuid) by
        simp [Inner.replacedBy, unnamed, found, Answer.joined, Inner.formedJoinResponse]]
      refine reach_replaced placed (fun leads => ?_) reached here
    · simp [leads]
    · exact absurd (leads ▸ assigned.leader) absent
  | follows named other =>
    rw [recorded]
    simp only [Event.replaced, replacedBy_of_kept fun unnamed => absurd unnamed named]
    rw [here]
    exact reach_follow (fun same => absurd same other) reached here
  | @entered result kept enters =>
    rw [recorded]
    simp only [Event.replaced, replacedBy_of_kept kept]
    rw [← here] at reached ⊢
    exact reach_enters enters reached rfl nofun sound

theorem answered_of_silent (silent : event.answer.Silent) : event.answered = none := by
  rw [Event.answered]
  split
  · rw [silent.2]
    rfl
  · rfl

theorem reach_answer {inner : Inner Formed} (given : inner.state.assignments[memberId]? = some assignment)
    (reached : Rounds.machine.Reachable s) (here : roundsAt s (.formed inner) = s) :
    Rounds.machine.Reachable { s with answers := (inner.generationId, memberId, assignment) :: s.answers } := by
  have settled : s.stage = .settled inner.state.leader fun memberId => inner.state.assignments[memberId]? :=
    (congrArg Rounds.State.stage here).symm
  rw [show inner.generationId = s.round from congrArg Rounds.State.round here]
  exact reached.step (a := ()) (.answer memberId assignment settled given)

theorem answered_syncResponse {inner : Inner Formed} {request : SyncRequest}
    (call : event.call = .sync request) (answer : event.answer = .reply (inner.syncResponse request.memberId))
    (given : inner.state.assignments[request.memberId]? = some assignment) :
    event.answered = some (request.generationId, request.memberId, assignment) := by
  rw [Event.answered, call, answer]
  simp [Inner.syncResponse, Answer.synced, given]

theorem reach_syncForming {request : SyncRequest} (reached : Rounds.machine.Reachable s)
    (here : roundsAt s (.forming inner) = s) : Rounds.machine.Reachable
      (recorded s { now, call := .sync request, before := .forming inner
                    after := (inner.syncForming now request).1
                    answer := .reply (inner.syncForming now request).2 }) := by
  have spec := inner.syncForming_spec now request
  generalize inner.syncForming now request = result at spec ⊢
  cases spec with
  | @stays after reply members state generation silent =>
    have turn : Wrapper.Turn now inner.generationId inner.names (Wrapper.forming inner).stage (.forming after) :=
      Wrapper.turn_of_forming (fun id => by rw [members]) state generation
    exact reach_of_turn turn reached here silent.1 rfl (answered_of_silent silent)
  | @installs after member phase leads generation asked named leader assigned =>
    obtain ⟨_, given⟩ : ∃ assignment, after.state.assignments[request.memberId]? = some assignment :=
      ⟨_, ExtTreeMap.getElem?_eq_some_getElem assigned⟩
    have awaiting : s.stage = .awaiting request.memberId := by
      have completing : inner.isCompletingRebalance = true := by
        simp [Inner.isCompletingRebalance, phase, OrderedMap.isEmpty_eq_false member]
      rw [← congrArg Rounds.State.stage here]
      simp only [roundsAt, Wrapper.stage, if_pos completing, leads, getD_some]
    have settled := reached.step (a := ())
      (.install (fun memberId => after.state.assignments[memberId]?) awaiting)
    have round : inner.generationId = s.round := congrArg Rounds.State.round here
    have protocol : (Wrapper.formed after).protocol = s.protocol := by
      rw [← congrArg Rounds.State.protocol here]
      simp only [roundsAt, Wrapper.protocol, Wrapper.names, named]
    have formed : Rounds.machine.Reachable { roundsAt s (.formed after) with
        installed := (after.generationId, fun memberId => after.state.assignments[memberId]?) :: s.installed } := by
      rw [roundsAt, protocol, Wrapper.generationId, generation, round, Wrapper.stage, leader]
      exact settled
    rw [recorded, answered_syncResponse rfl rfl given, asked, ← generation]
    exact reach_answer given formed rfl

theorem reach_syncFormed {inner : Inner Formed} {request : SyncRequest} (assigned : inner.Assigned)
    (reached : Rounds.machine.Reachable s) (here : roundsAt s (.formed inner) = s) : Rounds.machine.Reachable
      (recorded s { now, call := .sync request, before := .formed inner
                    after := .formed (inner.syncFormed now request).1
                    answer := .reply (inner.syncFormed now request).2 }) := by
  have spec := inner.syncFormed_spec now request
  generalize inner.syncFormed now request = result at spec ⊢
  cases spec with
  | @refused reply silent =>
    exact reach_of_turn (.stays rfl rfl rfl) reached here silent.1 rfl (answered_of_silent silent)
  | @answers after member state generation asked =>
    obtain ⟨_, given⟩ : ∃ assignment, after.state.assignments[request.memberId]? = some assignment := by
      rw [state]
      exact ⟨_, ExtTreeMap.getElem?_eq_some_getElem ((assigned.assignments _).mpr member)⟩
    have there : roundsAt s (.formed after) = s := by
      rw [← here]
      simp only [roundsAt, Wrapper.generationId, Wrapper.protocol, Wrapper.names, Wrapper.stage, state, generation]
    rw [recorded, answered_syncResponse rfl rfl given, asked, ← generation]
    rw [there]
    exact reach_answer given reached there

theorem reach_call (sound : group.Sound) (ordered : group.Ordered False) (call : Call)
    (fresh : ∀ made ∈ call.made, made ∉ group.members) (reached : Rounds.machine.Reachable s)
    (here : roundsAt s group = s) : Rounds.machine.Reachable
      (recorded s { now, call, before := group, after := (group.call now call).1
                    answer := (group.call now call).2 }) := by
  have later : (group.call now call).1.Sound := sound.call now call
  cases call with
  | settle =>
    exact reach_of_turn (Wrapper.turn_of_passes (group.settle_passes now)) reached here rfl
      (by cases group <;> rfl) rfl
  | heartbeat generationId memberId groupInstanceId =>
    exact reach_of_turn (Wrapper.turn_of_passes (group.heartbeat_passes now generationId memberId groupInstanceId))
      reached here rfl (by cases group <;> rfl) rfl
  | leave memberId members =>
    exact reach_of_turn (Wrapper.turn_of_passes (group.leave_passes now memberId members)) reached here rfl
      (by cases group <;> rfl) rfl
  | checkOffsetCommit detail =>
    exact reach_of_turn (Wrapper.turn_of_passes (group.checkOffsetCommit_passes now detail)) reached here rfl
      (by cases group <;> rfl) rfl
  | join =>
    cases group with
    | forming => exact reach_joinForming sound reached here
    | formed =>
      refine reach_joinFormed ordered later (fun unnamed => fresh _ ?_) reached here
      simp [Call.made, unnamed]
  | sync =>
    cases group with
    | forming => exact reach_syncForming reached here
    | formed => exact reach_syncFormed ordered reached here

end

namespace History

variable {history : History}

theorem rounds_next (now : SystemTime) (call : Call) : (history.next now call).rounds =
    recorded history.rounds { now, call, before := history.group, after := (history.group.call now call).1
                              answer := (history.group.call now call).2 } := by
  simp only [rounds, next, recorded, roundsAt, List.filterMap_eq_flatMap_toList, List.flatMap_cons]

theorem not_mem_of_fresh (reached : machine.Reachable history) {made : Option String}
    (fresh : ∀ memberId ∈ made, memberId ∉ history.issued) : ∀ memberId ∈ made, memberId ∉ history.group.members :=
  fun memberId given member => fresh memberId given ((accounted_of_reachable reached).member memberId member)

theorem rounds_of_reachable (reached : machine.Reachable history) : Rounds.machine.Reachable history.rounds := by
  induction reached with
  | init initial =>
    obtain ⟨inception, rfl⟩ := initial
    have empty : (Inner.new inception).members.isEmpty = true := ExtTreeMap.isEmpty_empty
    have gathering : (Wrapper.new inception).stage = .gathering := Wrapper.stage_of_empty empty
    exact .init ⟨rfl, gathering, rfl, rfl, rfl, rfl⟩
  | step before _ taken ih =>
    obtain ⟨fresh⟩ := taken
    rw [rounds_next]
    exact reach_call (sound_of_reachable before) (ordered_of_reachable before nofun) _
      (not_mem_of_fresh before fresh) ih rfl

end History

/-! What a member is told in answer to a `JoinGroup` is what the group has. -/

section

variable {response : JoinGroupResponse} {now : SystemTime} {memberId : String}

def Wrapper.Tells (group : Wrapper) (response : JoinGroupResponse) : Prop :=
  response.generationId = group.generationId ∧ group.protocol = some (response.protocolType, response.protocolName)

theorem tells_joinResponse {inner : Inner Forming} (sound : inner.Sound) (member : memberId ∈ inner.members)
    (told : (Answer.reply (.ready (inner.joinResponse memberId))).joined = some response) :
    (Wrapper.forming inner).Tells response := by
  simp only [Inner.joinResponse, Answer.joined, if_true, some.injEq] at told
  subst told
  exact ⟨rfl, protocol_of_sound sound member⟩

theorem tells_formedJoinResponse {inner : Inner Formed} {leader : String} {skipAssignment : Bool}
    (told : (Answer.reply (.ready (inner.formedJoinResponse memberId leader skipAssignment))).joined =
      some response) : (Wrapper.formed inner).Tells response := by
  simp only [Inner.formedJoinResponse, Answer.joined, if_true, some.injEq] at told
  subst told
  exact ⟨rfl, rfl⟩

theorem tells_of_enters {generation : Int} {request : JoinRequest}
    (enters : Inner.Enters now generation names request result)
    (sound : result.1.Sound) (told : (Answer.reply result.2).joined = some response) :
    (Wrapper.forming result.1).Tells response := by
  cases enters with
  | @enters before after offered memberId accepted same named advance =>
    simp only [Inner.replyToJoined] at told
    split at told
    next ready =>
      exact tells_joinResponse sound (ExtTreeMap.contains_iff_mem.mp (Bool.and_eq_true_iff.mp ready).2) told
    next => cases told

variable {group : Wrapper}

theorem tells_join (sound : group.Sound) {request : JoinRequest}
    (told : (Answer.reply (group.join now uuid request delay).2).joined = some response) :
    (group.join now uuid request delay).1.Tells response := by
  have later : (group.join now uuid request delay).1.Sound := sound.join
  cases group with
  | forming inner =>
    have spec := inner.joinForming_spec sound now uuid request delay
    simp only [Wrapper.join] at later told ⊢
    generalize inner.joinForming now uuid request delay = result at spec later told ⊢
    cases spec with
    | refused _ _ _ error => cases (joined_of_refused error).symm.trans told
    | repeated member => exact tells_joinResponse sound member told
    | entered enters => exact tells_of_enters enters later told
  | formed inner =>
    have spec := inner.joinFormed_spec now uuid request delay
    simp only [Wrapper.join] at later told ⊢
    generalize inner.joinFormed now uuid request delay = result at spec later told ⊢
    cases spec with
    | refused _ _ _ error => cases (joined_of_refused error).symm.trans told
    | replaced =>
      split at told <;> exact tells_formedJoinResponse told
    | follows => exact tells_formedJoinResponse told
    | entered _ enters => exact tells_of_enters enters later told

theorem joined_sync : (Answer.reply (group.sync now request).2).joined = none := by
  cases group with
  | forming inner =>
    have spec := inner.syncForming_spec now request
    simp only [Wrapper.sync]
    generalize inner.syncForming now request = result at spec ⊢
    cases spec with
    | stays _ _ _ silent => exact silent.1
    | installs => rfl
  | formed inner =>
    have spec := inner.syncFormed_spec now request
    simp only [Wrapper.sync]
    generalize inner.syncFormed now request = result at spec ⊢
    cases spec with
    | refused silent => exact silent.1
    | answers => rfl

theorem tells_call (sound : group.Sound) (told : (group.call now call).2.joined = some response) :
    (group.call now call).1.Tells response := by
  cases call with
  | join => exact tells_join sound told
  | sync => cases joined_sync.symm.trans told
  | settle | heartbeat | leave | checkOffsetCommit => cases told

end

def JoinRequest.Lists (request : JoinRequest) (names : String × String) : Prop :=
  request.protocolType = names.1 ∧
    ∃ protocols, request.protocols = some protocols ∧ ∃ offered ∈ protocols, offered.name = names.2

/-- The `JoinGroup` of a member, if that is what was called and it was accepted. -/
def Call.acceptedJoin (answer : Answer) (memberId : String) : Call → Option JoinRequest
  | .join uuid request _ =>
    if answer.accepts ∧ (request.memberId = memberId ∨ request.memberId = "" ∧ request.madeMemberId uuid = memberId)
    then some request
    else none
  | _ => none

/-- The last `JoinGroup` of a member that was accepted. The latest event comes first. -/
def lastJoin (events : List Event) (memberId : String) : Option JoinRequest :=
  events.findSome? fun event => event.call.acceptedJoin event.answer memberId

/-- Every member has listed the group's protocol when it last joined. -/
def Wrapper.ListedBy (group : Wrapper) (events : List Event) : Prop :=
  ∀ memberId ∈ group.members, ∃ names request,
    group.names = some names ∧ lastJoin events memberId = some request ∧ request.Lists names

namespace History

/-- How many generations have begun. -/
def generations (history : History) : Nat :=
  history.events.countP fun event => event.before.generationId ≠ event.after.generationId

/-- The generations and the protocols of what a group has been: a generation has one protocol, and its members
have listed it. -/
structure Chronicle (history : History) : Prop where
  current : ∀ event ∈ history.events, event.after.generationId < history.group.generationId ∨
    event.after.generationId = history.group.generationId ∧
      ∀ names ∈ event.after.names, history.group.names = some names
  agree : ∀ one ∈ history.events, ∀ other ∈ history.events, one.after.generationId = other.after.generationId →
    ∀ names ∈ one.after.names, ∀ called ∈ other.after.names, names = called
  listed : history.group.ListedBy history.events
  before : ∀ event earlier, event :: earlier <:+ history.events → event.after.ListedBy (event :: earlier)

end History

theorem Roster.Joins.mem {before : Roster} {request : JoinRequest}
    (joins : before.Joins uuid request offered after) (present : memberId ∈ after.members) :
    memberId ∈ before.members ∨ request.memberId = memberId ∨
      request.memberId = "" ∧ request.madeMemberId uuid = memberId := by
  cases joins with
  | issued _ _ response =>
    rw [← Roster.isSome_response, response] at present
    exact .inl (Roster.isSome_response.mp present)
  | added unnamed _ response =>
    rcases (Roster.mem_update response).mp present with rfl | earlier
    exacts [.inr (.inr ⟨unnamed, rfl⟩), .inl earlier]
  | pending _ response | rejoined _ response =>
    rcases (Roster.mem_update response).mp present with rfl | earlier
    exacts [.inr (.inl rfl), .inl earlier]
  | replaced unnamed _ _ _ response =>
    rcases (Roster.mem_rename response).mp present with rfl | ⟨_, earlier⟩
    exacts [.inr (.inr ⟨unnamed, rfl⟩), .inl earlier]

theorem Wrapper.names_of_sound {group : Wrapper} (sound : group.Sound) (member : memberId ∈ group.members) :
    ∃ names, group.names = some names := by
  cases group with
  | forming =>
    obtain ⟨protocol, held⟩ := isSome_iff_exists.mp (sound.protocol memberId member)
    exact ⟨(protocol.protocolType, protocol.protocolName), by rw [Wrapper.names, Inner.names, held]; rfl⟩
  | formed => exact ⟨_, rfl⟩

theorem Call.names_joining {names : Option (String × String)} {uuid : String} {delay : Duration}
    (chosen : (Call.join uuid request delay).names names later)
    (accepted : request.joiningProtocol names = .ok offered) (given : later = some called) :
    called = (request.protocolType, offered.name) := by
  rcases chosen with rfl | ⟨rfl, _, _, _, _, ⟨⟩, chosen, rfl⟩
  · rcases JoinRequest.names_of_joiningProtocol accepted with none | held
    · cases none.symm.trans given
    · exact some.inj (given.symm.trans held)
  · cases chosen.symm.trans accepted
    exact (some.inj given).symm

section

variable {group : Wrapper} {now : SystemTime} {call : Call}

theorem Call.eq_join_of_acceptedJoin (joined : call.acceptedJoin answer memberId = some request) :
    (∃ uuid delay, call = .join uuid request delay) ∧ answer.accepts = true := by
  cases call with
  | join uuid _ delay =>
    rw [acceptedJoin, ite_some_none_eq_some] at joined
    obtain ⟨⟨accepts, _⟩, rfl⟩ := joined
    exact ⟨⟨uuid, delay, rfl⟩, accepts⟩
  | settle | sync | heartbeat | leave | checkOffsetCommit => cases joined

namespace Wrapper

theorem joiningProtocol_of_accepts {request : JoinRequest}
    (accepts : (Answer.reply (group.join now uuid request delay).2).accepts = true) :
    ∃ offered, request.joiningProtocol group.names = .ok offered := by
  have refuses : ∀ errorCode, request.joiningProtocol group.names = .error errorCode →
      (Answer.reply (joinError request.memberId errorCode)).accepts ≠ true := fun _ refused =>
    Bool.eq_false_iff.mp (accepts_joinError (JoinRequest.ne_none_of_joiningProtocol refused))
  cases group with
  | forming inner =>
    simp only [join] at accepts
    rw [Inner.joinForming] at accepts
    split at accepts
    next errorCode refused => exact absurd accepts (refuses errorCode refused)
    next offered accepted => exact ⟨offered, accepted⟩
  | formed inner =>
    rw [join, Inner.joinFormed] at accepts
    split at accepts
    next errorCode refused => exact absurd accepts (refuses errorCode refused)
    next offered accepted => exact ⟨offered, accepted⟩

theorem members_of_refused (sound : group.Sound) {request : JoinRequest}
    (refused : (Answer.reply (group.join now uuid request delay).2).accepts = false) :
    (group.join now uuid request delay).1.members = group.members := by
  cases group with
  | forming inner =>
    have spec := inner.joinForming_spec sound now uuid request delay
    simp only [join] at refused ⊢
    generalize inner.joinForming now uuid request delay = result at spec refused ⊢
    cases spec with
    | refused members => exact members
    | repeated => rfl
    | entered enters => cases refused.symm.trans enters.accepts
  | formed inner =>
    have spec := inner.joinFormed_spec now uuid request delay
    simp only [join] at refused ⊢
    generalize inner.joinFormed now uuid request delay = result at spec refused ⊢
    cases spec with
    | refused members => exact members
    | replaced => split at refused <;> cases refused
    | follows => rfl
    | entered _ enters => cases refused.symm.trans enters.accepts

/-- One becomes a member only by a `JoinGroup` that is accepted. -/
theorem mem_of_acceptedJoin (sound : group.Sound) (member : memberId ∈ (group.call now call).1.members)
    (unasked : call.acceptedJoin (group.call now call).2 memberId = none) : memberId ∈ group.members := by
  rcases group.call_roster now call with dwindles | ⟨uuid, request, delay, rfl, same | ⟨_, _, _, joins, dwindles⟩⟩
  · exact dwindles.mem member
  · exact (same ▸ member : memberId ∈ group.roster.members)
  · rcases joins.mem (dwindles.mem member) with before | asks
    · exact before
    · have refused : (group.call now (.join uuid request delay)).2.accepts = false :=
        Bool.eq_false_iff.mpr fun accepts => some_ne_none _ ((if_pos ⟨accepts, asks⟩).symm.trans unasked)
      exact members_of_refused sound refused ▸ member

end Wrapper

end

namespace History

variable {history : History} {now : SystemTime} {call : Call}

theorem Chronicle.listed_next (chronicle : history.Chronicle) (sound : history.group.Sound)
    (now : SystemTime) (call : Call) :
    (history.next now call).group.ListedBy (history.next now call).events := by
  intro memberId member
  obtain ⟨names, held⟩ := Wrapper.names_of_sound (sound.call now call) member
  obtain ⟨later, chosen, turns⟩ := Wrapper.generation_call sound now call
  have given : later = some names := by
    rcases turns with ⟨_, same⟩ | ⟨_, filled⟩
    · exact same.symm.trans held
    · exact (filled (OrderedMap.isEmpty_eq_false member)).symm.trans held
  cases joined : call.acceptedJoin (history.group.call now call).2 memberId with
  | some request =>
    obtain ⟨⟨uuid, delay, rfl⟩, accepts⟩ := Call.eq_join_of_acceptedJoin joined
    obtain ⟨offered, accepted⟩ := Wrapper.joiningProtocol_of_accepts accepts
    obtain rfl := Call.names_joining chosen accepted given
    obtain ⟨protocols, listed, offers⟩ := JoinRequest.listed_of_joiningProtocol accepted
    refine ⟨_, request, held, ?_, rfl, protocols, listed, offered, offers, rfl⟩
    simp only [lastJoin, next, List.findSome?_cons, joined]
  | none =>
    -- One that was a member before has not joined since.
    obtain ⟨_, request, agreed, last, lists⟩ :=
      chronicle.listed memberId (Wrapper.mem_of_acceptedJoin sound member joined)
    rcases chosen with same | ⟨unnamed, _⟩
    · rw [given, agreed, some.injEq] at same
      refine ⟨names, request, held, ?_, same ▸ lists⟩
      simp only [lastJoin, next, List.findSome?_cons, joined]
      exact last
    · cases unnamed.symm.trans agreed

theorem Chronicle.next (chronicle : history.Chronicle) (sound : history.group.Sound) :
    (history.next now call).Chronicle := by
  have listed := chronicle.listed_next sound now call
  obtain ⟨later, chosen, turns⟩ := Wrapper.generation_call sound now call
  -- What the group was, in the generation that it has now.
  have current : ∀ event ∈ history.events, event.after.generationId < (history.next now call).group.generationId ∨
      event.after.generationId = (history.next now call).group.generationId ∧
        ∀ names ∈ event.after.names, (history.next now call).group.names = some names := by
    intro event happened
    rcases turns with ⟨generation, named⟩ | ⟨completes, _⟩
    · rcases chronicle.current event happened with before | ⟨same, agreed⟩
      · exact .inl (generation ▸ before)
      · refine .inr ⟨same.trans generation.symm, fun names given => ?_⟩
        have held := agreed names given
        rcases chosen with rfl | ⟨none, _⟩
        · exact named.trans held
        · cases none.symm.trans held
    · have next : (history.next now call).group.generationId = history.group.generationId + 1 :=
        completes.generation
      rcases chronicle.current event happened with before | ⟨same, _⟩ <;> omega
  refine ⟨fun event happened => ?_, fun one first other second same names named called calls => ?_, listed,
    fun event earlier happened => ?_⟩
  · rcases List.mem_cons.mp happened with rfl | before
    · exact .inr ⟨rfl, fun names given => given⟩
    · exact current event before
  · rcases List.mem_cons.mp first with rfl | oneBefore <;> rcases List.mem_cons.mp second with rfl | otherBefore
    · exact some.inj (named.symm.trans calls)
    · rcases current other otherBefore with earlier | ⟨_, agreed⟩
      · exact absurd same.symm (Int.ne_of_lt earlier)
      · exact some.inj (named.symm.trans (agreed called calls))
    · rcases current one oneBefore with earlier | ⟨_, agreed⟩
      · exact absurd same (Int.ne_of_lt earlier)
      · exact some.inj ((agreed names named).symm.trans calls)
    · exact chronicle.agree one oneBefore other otherBefore same names named called calls
  · rcases List.suffix_cons_iff.mp happened with same | before
    · obtain ⟨rfl, rfl⟩ := List.cons.inj same
      exact listed
    · exact chronicle.before event earlier before

theorem generationId_next (sound : history.group.Sound) (counted : history.group.generationId = history.generations) :
    (history.next now call).group.generationId = (history.next now call).generations := by
  obtain ⟨_, _, ⟨same, _⟩ | ⟨completes, _⟩⟩ := Wrapper.generation_call sound now call
  · have count : (history.next now call).generations = history.generations :=
      List.countP_cons_of_neg (by simpa using same.symm)
    rw [count]
    exact same.trans counted
  · have begun : (history.group.call now call).1.generationId = history.group.generationId + 1 := completes.generation
    have count : (history.next now call).generations = history.generations + 1 :=
      List.countP_cons_of_pos (decide_eq_true fun same => Int.ne_of_lt (Int.lt_succ _) (same.trans begun))
    rw [count, Int.natCast_add, ← counted]
    exact begun

variable (reached : machine.Reachable history)

include reached

theorem chronicle_of_reachable : history.Chronicle := by
  induction reached with
  | init initial =>
    obtain ⟨_, rfl⟩ := initial
    exact ⟨fun _ none => absurd none List.not_mem_nil, fun _ none => absurd none List.not_mem_nil,
      fun _ present => absurd present ExtTreeMap.not_mem_empty,
      fun _ _ none => absurd (List.suffix_nil.mp none) (List.cons_ne_nil _ _)⟩
  | step before _ taken ih =>
    obtain ⟨_⟩ := taken
    exact ih.next (sound_of_reachable before)

theorem events_of_reachable : ∀ event ∈ history.events,
    event.before.Sound ∧ event.after = (event.before.call event.now event.call).1 ∧
      event.answer = (event.before.call event.now event.call).2 := by
  induction reached with
  | init initial =>
    obtain ⟨_, rfl⟩ := initial
    exact fun _ none => absurd none List.not_mem_nil
  | step before _ taken ih =>
    obtain ⟨_⟩ := taken
    intro event happened
    rcases List.mem_cons.mp happened with rfl | earlier
    · exact ⟨sound_of_reachable before, rfl, rfl⟩
    · exact ih event earlier

theorem generations_of_reachable :
    history.events.Pairwise fun later earlier => earlier.after.generationId ≤ later.after.generationId := by
  induction reached with
  | init initial =>
    obtain ⟨_, rfl⟩ := initial
    exact .nil
  | step before permitted taken ih =>
    have next := chronicle_of_reachable (before.next taken permitted)
    obtain ⟨_⟩ := taken
    refine .cons (fun earlier happened => ?_) ih
    exact (next.current earlier (List.mem_cons_of_mem _ happened)).elim Int.le_of_lt
      fun same => Int.le_of_eq same.1

theorem generationId_of_reachable : history.group.generationId = history.generations := by
  induction reached with
  | init initial =>
    obtain ⟨_, rfl⟩ := initial
    rfl
  | step before _ taken ih =>
    obtain ⟨_⟩ := taken
    exact generationId_next (sound_of_reachable before) ih

theorem le_generations_of_reachable : ∀ event ∈ history.events,
    0 ≤ event.after.generationId ∧ event.after.generationId ≤ history.generations := by
  have last := generationId_of_reachable reached
  refine fun event happened => ⟨?_, ?_⟩
  · clear last
    induction reached with
    | init initial =>
      obtain ⟨_, rfl⟩ := initial
      exact absurd happened List.not_mem_nil
    | step before permitted taken ih =>
      have begun := generationId_of_reachable (before.next taken permitted)
      obtain ⟨_⟩ := taken
      rcases List.mem_cons.mp happened with rfl | earlier
      · exact begun ▸ Int.natCast_nonneg _
      · exact ih earlier
  · rcases (chronicle_of_reachable reached).current event happened with earlier | ⟨same, _⟩ <;> omega

end History

theorem Wrapper.generation_iff {group : Wrapper} (sound : group.Sound) (now : SystemTime) (call : Call) :
    (group.Completes now (group.call now call).1 → (group.call now call).1.generationId = group.generationId + 1) ∧
    (¬ group.Completes now (group.call now call).1 → (group.call now call).1.generationId = group.generationId) := by
  obtain ⟨_, _, turns⟩ := generation_call sound now call
  refine ⟨fun completes => completes.generation, fun goes => ?_⟩
  rcases turns with ⟨same, _⟩ | ⟨completes, _⟩
  · exact same
  · exact absurd completes goes

/-- The generations of a group, over any run in which no more of them begin than an `i32` counts. -/
theorem one_leader_and_one_assignment {history : History} (reached : History.machine.Reachable history)
    (few : history.generations ≤ Int32.maxValue.toInt) :
    (∀ event ∈ history.events,
      0 ≤ event.after.generationId ∧ event.after.generationId ≤ Int32.maxValue.toInt) ∧
    -- Generations do not decrease, and a completed join phase begins the next one.
    (history.events.Pairwise fun later earlier => earlier.after.generationId ≤ later.after.generationId) ∧
    (∀ event ∈ history.events, (event.before.Completes event.now event.after →
        event.after.generationId = event.before.generationId + 1) ∧
      (¬ event.before.Completes event.now event.after → event.after.generationId = event.before.generationId)) ∧
    -- All members are told one protocol, and at most one of them to assign.
    (∀ one ∈ history.events, ∀ response ∈ one.answer.joined,
      ∀ other ∈ history.events, ∀ reply ∈ other.answer.joined, response.generationId = reply.generationId →
        response.protocolType = reply.protocolType ∧ response.protocolName = reply.protocolName ∧
        (toldToLead response = true → toldToLead reply = true → response.memberId = reply.memberId)) ∧
    -- Everyone in the generation has listed the protocol in the last `JoinGroup` of theirs that was accepted.
    (∀ one ∈ history.events, ∀ response ∈ one.answer.joined,
      ∀ other earlier, other :: earlier <:+ history.events → other.after.generationId = response.generationId →
        ∀ memberId ∈ other.after.members, ∃ request protocolType protocolName,
          response.protocolType = some protocolType ∧ response.protocolName = some protocolName ∧
          lastJoin (other :: earlier) memberId = some request ∧ request.Lists (protocolType, protocolName)) ∧
    -- One assignment is installed, and every member is answered what it gives to the member whose place it has.
    ((history.events.filterMap (·.installed)).map (·.1)).Nodup ∧ (∀ event ∈ history.events, ∀ answer ∈ event.answered,
      Rounds.Entitled (history.events.filterMap (·.installed)) (history.events.filterMap (·.replaced))
        answer.1 answer.2.1 answer.2.2) := by
  have rounds := History.rounds_of_reachable reached
  have invited := Rounds.invited_of_reachable rounds
  have assigned := Rounds.assigned_of_reachable rounds
  have chronicle := History.chronicle_of_reachable reached
  have calls := History.events_of_reachable reached
  refine ⟨fun event happened => ?_, History.generations_of_reachable reached, fun event happened => ?_,
    fun one first response told other second reply answered same => ?_,
    fun one first response told other earlier happened same memberId member => ?_, assigned.once,
    fun event happened answer answered => ?_⟩
  · obtain ⟨counted, last⟩ := History.le_generations_of_reachable reached event happened
    exact ⟨counted, Int.le_trans last few⟩
  · obtain ⟨sound, after, _⟩ := calls event happened
    rw [after]
    exact Wrapper.generation_iff sound event.now event.call
  · have invitation : ∀ event ∈ history.events, ∀ response ∈ event.answer.joined,
        invitationOf response ∈ history.rounds.invitations := by
      intro event happened response told
      exact List.mem_filterMap.mpr ⟨event, happened, by rw [told]; rfl⟩
    obtain ⟨protocol, leads⟩ := invited.agree _ (invitation one first response told) _
      (invitation other second reply answered) same
    obtain ⟨protocolType, protocolName⟩ := Prod.mk.inj protocol
    exact ⟨protocolType, protocolName, leads⟩
  · obtain ⟨sound, after, answer⟩ := calls one first
    have tells : one.after.Tells response := by
      rw [after]
      exact tells_call sound (answer ▸ told)
    have second : other ∈ history.events := happened.subset List.mem_cons_self
    obtain ⟨names, request, named, last, lists⟩ := chronicle.before other earlier happened memberId member
    obtain ⟨generation, protocol⟩ := tells
    obtain ⟨called, held, same_protocol⟩ := map_eq_some_iff.mp protocol
    obtain rfl := chronicle.agree one first other second (generation.symm.trans same.symm) called held names named
    obtain ⟨protocolType, protocolName⟩ := Prod.mk.inj same_protocol
    exact ⟨request, _, _, protocolType.symm, protocolName.symm, last, lists⟩
  · exact assigned.answered answer (List.mem_filterMap.mpr ⟨event, happened, answered⟩)

def restarted : List (SystemTime × Call) :=
  [(0, .join "a" (plainJoin 0 "" none) 0), (0, .join "s" (plainJoin 0 "" (some "i")) 0),
    (fromMillis 1000, .settle), (fromMillis 1000, .join "" (plainJoin 0 "a" none) 0),
    (fromMillis 1000, .sync
      { generationId := 1, memberId := "a", groupInstanceId := none, protocolType := none, protocolName := none
        assignments := some [{ memberId := "a", assignment := [1] }, { memberId := "i-s", assignment := [2] }] }),
    (fromMillis 1000, .join "t" (plainJoin 0 "" (some "i")) 0),
    (fromMillis 1000, .sync
      { generationId := 1, memberId := "i-t", groupInstanceId := some "i", protocolType := none
        protocolName := none, assignments := none })]

/-- The restarted member is answered what the leader assigned to its earlier instance. -/
theorem one_leader_and_one_assignment_restarted : ∃ history, History.machine.Reachable history ∧
    history.generations ≤ Int32.maxValue.toInt ∧ (∃ event ∈ history.events, event.answered = some (1, "i-t", [2])) ∧
    Rounds.Entitled (history.events.filterMap (·.installed)) (history.events.filterMap (·.replaced))
      1 "i-t" [2] := by
  have reached : History.machine.Reachable ((History.start 0).handleAll restarted) :=
    History.reachable_of_admissible restarted (by decide +kernel)
  have few : ((History.start 0).handleAll restarted).generations ≤ Int32.maxValue.toInt := by decide +kernel
  have answered : ∃ event ∈ ((History.start 0).handleAll restarted).events,
      event.answered = some (1, "i-t", [2]) := ⟨_, List.mem_cons_self, by decide +kernel⟩
  refine ⟨_, reached, few, answered, ?_⟩
  obtain ⟨event, happened, answer⟩ := answered
  exact (one_leader_and_one_assignment reached few).2.2.2.2.2.2 event happened _ answer

end Nisshi.Coordinator
