import Nisshi.Lib.Rounds
import Nisshi.Coordinator.Invariant

/-! What each call makes of a group: of its generation, of its protocol, and of how far it has got with the
assignment, and how the call is answered. -/

namespace Nisshi.Coordinator

open Nisshi.SansIo Nisshi.Storage Nisshi.Lib Option
open Std (ExtTreeMap ExtTreeSet)

namespace Inner

variable {inner next : Inner Forming} {now : SystemTime} {memberId : String} {request : JoinRequest}

@[simp]
theorem names_setLeader : (inner.setLeader leader).names = inner.names := by
  simp only [names, Inner.setLeader, Forming.setLeader, map_map]
  rfl

theorem names_electLeader : (inner.electLeader joinPhase).names = inner.names := by
  rw [electLeader]
  split
  exacts [rfl, names_setLeader]

/-- What a join phase comes to: it goes on, or it is completed and begins the next generation. -/
inductive Advance (now : SystemTime) (before : Inner Forming) : Inner Forming → Prop
  | waits {after : Inner Forming} (phase : after.state.joinPhase.isSome = true)
      (generation : after.generationId = before.generationId) (names : after.names = before.names) :
      Advance now before after
  | completes {during : Inner Forming} {joinPhase : JoinPhase}
      (phase : during.state.joinPhase = some joinPhase)
      (generation : during.generationId = before.generationId) (names : during.names = before.names)
      (ended : (during.completeJoin now).state.joinPhase = none) : Advance now before (during.completeJoin now)

theorem completeJoin_spec (now : SystemTime) (phase : inner.state.joinPhase = some joinPhase) :
    ((inner.completeJoin now).state.joinPhase.isSome = true ∧
      (inner.completeJoin now).generationId = inner.generationId ∧ (inner.completeJoin now).names = inner.names) ∨
    ((inner.completeJoin now).state.joinPhase = none ∧ (inner.completeJoin now).generationId = inner.generationId + 1 ∧
      (inner.completeJoin now).names = if (inner.completeJoin now).members.isEmpty then none else inner.names) := by
  simp only [completeJoin, phase]
  split
  next => exact .inl ⟨rfl, rfl, rfl⟩
  next =>
    have elected : ((inner.keepJoined joinPhase).electLeader joinPhase).generationId = inner.generationId ∧
        ((inner.keepJoined joinPhase).electLeader joinPhase).state.joinPhase = none := by
      rw [electLeader]
      split <;> exact ⟨rfl, rfl⟩
    have names : ((inner.keepJoined joinPhase).electLeader joinPhase).names = inner.names := names_electLeader
    generalize (inner.keepJoined joinPhase).electLeader joinPhase = led at elected names ⊢
    obtain ⟨generation, ended⟩ := elected
    rw [startGeneration]
    split
    next => exact .inr ⟨ended, by rw [← generation], by simp [Inner.names]⟩
    next filled =>
      refine .inr ⟨ended, by rw [← generation], ?_⟩
      have still : (led.members.map fun _ member => { member with lastContact := some now }).isEmpty = false := by
        obtain ⟨_, present⟩ := OrderedMap.exists_mem (Bool.eq_false_iff.mpr filled)
        exact OrderedMap.isEmpty_eq_false (ExtTreeMap.mem_map.mpr present)
      simp only [still, Bool.false_eq_true, if_false]
      exact names

theorem Advance.refl (phase : inner.state.joinPhase.isSome = true) : Advance now inner inner :=
  .waits phase rfl rfl

theorem Advance.of (advance : Advance now during after) (generation : during.generationId = inner.generationId)
    (names : during.names = inner.names) : Advance now inner after := by
  cases advance with
  | waits phase later same => exact .waits phase (later.trans generation) (same.trans names)
  | completes phase later same ended => exact .completes phase (later.trans generation) (same.trans names) ended

theorem Advance.ends (ends : Ends due now inner next) (phase : inner.state.joinPhase.isSome = true) :
    Advance now inner next := by
  induction ends with
  | refl => exact .refl phase
  | extended _ _ _ _ ih => exact (ih rfl).of rfl rfl
  | completed held _ rest ih =>
    rcases completeJoin_spec now held with ⟨waits, generation, names⟩ | ⟨ended, _⟩
    · -- Only static members remain, which get another join phase.
      exact (ih waits).of generation names
    · rw [rest.eq_of_none ended]
      exact .completes held rfl rfl ended

theorem joinPhase_prepareRebalance (inner : Inner Forming) (now : SystemTime) :
    (inner.prepareRebalance now).state.joinPhase.isSome = true ∧
    (inner.prepareRebalance now).generationId = inner.generationId ∧
    (inner.prepareRebalance now).names = inner.names := by
  rw [prepareRebalance]
  split <;> exact ⟨rfl, rfl, rfl⟩

theorem joinPhase_ensureJoinPhase (inner : Inner Forming) (now : SystemTime) :
    (inner.ensureJoinPhase now).state.joinPhase.isSome = true ∧
    (inner.ensureJoinPhase now).generationId = inner.generationId ∧
    (inner.ensureJoinPhase now).names = inner.names := by
  rw [ensureJoinPhase]
  split
  next => exact inner.joinPhase_prepareRebalance now
  next phase => exact ⟨Option.isSome_iff_ne_none.mpr (by simpa using phase), rfl, rfl⟩

theorem joinPhase_enterJoinPhase (inner : Inner Forming) (now : SystemTime) (isEmpty : Bool) (delay : Duration) :
    (inner.enterJoinPhase now isEmpty delay).state.joinPhase.isSome = true ∧
    (inner.enterJoinPhase now isEmpty delay).generationId = inner.generationId ∧
    (inner.enterJoinPhase now isEmpty delay).names = inner.names := by
  rw [enterJoinPhase]
  split
  · exact ⟨rfl, rfl, rfl⟩
  · split
    exacts [⟨rfl, rfl, rfl⟩, inner.joinPhase_prepareRebalance now]

theorem Advance.joined (phase : inner.state.joinPhase.isSome = true) :
    Advance now inner (inner.joined now memberId).1 := by
  refine (Advance.ends (.joined inner now memberId) ?_).of rfl rfl
  rw [markJoined, setJoinPhase, isSome_map]
  exact phase

theorem names_forgetRemovedMembers (inner : Inner Forming) : inner.forgetRemovedMembers.names = inner.names ∧
    inner.forgetRemovedMembers.generationId = inner.generationId := by
  simp only [forgetRemovedMembers, Inner.setJoinPhase]
  split
  · exact ⟨names_setLeader, rfl⟩
  · exact ⟨rfl, rfl⟩

end Inner

namespace Wrapper

def stage : Wrapper → Rounds.Stage String (List UInt8)
  | .forming inner =>
    if inner.isCompletingRebalance then .awaiting (inner.state.leader.getD "") else .gathering
  | .formed inner => .settled inner.state.leader fun memberId => inner.state.assignments[memberId]?

/-- What a call makes of a group that has `generation`, `names` and `stage`: it goes on as it is, or it is in a
join phase, which may have been completed. -/
inductive Turn (now : SystemTime) (generation : Int) (names : Option (String × String))
    (stage : Rounds.Stage String (List UInt8)) : Wrapper → Prop
  | stays {after : Wrapper} (same : after.generationId = generation) (named : after.names = names)
      (remains : after.stage = stage) : Turn now generation names stage after
  | advances {before after : Inner Forming} (same : before.generationId = generation)
      (named : before.names = names) (advance : before.Advance now after) :
      Turn now generation names stage (.forming after)

variable {group : Wrapper} {now : SystemTime}

variable {inner : Inner Forming}

theorem stage_of_joinPhase (phase : inner.state.joinPhase.isSome = true) : (forming inner).stage = .gathering := by
  rw [stage]
  simp [Inner.isCompletingRebalance, isSome_iff_ne_none.mp phase]

theorem stage_of_empty (empty : inner.members.isEmpty = true) : (forming inner).stage = .gathering := by
  rw [stage]
  simp [Inner.isCompletingRebalance, empty]

theorem turn_of_formed {inner : Inner Formed} (state : next.state = inner.state)
    (generation : next.generationId = inner.generationId) :
    Turn now inner.generationId (formed inner).names (formed inner).stage (formed next) :=
  .stays generation (by rw [names, names, state]) (by rw [stage, stage, state])

theorem stage_congr (members : ∀ id, id ∈ next.members ↔ id ∈ inner.members) (state : next.state = inner.state) :
    (forming next).stage = (forming inner).stage := by
  have empty : next.members.isEmpty = inner.members.isEmpty := by
    rw [Bool.eq_iff_iff, OrderedMap.isEmpty_iff_forall_not_mem, OrderedMap.isEmpty_iff_forall_not_mem]
    exact forall_congr' fun id => (members id).not
  rw [stage, stage, Inner.isCompletingRebalance, Inner.isCompletingRebalance, state, empty]

theorem turn_of_forming (members : ∀ id, id ∈ next.members ↔ id ∈ inner.members) (state : next.state = inner.state)
    (generation : next.generationId = inner.generationId) :
    Turn now inner.generationId inner.names (forming inner).stage (forming next) :=
  .stays generation (by rw [names, Inner.names, state]; rfl) (stage_congr members state)

theorem turn_of_passes {next : Wrapper} (passes : Passes due now group next) :
    Turn now group.generationId group.names group.stage next := by
  have tidy : ∀ {inner kept : Inner Forming}, inner.Removal kept → kept.forgetRemovedMembers.names = inner.names ∧
      kept.forgetRemovedMembers.generationId = inner.generationId := by
    intro inner kept removal
    obtain ⟨names, generation⟩ := kept.names_forgetRemovedMembers
    cases removal
    exact ⟨names, generation⟩
  cases passes with
  | @rests inner during next rests ends =>
    obtain ⟨generation, members⟩ := rests.spec
    cases phase : inner.state.joinPhase with
    | none =>
      rw [ends.eq_of_none (rests.state ▸ phase)]
      exact turn_of_forming members rests.state generation
    | some =>
      refine .advances generation ?_ (.ends ends ?_)
      · rw [Inner.names, rests.state]
        rfl
      · rw [rests.state, phase]
        rfl
  | restsFormed rests => exact turn_of_formed rests.state rests.spec.1
  | removes removal phase _ ends =>
    exact .advances (tidy removal).2 (tidy removal).1 (.ends ends (removal.joinPhase_isSome.trans phase))
  | @rebalances inner kept next removal _ ends =>
    obtain ⟨phase, same, named⟩ := kept.forgetRemovedMembers.joinPhase_prepareRebalance now
    exact .advances (same.trans (tidy removal).2) (named.trans (tidy removal).1) (.ends ends phase)
  | idles removal _ empty =>
    refine .stays (tidy removal).2 (tidy removal).1 ?_
    rw [stage_of_empty empty, stage_of_empty]
    refine OrderedMap.isEmpty_iff_forall_not_mem.mpr fun id present => ?_
    rw [Inner.members_forgetRemovedMembers] at present
    exact OrderedMap.isEmpty_iff_forall_not_mem.mp empty id (removal.mem present)
  | reopens removal ends =>
    cases removal
    exact .advances rfl rfl (.ends ends rfl)

end Wrapper

def Answer.joined : Answer → Option JoinGroupResponse
  | .reply (.ready (.joinGroup response)) => if response.errorCode = .none then some response else none
  | _ => none

def Answer.synced : Answer → Option SyncGroupResponse
  | .reply (.ready (.syncGroup response)) => if response.errorCode = .none then some response else none
  | _ => none

/-- A `JoinGroup` that is accepted is answered without an error, or held until its join phase completes. -/
def Answer.accepts : Answer → Bool
  | .reply (.held _) => true
  | answer => answer.joined.isSome

theorem joined_of_refused {answer : Answer} (refused : answer.accepts = false) : answer.joined = none := by
  unfold Answer.accepts at refused
  split at refused
  · cases refused
  · exact not_isSome_iff_eq_none.mp (Bool.eq_false_iff.mp refused)

/-! What a `JoinGroup` makes of a group, and how it is answered. -/

namespace JoinRequest

variable {request : JoinRequest} {offered : JoinGroupRequestProtocol} {errorCode : ErrorCode}

variable {names : Option (String × String)}

theorem ne_none_of_joiningProtocol (refused : request.joiningProtocol names = .error errorCode) :
    errorCode ≠ .none := by
  simp only [joiningProtocol] at refused
  repeat' split at refused
  all_goals cases refused
  all_goals decide

theorem names_of_joiningProtocol (accepted : request.joiningProtocol names = .ok offered) :
    names = none ∨ names = some (request.protocolType, offered.name) := by
  cases names with
  | none => exact .inl rfl
  | some =>
    right
    simp only [joiningProtocol] at accepted
    split at accepted
    · cases accepted
    · split at accepted
      · cases accepted
      next same =>
        split at accepted
        next found =>
          cases accepted
          have called := List.find?_some found
          rw [not_not.mp same, beq_iff_eq.mp called]
        next => cases accepted

theorem listed_of_joiningProtocol (accepted : request.joiningProtocol names = .ok offered) :
    ∃ protocols, request.protocols = some protocols ∧ offered ∈ protocols := by
  simp only [joiningProtocol] at accepted
  repeat' split at accepted
  all_goals try cases accepted
  next protocols given _ _ _ _ _ found => exact ⟨protocols, given, List.mem_of_find?_eq_some found⟩
  next protocols given _ _ _ found => exact ⟨protocols, given, List.mem_of_head? found⟩

end JoinRequest

variable {errorCode : ErrorCode}

theorem accepts_joinError (refused : errorCode ≠ .none) :
    (Answer.reply (joinError memberId errorCode)).accepts = false :=
  congrArg isSome (if_neg refused)

theorem ne_none_of_refusals (refused : errorCode ∈ refusals) : errorCode ≠ .none := by
  rintro rfl
  revert refused
  decide

namespace Inner

/-- A member that joins a join phase is answered if that completes it. -/
inductive Enters (now : SystemTime) (generation : Int) (names : Option (String × String))
    (request : JoinRequest) : Inner Forming × Reply → Prop
  | enters {before after : Inner Forming} {offered : JoinGroupRequestProtocol} {memberId : String}
      (accepted : request.joiningProtocol names = .ok offered) (same : before.generationId = generation)
      (named : before.names = some (request.protocolType, offered.name)) (advance : before.Advance now after) :
      Enters now generation names request (after, after.replyToJoined memberId)

theorem Enters.accepts {now : SystemTime} {generation : Int} {names : Option (String × String)} {request : JoinRequest}
    {result : Inner Forming × Reply} (enters : Enters now generation names request result) :
    (Answer.reply result.2).accepts = true := by
  obtain ⟨_, _, _, _⟩ := enters
  simp only [replyToJoined]
  split <;> rfl

section

variable {inner : Inner Forming} {now : SystemTime} {memberId : String} {request : JoinRequest}
  {offered : JoinGroupRequestProtocol} {delay : Duration}

theorem names_seatMember (inner : Inner Forming) (now : SystemTime) (memberId : String)
    (accepted : request.joiningProtocol inner.names = .ok offered) :
    (inner.seatMember now memberId request offered).generationId = inner.generationId ∧
    (inner.seatMember now memberId request offered).names = some (request.protocolType, offered.name) := by
  have adopted : (inner.adoptProtocol request offered).generationId = inner.generationId ∧
      (inner.adoptProtocol request offered).names = some (request.protocolType, offered.name) := by
    rw [adoptProtocol]
    split
    next => exact ⟨rfl, rfl⟩
    next held =>
      refine ⟨rfl, (JoinRequest.names_of_joiningProtocol accepted).resolve_left fun none => held ?_⟩
      exact isNone_iff_eq_none.mpr (map_eq_none_iff.mp none)
  simp only [seatMember]
  split
  · exact ⟨adopted.1, names_setLeader.trans adopted.2⟩
  · exact adopted

theorem addMember_enters (inner : Inner Forming) (accepted : request.joiningProtocol inner.names = .ok offered) :
    Enters now inner.generationId inner.names request (inner.addMember now memberId request offered delay) := by
  obtain ⟨seated, called⟩ := inner.names_seatMember now memberId accepted
  obtain ⟨phase, same, named⟩ := (inner.seatMember now memberId request offered).joinPhase_enterJoinPhase now
    (inner.members.isEmpty && inner.state.joinPhase.isNone) delay
  exact .enters accepted (same.trans seated) (named.trans called) (.joined phase)

theorem updateMember_enters (inner : Inner Forming) (accepted : request.joiningProtocol inner.names = .ok offered)
    (called : inner.names = some (request.protocolType, offered.name)) :
    Enters now inner.generationId inner.names request
      (inner.updateMember now memberId request offered.metadata) := by
  simp only [updateMember]
  split
  next waits =>
    obtain ⟨_, phase, _⟩ := (any_eq_true _ _).mp (Bool.and_eq_true_iff.mp waits).1
    exact .enters accepted rfl called (.refl (by rw [phase]; rfl))
  next =>
    obtain ⟨phase, same, named⟩ :=
      (inner.upsertMember now memberId request offered.metadata).joinPhase_ensureJoinPhase now
    exact .enters accepted same (named.trans called) (.joined phase)

theorem names_handOver (inner : Inner Forming) (old new : String) :
    (inner.handOver old new).generationId = inner.generationId ∧ (inner.handOver old new).names = inner.names := by
  have renamed : (inner.renameMember old new).generationId = inner.generationId ∧
      (inner.renameMember old new).names = inner.names := by
    rw [renameMember]
    split <;> exact ⟨rfl, rfl⟩
  simp only [handOver]
  split
  · exact ⟨renamed.1, names_setLeader.trans renamed.2⟩
  · exact renamed

theorem replaceStaticMember_enters (accepted : request.joiningProtocol inner.names = .ok offered)
    (called : inner.names = some (request.protocolType, offered.name)) {new : String} :
    Enters now inner.generationId inner.names request
      (inner.replaceStaticMember now old new request offered.metadata) := by
  obtain ⟨kept, renamed⟩ := inner.names_handOver old new
  obtain ⟨phase, same, named⟩ :=
    ((inner.handOver old new).upsertMember now new request offered.metadata).joinPhase_ensureJoinPhase now
  exact .enters accepted (same.trans kept) (named.trans (renamed.trans called)) (.joined phase)

inductive JoinsForming (now : SystemTime) (request : JoinRequest) (inner : Inner Forming) :
    Inner Forming × Reply → Prop
  | refused {after : Inner Forming} {reply : Reply} (members : after.members = inner.members)
      (state : after.state = inner.state) (generation : after.generationId = inner.generationId)
      (error : (Answer.reply reply).accepts = false) : JoinsForming now request inner (after, reply)
  /-- A member that has joined already is told again who leads. -/
  | repeated {memberId : String} (member : memberId ∈ inner.members) (phase : inner.state.joinPhase = none) :
      JoinsForming now request inner (inner, .ready (inner.joinResponse memberId))
  | entered {result : Inner Forming × Reply}
      (enters : Enters now inner.generationId inner.names request result) : JoinsForming now request inner result

theorem joinForming_spec (inner : Inner Forming) (sound : inner.Sound) (now : SystemTime) (uuid : String)
    (request : JoinRequest) (delay : Duration) :
    JoinsForming now request inner (inner.joinForming now uuid request delay) := by
  rw [joinForming]
  split
  next refused =>
    exact .refused rfl rfl rfl (accepts_joinError (JoinRequest.ne_none_of_joiningProtocol refused))
  next offered accepted =>
    have called : ∀ id ∈ inner.members, inner.names = some (request.protocolType, offered.name) := by
      intro id present
      refine (JoinRequest.names_of_joiningProtocol accepted).resolve_left fun none => ?_
      have held := sound.protocol id present
      rw [map_eq_none_iff.mp none] at held
      cases held
    split
    next =>
      split
      next => exact .refused rfl rfl rfl (accepts_joinError (by decide))
      next => exact .entered (inner.addMember_enters accepted)
      next replacing =>
        exact .entered (replaceStaticMember_enters accepted (called _ (NewMember.of_replacing replacing)))
    next =>
      split
      next => exact .entered ((inner.forgetPending request.memberId).addMember_enters accepted)
      next =>
        split
        next refused =>
          exact .refused rfl rfl rfl
            (accepts_joinError (ne_none_of_refusals (mem_refusals_of_validateMember refused)))
        next valid =>
          have member := mem_of_validateMember valid
          split
          next repeats =>
            simp only [isCompletingRebalance, Bool.and_eq_true, isNone_iff_eq_none] at repeats
            exact .repeated member repeats.1.1
          next => exact .entered (inner.updateMember_enters accepted (called _ member))

end

theorem names_takePlace (inner : Inner Formed) (old new : String) :
    (inner.takePlace old new).generationId = inner.generationId ∧
    (inner.takePlace old new).state.protocolType = inner.state.protocolType ∧
    (inner.takePlace old new).state.protocolName = inner.state.protocolName := by
  simp only [takePlace, state_renameMember, and_true]
  rw [renameMember]
  split <;> rfl

inductive JoinsFormed (now : SystemTime) (uuid : String) (request : JoinRequest) (inner : Inner Formed) :
    Wrapper × Reply → Prop
  | refused {after : Inner Formed} {reply : Reply} (members : after.members = inner.members)
      (state : after.state = inner.state) (generation : after.generationId = inner.generationId)
      (error : (Answer.reply reply).accepts = false) : JoinsFormed now uuid request inner (.formed after, reply)
  /-- A static member that has restarted takes its earlier instance's place. -/
  | replaced {old : String} {metadata : List UInt8} (unnamed : request.memberId = "")
      (found : request.groupInstanceId.bind inner.staticMemberId = some old) {replaced : Inner Formed}
      (placed : replaced = (inner.takePlace old (request.madeMemberId uuid)).upsertMember now
        (request.madeMemberId uuid) request metadata) :
      JoinsFormed now uuid request inner
        (.formed replaced, .ready (if skipAssignmentVersion ≤ request.apiVersion then
          replaced.formedJoinResponse (request.madeMemberId uuid) replaced.state.leader
            (replaced.state.leader == request.madeMemberId uuid)
          else replaced.formedJoinResponse (request.madeMemberId uuid) inner.state.leader false))
  /-- A member that has joined already is told again who leads. -/
  | follows (named : request.memberId ≠ "") (other : inner.state.leader ≠ request.memberId) :
      JoinsFormed now uuid request inner
        (.formed inner, .ready (inner.formedJoinResponse request.memberId inner.state.leader false))
  | entered {result : Inner Forming × Reply}
      (kept : request.memberId = "" → request.groupInstanceId.bind inner.staticMemberId = none)
      (enters : Enters now inner.generationId (some (inner.state.protocolType, inner.state.protocolName))
        request result) : JoinsFormed now uuid request inner (.forming result.1, result.2)

theorem joinFormed_spec (inner : Inner Formed) (now : SystemTime) (uuid : String) (request : JoinRequest)
    (delay : Duration) :
    JoinsFormed now uuid request inner (inner.joinFormed now uuid request delay) := by
  rw [joinFormed]
  split
  next refused =>
    exact .refused rfl rfl rfl (accepts_joinError (JoinRequest.ne_none_of_joiningProtocol refused))
  next offered accepted =>
    have called : (inner.intoPreparingRebalance now).names = some (request.protocolType, offered.name) :=
      (JoinRequest.names_of_joiningProtocol accepted).resolve_left (some_ne_none _)
    split
    next unnamed =>
      have spec := NewMember.of_spec inner uuid request
      split
      next => exact .refused rfl rfl rfl (accepts_joinError (by decide))
      next added =>
        rw [added] at spec
        exact .entered (fun _ => spec.2)
          ((inner.intoPreparingRebalance now).addMember_enters accepted)
      next replacing =>
        rw [replacing] at spec
        obtain ⟨rfl, _, given, found⟩ := spec
        exact .replaced unnamed (by rw [given]; exact found) rfl
    next named =>
      split
      next =>
        have enters : Enters now inner.generationId (some (inner.state.protocolType, inner.state.protocolName))
            request (((inner.forgetPending request.memberId).intoPreparingRebalance now).addMember now
              request.memberId request offered delay) :=
          ((inner.forgetPending request.memberId).intoPreparingRebalance now).addMember_enters accepted
        exact .entered (fun unnamed => absurd unnamed named) enters
      next =>
        split
        next refused =>
          exact .refused rfl rfl rfl
            (accepts_joinError (ne_none_of_refusals (mem_refusals_of_validateMember refused)))
        next =>
          split
          next follower => exact .follows named follower.1
          next =>
            exact .entered (fun unnamed => absurd unnamed named)
              ((inner.intoPreparingRebalance now).updateMember_enters accepted called)

end Inner

/-! What a `SyncGroup` makes of a group, and how it is answered. -/

def Answer.Silent (answer : Answer) : Prop :=
  answer.joined = none ∧ answer.synced = none

theorem silent_syncError (refused : errorCode ≠ .none) : (Answer.reply (syncError errorCode)).Silent :=
  ⟨rfl, if_neg refused⟩

namespace Inner

inductive SyncsForming (request : SyncRequest) (inner : Inner Forming) : Wrapper × Reply → Prop
  | stays {after : Inner Forming} {reply : Reply} (members : after.members = inner.members)
      (state : after.state = inner.state) (generation : after.generationId = inner.generationId)
      (silent : (Answer.reply reply).Silent) : SyncsForming request inner (.forming after, reply)
  | installs {after : Inner Formed} (member : request.memberId ∈ inner.members)
      (phase : inner.state.joinPhase = none) (leads : inner.state.leader = some request.memberId)
      (generation : after.generationId = inner.generationId)
      (asked : request.generationId = inner.generationId)
      (named : inner.names = some (after.state.protocolType, after.state.protocolName))
      (leader : after.state.leader = request.memberId)
      (assigned : request.memberId ∈ after.state.assignments) :
      SyncsForming request inner (.formed after, after.syncResponse request.memberId)

theorem syncForming_spec (inner : Inner Forming) (now : SystemTime) (request : SyncRequest) :
    SyncsForming request inner (inner.syncForming now request) := by
  simp only [syncForming]
  split
  next refused =>
    exact .stays rfl rfl rfl (silent_syncError (ne_none_of_refusals (mem_refusals_of_validateMember refused)))
  next valid =>
    split
    next => exact .stays rfl rfl rfl (silent_syncError (by decide))
    next asked =>
      split
      next => exact .stays rfl rfl rfl (silent_syncError (by decide))
      next =>
        split
        next => exact .stays rfl rfl rfl (silent_syncError (by decide))
        next phase =>
          split
          next protocolType protocolName leader held =>
            split
            next => exact .stays rfl rfl rfl ⟨rfl, rfl⟩
            next leads =>
              replace held : inner.state.protocol = some { protocolType, protocolName, leader := some leader } := held
              refine .installs (mem_of_validateMember valid) (by simpa using phase) ?_ rfl (not_not.mp asked) ?_
                (not_not.mp leads) (mem_completeAssignments.mpr (mem_of_validateMember valid))
              · rw [Forming.leader, held, ← not_not.mp leads]
                rfl
              · rw [names, held]
                rfl
          next => exact .stays rfl rfl rfl (silent_syncError (by decide))

inductive SyncsFormed (request : SyncRequest) (inner : Inner Formed) : Inner Formed × Reply → Prop
  | refused {reply : Reply} (silent : (Answer.reply reply).Silent) :
      SyncsFormed request inner (inner, reply)
  | answers {after : Inner Formed} (member : request.memberId ∈ inner.members)
      (state : after.state = inner.state) (generation : after.generationId = inner.generationId)
      (asked : request.generationId = inner.generationId) :
      SyncsFormed request inner (after, after.syncResponse request.memberId)

theorem syncFormed_spec (inner : Inner Formed) (now : SystemTime) (request : SyncRequest) :
    SyncsFormed request inner (inner.syncFormed now request) := by
  simp only [syncFormed]
  split
  next refused =>
    exact .refused (silent_syncError (ne_none_of_refusals (mem_refusals_of_validateMember refused)))
  next valid =>
    split
    next => exact .refused (silent_syncError (by decide))
    next asked =>
      split
      next => exact .refused (silent_syncError (by decide))
      next =>
        refine .answers (mem_of_validateMember valid) ?_ ?_ (not_not.mp asked)
        · split <;> rfl
        · split <;> rfl

end Inner

/-! What any call makes of the generation and of the protocol. -/

/-- A join phase of the generation of `before` has been completed. -/
inductive Wrapper.Completes (now : SystemTime) (before : Wrapper) : Wrapper → Prop
  | completes {during : Inner Forming} {joinPhase : JoinPhase}
      (phase : during.state.joinPhase = some joinPhase) (generation : during.generationId = before.generationId)
      (ended : (during.completeJoin now).state.joinPhase = none) :
      Completes now before (.forming (during.completeJoin now))

/-- The protocol that a call gives to a group with the protocol `names`: it is the same, or the first member of
the group chooses it. -/
def Call.names (call : Call) (names later : Option (String × String)) : Prop :=
  later = names ∨ names = none ∧ ∃ uuid request delay offered, call = .join uuid request delay ∧
    request.joiningProtocol none = .ok offered ∧ later = some (request.protocolType, offered.name)

namespace Wrapper

variable {group : Wrapper} {now : SystemTime}

theorem turn_of_enters {names : Option (String × String)} {uuid : String} {delay : Duration}
    (enters : Inner.Enters now generation names request result) :
    ∃ later stage, (Call.join uuid request delay).names names later ∧
      Turn now generation later stage (.forming result.1) := by
  cases enters with
  | @enters before after offered memberId accepted same named advance =>
    refine ⟨some (request.protocolType, offered.name), .gathering, ?_, .advances same named advance⟩
    rcases JoinRequest.names_of_joiningProtocol accepted with none | called
    · rw [none] at accepted
      exact .inr ⟨none, uuid, request, delay, offered, rfl, accepted, rfl⟩
    · exact .inl called.symm

theorem join_turn (sound : group.Sound) (now : SystemTime) (uuid : String) (request : JoinRequest)
    (delay : Duration) : ∃ later stage, (Call.join uuid request delay).names group.names later ∧
      Turn now group.generationId later stage (group.join now uuid request delay).1 := by
  cases group with
  | forming inner =>
    have spec := inner.joinForming_spec sound now uuid request delay
    simp only [join]
    generalize inner.joinForming now uuid request delay = result at spec ⊢
    cases spec with
    | refused members state generation =>
      exact ⟨_, _, .inl rfl, turn_of_forming (fun id => by rw [members]) state generation⟩
    | repeated => exact ⟨_, _, .inl rfl, .stays rfl rfl rfl⟩
    | entered enters => exact turn_of_enters enters
  | formed inner =>
    have spec := inner.joinFormed_spec now uuid request delay
    simp only [join]
    generalize inner.joinFormed now uuid request delay = result at spec ⊢
    cases spec with
    | refused _ state generation =>
      exact ⟨_, _, .inl rfl, turn_of_formed state generation⟩
    | @replaced old metadata unnamed found replaced placed =>
      obtain ⟨generation, protocolType, protocolName⟩ := inner.names_takePlace old (request.madeMemberId uuid)
      refine ⟨_, _, .inl rfl, .stays (by rw [placed]; exact generation) ?_ rfl⟩
      rw [placed]
      exact congrArg₂ (fun protocolType protocolName => some (protocolType, protocolName)) protocolType protocolName
    | follows => exact ⟨_, _, .inl rfl, .stays rfl rfl rfl⟩
    | entered _ enters => exact turn_of_enters enters

theorem sync_turn (group : Wrapper) (now : SystemTime) (request : SyncRequest) :
    ∃ stage, Turn now group.generationId group.names stage (group.sync now request).1 := by
  cases group with
  | forming inner =>
    have spec := inner.syncForming_spec now request
    simp only [sync]
    generalize inner.syncForming now request = result at spec ⊢
    cases spec with
    | stays members state generation =>
      exact ⟨_, turn_of_forming (fun id => by rw [members]) state generation⟩
    | installs _ _ _ generation _ named =>
      exact ⟨_, .stays generation named.symm rfl⟩
  | formed inner =>
    have spec := inner.syncFormed_spec now request
    simp only [sync]
    generalize inner.syncFormed now request = result at spec ⊢
    cases spec with
    | refused => exact ⟨_, .stays rfl rfl rfl⟩
    | answers _ state generation =>
      exact ⟨_, turn_of_formed state generation⟩

theorem call_turn (sound : group.Sound) (now : SystemTime) (call : Call) : ∃ later stage, call.names group.names later ∧
      Turn now group.generationId later stage (group.call now call).1 := by
  cases call with
  | settle => exact ⟨_, _, .inl rfl, turn_of_passes (group.settle_passes now)⟩
  | heartbeat generationId memberId groupInstanceId =>
    exact ⟨_, _, .inl rfl, turn_of_passes (group.heartbeat_passes now generationId memberId groupInstanceId)⟩
  | leave memberId members => exact ⟨_, _, .inl rfl, turn_of_passes (group.leave_passes now memberId members)⟩
  | checkOffsetCommit detail => exact ⟨_, _, .inl rfl, turn_of_passes (group.checkOffsetCommit_passes now detail)⟩
  | join uuid request delay => exact join_turn sound now uuid request delay
  | sync request =>
    obtain ⟨stage, turn⟩ := group.sync_turn now request
    exact ⟨_, stage, .inl rfl, turn⟩

theorem Completes.generation (completes : group.Completes now after) : after.generationId = group.generationId + 1 := by
  cases completes with
  | completes phase generation ended =>
    rcases Inner.completeJoin_spec now phase with ⟨waits, _⟩ | ⟨_, next, _⟩
    · rw [ended] at waits
      cases waits
    · exact next.trans (by rw [generation])

theorem generation_call (sound : group.Sound) (now : SystemTime) (call : Call) : ∃ later, call.names group.names later ∧
      ((group.call now call).1.generationId = group.generationId ∧ (group.call now call).1.names = later ∨
        group.Completes now (group.call now call).1 ∧
          ((group.call now call).1.members.isEmpty = false → (group.call now call).1.names = later)) := by
  obtain ⟨later, _, chosen, turn⟩ := call_turn sound now call
  refine ⟨later, chosen, ?_⟩
  generalize (group.call now call).1 = after at turn ⊢
  cases turn with
  | stays same named => exact .inl ⟨same, named⟩
  | @advances before after same named advance =>
    cases advance with
    | waits _ generation names => exact .inl ⟨generation.trans same, names.trans named⟩
    | @completes during joinPhase phase generation names ended =>
      refine .inr ⟨.completes phase (generation.trans same) ended, fun filled => ?_⟩
      rcases Inner.completeJoin_spec now phase with ⟨waits, _⟩ | ⟨_, _, called⟩
      · rw [ended] at waits
        cases waits
      · replace filled : (during.completeJoin now).members.isEmpty = false := filled
        refine Eq.trans ?_ (names.trans named)
        rw [Wrapper.names, called, filled]
        rfl

end Wrapper

end Nisshi.Coordinator
