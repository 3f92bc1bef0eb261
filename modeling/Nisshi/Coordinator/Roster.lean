import Nisshi.Coordinator.History

/-! Who is in a group. Every call but a `JoinGroup` only removes members and pending member ids, and a
`JoinGroup` brings at most one member, in one of a few ways. -/

namespace Nisshi.Coordinator

open Nisshi.SansIo Nisshi.Storage Nisshi.Lib Option Function
open Std (ExtTreeMap ExtTreeSet)

/-- The members of a group, and the member ids with which a member can still join. -/
structure Roster where
  members : ExtTreeMap String Member
  pendingMembers : ExtTreeMap String SystemTime

def Inner.roster {S : Type} (inner : Inner S) : Roster where
  members := inner.members
  pendingMembers := inner.pendingMembers

def Wrapper.roster (group : Wrapper) : Roster where
  members := group.members
  pendingMembers := group.pendingMembers

namespace Roster

def response (roster : Roster) (memberId : String) : Option JoinGroupResponseMember :=
  roster.members[memberId]?.map (·.joinResponse)

variable {before during after : Roster} {memberId : String}

theorem isSome_response : (before.response memberId).isSome = true ↔ memberId ∈ before.members := by
  rw [response, isSome_map, ExtTreeMap.mem_iff_isSome_getElem?]

theorem mem_of_response {response : JoinGroupResponseMember} (held : before.response memberId = some response) :
    memberId ∈ before.members :=
  isSome_response.mp (by rw [held]; rfl)

/-- No member and no pending member id is new, and what is left of the members is as it was. -/
structure Dwindles (before after : Roster) : Prop where
  response : ∀ memberId response, after.response memberId = some response → before.response memberId = some response
  pending : ∀ memberId ∈ after.pendingMembers, memberId ∈ before.pendingMembers

theorem Dwindles.refl : Dwindles before before :=
  ⟨fun _ _ held => held, fun _ held => held⟩

theorem Dwindles.mem (dwindles : Dwindles before after) (present : memberId ∈ after.members) :
    memberId ∈ before.members := by
  obtain ⟨response, held⟩ := isSome_iff_exists.mp (isSome_response.mpr present)
  exact mem_of_response (dwindles.response memberId response held)

/-- No member and no pending member id is new, and what is left of the members is as it was, but for when they
were last in contact. -/
structure Fades (before after : Roster) : Prop where
  member : ∀ (id : String) (member : Member), after.members[id]? = some member → ∃ earlier : Member,
    before.members[id]? = some earlier ∧ member.joinResponse = earlier.joinResponse ∧
      (earlier.lastContact.isSome = true → member.lastContact.isSome = true)
  pending : ∀ id ∈ after.pendingMembers, id ∈ before.pendingMembers

def Contacted (roster : Roster) : Prop :=
  ∀ (id : String) (member : Member), roster.members[id]? = some member → member.lastContact.isSome = true

namespace Fades

theorem refl : Fades before before :=
  ⟨fun _ member found => ⟨member, found, rfl, id⟩, fun _ held => held⟩

theorem trans (first : Fades before during) (second : Fades during after) : Fades before after := by
  refine ⟨fun id member found => ?_, fun id held => first.pending id (second.pending id held)⟩
  obtain ⟨between, held, same, contact⟩ := second.member id member found
  obtain ⟨earlier, kept, equal, earlierContact⟩ := first.member id between held
  exact ⟨earlier, kept, same.trans equal, fun some => contact (earlierContact some)⟩

theorem dwindles (fades : Fades before after) : Dwindles before after := by
  refine ⟨fun id response held => ?_, fades.pending⟩
  obtain ⟨member, found, rfl⟩ := map_eq_some_iff.mp held
  obtain ⟨earlier, kept, same, _⟩ := fades.member id member found
  exact map_eq_some_iff.mpr ⟨earlier, kept, same.symm⟩

theorem contacted (fades : Fades before after) (all : before.Contacted) : after.Contacted := by
  intro id member found
  obtain ⟨earlier, kept, _, contact⟩ := fades.member id member found
  exact contact (all id earlier kept)

theorem of_left
    (left : ∀ (id : String) (member : Member), after.members[id]? = some member → before.members[id]? = some member)
    (pending : ∀ id ∈ after.pendingMembers, id ∈ before.pendingMembers) : Fades before after :=
  ⟨fun id member found => ⟨member, left id member found, rfl, fun some => some⟩, pending⟩

theorem map (members : after.members = before.members.map change)
    (pending : after.pendingMembers = before.pendingMembers)
    (same : ∀ id member, (change id member).joinResponse = member.joinResponse ∧
      (member.lastContact.isSome = true → (change id member).lastContact.isSome = true)) : Fades before after := by
  refine ⟨fun id member found => ?_, fun _ present => pending ▸ present⟩
  rw [members, ExtTreeMap.getElem?_map] at found
  obtain ⟨earlier, held, rfl⟩ := map_eq_some_iff.mp found
  exact ⟨earlier, held, same id earlier⟩

end Fades

end Roster

namespace Inner

open Roster (Fades)

section

variable {S : Type} (inner : Inner S) (now : SystemTime)

theorem fades_contact (memberId : String) : inner.roster.Fades (inner.contact now memberId).roster := by
  refine ⟨fun id member found => ?_, fun _ present => present⟩
  simp only [roster, contact, ExtTreeMap.getElem?_modify] at found ⊢
  split at found
  next same =>
    obtain rfl := Std.compare_eq_iff_eq.mp same
    obtain ⟨earlier, held, rfl⟩ := map_eq_some_iff.mp found
    exact ⟨earlier, held, rfl, fun _ => rfl⟩
  next => exact ⟨member, found, rfl, fun some => some⟩

theorem fades_removal (removal : inner.Removal next) : inner.roster.Fades next.roster := by
  cases removal with
  | mk left pending => exact .of_left left pending

theorem fades_rests (rests : inner.Rests next) : inner.roster.Fades next.roster := by
  cases rests with
  | contacts now memberId => exact inner.fades_contact now memberId
  | forgets pending | synced pending => exact .of_left (fun _ _ found => found) pending

end

section

variable (inner : Inner Forming) (now : SystemTime)

theorem fades_forgetRemovedMembers : inner.roster.Fades inner.forgetRemovedMembers.roster := by
  refine .of_left (fun id member found => ?_) fun memberId present => ?_
  · simpa only [roster, members_forgetRemovedMembers] using found
  · simp only [roster, forgetRemovedMembers, setJoinPhase] at present
    split at present <;> exact present

theorem fades_restartSessionsOfSyncedMembers :
    inner.roster.Fades (inner.restartSessionsOfSyncedMembers now).roster := by
  refine .map rfl rfl fun _ _ => ?_
  split
  exacts [⟨rfl, fun _ => rfl⟩, ⟨rfl, fun some => some⟩]

theorem fades_prepareRebalance : inner.roster.Fades (inner.prepareRebalance now).roster := by
  rw [prepareRebalance]
  split
  · exact inner.fades_restartSessionsOfSyncedMembers now
  · exact .refl

theorem fades_startGeneration : inner.roster.Fades (inner.startGeneration now).roster := by
  rw [startGeneration]
  split
  · exact .refl
  · exact .map rfl rfl fun _ _ => ⟨rfl, fun _ => rfl⟩

theorem fades_completeJoin : inner.roster.Fades (inner.completeJoin now).roster := by
  rw [completeJoin]
  split
  · exact .refl
  next joinPhase _ =>
    have kept : inner.roster.Fades (inner.keepJoined joinPhase).roster :=
      .of_left (fun _ _ found => OrderedMap.getElem?_of_filter found) fun _ present => present
    have elected : (inner.keepJoined joinPhase).roster =
        ((inner.keepJoined joinPhase).electLeader joinPhase).roster := by
      rw [electLeader]
      split <;> rfl
    simp only
    split
    · exact kept
    · exact kept.trans (elected ▸ fades_startGeneration _ now)

theorem fades_ends {inner : Inner Forming} {now : SystemTime} (ends : Ends due now inner next) :
    inner.roster.Fades next.roster := by
  induction ends with
  | refl => exact .refl
  | extended _ _ _ _ ih => exact ih
  | completed _ _ _ ih => exact (fades_completeJoin _ now).trans ih

theorem fades_joined (memberId : String) : inner.roster.Fades (inner.joined now memberId).1.roster :=
  show (inner.markJoined memberId).roster.Fades _ from fades_ends (.joined inner now memberId)

theorem fades_ensureJoinPhase : inner.roster.Fades (inner.ensureJoinPhase now).roster := by
  rw [ensureJoinPhase]
  split
  exacts [inner.fades_prepareRebalance now, .refl]

theorem fades_enterJoinPhase (isEmpty : Bool) (delay : Duration) :
    inner.roster.Fades (inner.enterJoinPhase now isEmpty delay).roster := by
  rw [enterJoinPhase]
  split
  · exact .refl
  · split
    exacts [.refl, inner.fades_prepareRebalance now]

end

theorem fades_syncFormed (inner : Inner Formed) (now : SystemTime) (request : SyncRequest) :
    inner.roster.Fades (inner.syncFormed now request).1.roster := by
  rw [syncFormed]
  repeat' split
  all_goals first | exact .refl | exact fades_contact (inner.forgetPendingSync _) now _

theorem fades_syncForming (inner : Inner Forming) (now : SystemTime) (request : SyncRequest) :
    inner.roster.Fades (inner.syncForming now request).1.roster := by
  have restarted : inner.roster.Fades
      ((inner.forgetPendingSync [request.memberId]).restartSessionsOfSyncedMembers now).roster :=
    fades_restartSessionsOfSyncedMembers (inner.forgetPendingSync _) now
  simp only [syncForming]
  repeat' split
  all_goals first | exact .refl | exact restarted

end Inner

namespace Wrapper

open Roster (Fades)

variable (group : Wrapper) (now : SystemTime)

theorem fades_passes {group : Wrapper} {now : SystemTime}
    (passes : Passes due now group next) : group.roster.Fades next.roster := by
  have tidy : ∀ {inner kept : Inner Forming}, inner.Removal kept →
      inner.roster.Fades kept.forgetRemovedMembers.roster :=
    fun removal => (Inner.fades_removal _ removal).trans (Inner.fades_forgetRemovedMembers _)
  cases passes with
  | rests rests ends => exact (Inner.fades_rests _ rests).trans (Inner.fades_ends ends)
  | restsFormed rests => exact Inner.fades_rests _ rests
  | removes removal _ _ ends => exact (tidy removal).trans (Inner.fades_ends ends)
  | rebalances removal _ ends =>
    exact (tidy removal).trans ((Inner.fades_prepareRebalance _ now).trans (Inner.fades_ends ends))
  | idles removal => exact tidy removal
  | reopens removal ends =>
    have left := Inner.fades_removal _ removal
    exact left.trans (Inner.fades_ends ends)

theorem fades_sync (request : SyncRequest) : group.roster.Fades (group.sync now request).1.roster := by
  cases group with
  | forming inner => exact inner.fades_syncForming now request
  | formed inner => exact inner.fades_syncFormed now request

end Wrapper

/-! A `JoinGroup`. -/

namespace Roster

variable (before : Roster) (uuid : String) (request : JoinRequest) (offered : JoinGroupRequestProtocol)

def upserted (memberId : String) : JoinGroupResponseMember :=
  { (before.response memberId).getD { memberId, groupInstanceId := request.groupInstanceId } with
    metadata := offered.metadata }

def Unheld : Prop :=
  ∀ groupInstanceId ∈ request.groupInstanceId, ∀ memberId response,
    before.response memberId = some response → response.groupInstanceId ≠ some groupInstanceId

/-- The members with which a `JoinGroup` goes on once it has got its place. -/
inductive Joins : Roster → Prop
  /-- A dynamic member must join with the member id that it gets. -/
  | issued {after : Roster} (unnamed : request.memberId = "") (dynamic : request.groupInstanceId = none)
      (response : after.response = before.response)
      (pending : ∀ memberId, memberId ∈ after.pendingMembers ↔
        memberId = request.madeMemberId uuid ∨ memberId ∈ before.pendingMembers) : Joins after
  | added {after : Roster} (unnamed : request.memberId = "") (unheld : before.Unheld request)
      (response : after.response = Function.update before.response (request.madeMemberId uuid)
        (some (before.upserted request offered (request.madeMemberId uuid))))
      (pending : after.pendingMembers = before.pendingMembers) : Joins after
  | pending {after : Roster} (issued : request.memberId ∈ before.pendingMembers)
      (response : after.response = Function.update before.response request.memberId
        (some (before.upserted request offered request.memberId)))
      (pending : after.pendingMembers = before.pendingMembers.erase request.memberId) : Joins after
  | rejoined {after : Roster} (member : request.memberId ∈ before.members)
      (response : after.response = Function.update before.response request.memberId
        (some (before.upserted request offered request.memberId)))
      (pending : after.pendingMembers = before.pendingMembers) : Joins after
  /-- A static member that has restarted takes the place of its earlier instance. -/
  | replaced {after : Roster} {old groupInstanceId : String} {earlier : JoinGroupResponseMember}
      (unnamed : request.memberId = "") (static : request.groupInstanceId = some groupInstanceId)
      (holds : before.response old = some earlier) (held : earlier.groupInstanceId = some groupInstanceId)
      (response : after.response = Function.update (Function.update before.response old none)
        (request.madeMemberId uuid)
        (some { earlier with memberId := request.madeMemberId uuid, metadata := offered.metadata }))
      (pending : after.pendingMembers = before.pendingMembers) : Joins after

end Roster

namespace Inner

variable {S : Type} (inner : Inner S) (now : SystemTime) (request : JoinRequest)

theorem response_upsertMember (memberId : String) (offered : JoinGroupRequestProtocol) :
    (inner.upsertMember now memberId request offered.metadata).roster.response =
      Function.update inner.roster.response memberId
        (some (inner.roster.upserted request offered memberId)) := by
  funext id
  simp only [Roster.response, roster, upsertMember, raiseRebalanceTimeout, ExtTreeMap.getElem?_insert, update_apply]
  by_cases same : id = memberId
  · subst same
    rw [if_pos (Std.compare_eq_iff_eq.mpr rfl)]
    simp only [Roster.upserted, Roster.response, map_some]
    cases inner.members[id]? <;> rfl
  · rw [if_neg same, if_neg fun equal => same (Std.compare_eq_iff_eq.mp equal).symm]

theorem response_renameMember {new : String} (holds : inner.roster.response old = some earlier) :
    (inner.renameMember old new).roster.response =
      Function.update (Function.update inner.roster.response old none) new
        (some { earlier with memberId := new }) := by
  obtain ⟨member, found, rfl⟩ := map_eq_some_iff.mp holds
  replace found : inner.members[old]? = some member := found
  funext id
  simp only [renameMember, found, Roster.response, roster, ExtTreeMap.getElem?_insert,
    ExtTreeMap.getElem?_erase, update_apply]
  by_cases renamed : id = new
  · rw [if_pos renamed, if_pos (Std.compare_eq_iff_eq.mpr renamed.symm)]
    rfl
  · rw [if_neg renamed, if_neg fun equal => renamed (Std.compare_eq_iff_eq.mp equal).symm]
    by_cases same : id = old
    · rw [if_pos same, if_pos (Std.compare_eq_iff_eq.mpr same.symm)]
      rfl
    · rw [if_neg same, if_neg fun equal => same (Std.compare_eq_iff_eq.mp equal).symm]

theorem pendingMembers_renameMember (old new : String) :
    (inner.renameMember old new).pendingMembers = inner.pendingMembers := by
  rw [renameMember]
  split <;> rfl

theorem response_replaced {new : String} (holds : inner.roster.response old = some earlier) {renamed : Inner S}
    (same : renamed.members = (inner.renameMember old new).members) (offered : JoinGroupRequestProtocol) :
    (renamed.upsertMember now new request offered.metadata).roster.response =
      Function.update (Function.update inner.roster.response old none) new
        (some { earlier with memberId := new, metadata := offered.metadata }) := by
  have response : renamed.roster.response = (inner.renameMember old new).roster.response := by
    funext id
    simp only [Roster.response, roster, same]
  rw [response_upsertMember, Roster.upserted, response, inner.response_renameMember holds, update_self, update_idem]
  rfl

theorem contacted_upsertMember {inner : Inner S} (contacted : inner.roster.Contacted) (memberId : String)
    (metadata : List UInt8) : (inner.upsertMember now memberId request metadata).roster.Contacted := by
  intro id member found
  simp only [roster, upsertMember, raiseRebalanceTimeout, ExtTreeMap.getElem?_insert] at found
  split at found
  · cases found
    rfl
  · exact contacted id member found

theorem contacted_renameMember {inner : Inner S} (contacted : inner.roster.Contacted) (old new : String) :
    (inner.renameMember old new).roster.Contacted := by
  rw [renameMember]
  split
  next => exact contacted
  next before held =>
    intro id member found
    simp only [roster, ExtTreeMap.getElem?_insert, ExtTreeMap.getElem?_erase] at found
    split at found
    · cases found
      exact contacted old before held
    · split at found
      · cases found
      · exact contacted id member found

theorem mem_addPending {id : String} : id ∈ (inner.addPending now memberId request).pendingMembers ↔
      id = memberId ∨ id ∈ inner.pendingMembers := by
  rw [addPending, ExtTreeMap.mem_insert, Std.compare_eq_iff_eq, eq_comm]

theorem holds_of_staticMemberId (found : inner.staticMemberId groupInstanceId = some memberId) :
    ∃ response, inner.roster.response memberId = some response ∧ response.groupInstanceId = some groupInstanceId := by
  obtain ⟨⟨id, member⟩, listed, holds⟩ := List.exists_of_findSome?_eq_some found
  obtain ⟨held, rfl⟩ : member.joinResponse.groupInstanceId = some groupInstanceId ∧ id = memberId := by
    simpa using holds
  refine ⟨member.joinResponse, map_eq_some_iff.mpr ⟨member, ?_, rfl⟩, held⟩
  exact ExtTreeMap.mem_toList_iff_getElem?_eq_some.mp listed

theorem unheld_of_staticMemberId (none : request.groupInstanceId.bind inner.staticMemberId = none) :
    inner.roster.Unheld request := by
  intro groupInstanceId given memberId response held holds
  obtain ⟨member, found, rfl⟩ := map_eq_some_iff.mp held
  rw [mem_def.mp given] at none
  have other := List.findSome?_eq_none_iff.mp none (memberId, member)
    (ExtTreeMap.mem_toList_iff_getElem?_eq_some.mpr found)
  simp only [holds, if_true] at other
  cases other

end Inner

namespace NewMember

variable {S : Type} (inner : Inner S) (uuid : String) (request : JoinRequest)

theorem of_spec : match NewMember.of uuid request (request.groupInstanceId.bind inner.staticMemberId) with
    | .pending memberId => memberId = request.madeMemberId uuid ∧ request.groupInstanceId = none
    | .added memberId =>
      memberId = request.madeMemberId uuid ∧ request.groupInstanceId.bind inner.staticMemberId = none
    | .replacing old new => new = request.madeMemberId uuid ∧ ∃ groupInstanceId,
      request.groupInstanceId = some groupInstanceId ∧ inner.staticMemberId groupInstanceId = some old := by
  cases given : request.groupInstanceId with
  | none =>
    simp only [NewMember.of, given, bind_none]
    by_cases required : memberIdRequiredVersion ≤ request.apiVersion
    · simp [if_pos required, JoinRequest.madeMemberId, given]
    · simp [if_neg required, JoinRequest.madeMemberId, given]
  | some groupInstanceId =>
    simp only [NewMember.of, given, bind_some]
    cases found : inner.staticMemberId groupInstanceId with
    | none => simp [JoinRequest.madeMemberId, given]
    | some => simp [JoinRequest.madeMemberId, given, found]

end NewMember

def Inner.names (inner : Inner Forming) : Option (String × String) :=
  inner.state.protocol.map fun protocol => (protocol.protocolType, protocol.protocolName)

def Wrapper.names : Wrapper → Option (String × String)
  | .forming inner => inner.names
  | .formed inner => some (inner.state.protocolType, inner.state.protocolName)

def Roster.Receives (before : Roster) (names : Option (String × String)) (uuid : String)
    (request : JoinRequest) (after : Roster) : Prop :=
  after = before ∨ ∃ offered arrived, request.joiningProtocol names = .ok offered ∧
    before.Joins uuid request offered arrived ∧ arrived.Dwindles after

def Roster.Welcomes (before : Roster) (names : Option (String × String)) (uuid : String)
    (request : JoinRequest) (after : Roster) : Prop :=
  after = before ∨ ∃ offered arrived, request.joiningProtocol names = .ok offered ∧
    before.Joins uuid request offered arrived ∧ (before.Contacted → arrived.Contacted) ∧ arrived.Fades after

theorem Roster.Welcomes.receives {before : Roster} {uuid : String}
    (welcomes : before.Welcomes names uuid request after) :
    before.Receives names uuid request after :=
  welcomes.imp_right fun ⟨offered, arrived, accepted, joins, _, fades⟩ =>
    ⟨offered, arrived, accepted, joins, fades.dwindles⟩

namespace Inner

section

variable (inner : Inner Forming) (now : SystemTime) (uuid : String) (request : JoinRequest)
  (offered : JoinGroupRequestProtocol) (delay : Duration)

theorem fades_addMember (memberId : String) : (inner.upsertMember now memberId request offered.metadata).roster.Fades
      (inner.addMember now memberId request offered delay).1.roster := by
  have adopted : (inner.upsertMember now memberId request offered.metadata).roster.Fades
      ((inner.adoptProtocol request offered).upsertMember now memberId request offered.metadata).roster := by
    rw [adoptProtocol]
    split <;> exact .refl
  refine adopted.trans (Roster.Fades.trans ?_ ((fades_enterJoinPhase _ now _ delay).trans
    (fades_joined _ now memberId)))
  simp only [seatMember]
  split <;> exact .refl

theorem fades_updateMember (memberId : String) : (inner.updateMember now memberId request
    offered.metadata).1.roster = inner.roster ∨ (inner.upsertMember now memberId request offered.metadata).roster.Fades
        (inner.updateMember now memberId request offered.metadata).1.roster := by
  simp only [updateMember]
  split
  · exact .inl rfl
  · exact .inr ((fades_ensureJoinPhase _ now).trans (fades_joined _ now memberId))

theorem joins_replaceStaticMember (unnamed : request.memberId = "")
    (static : request.groupInstanceId = some groupInstanceId)
    (found : inner.staticMemberId groupInstanceId = some old) :
    ∃ arrived, inner.roster.Joins uuid request offered arrived ∧
      (inner.roster.Contacted → arrived.Contacted) ∧ arrived.Fades (inner.replaceStaticMember
        now old (request.madeMemberId uuid) request offered.metadata).1.roster := by
  obtain ⟨_, holds, held⟩ := inner.holds_of_staticMemberId found
  refine ⟨_, .replaced unnamed static holds held (inner.response_replaced now request holds ?_ offered) ?_,
    fun contacted => contacted_upsertMember now request ?_ _ _,
    (fades_ensureJoinPhase _ now).trans (fades_joined _ now _)⟩
  · simp only [handOver]
    split <;> rfl
  · refine Eq.trans ?_ (inner.pendingMembers_renameMember old (request.madeMemberId uuid))
    simp only [handOver]
    split <;> rfl
  · have renamed := contacted_renameMember contacted old (request.madeMemberId uuid)
    simp only [handOver]
    split <;> exact renamed

theorem joinForming_welcomes : inner.roster.Welcomes inner.names uuid request
    (inner.joinForming now uuid request delay).1.roster := by
  rw [joinForming]
  split
  next => exact .inl rfl
  next offered accepted =>
    split
    next unnamed =>
      have spec := NewMember.of_spec inner uuid request
      split
      next found =>
        rw [found] at spec
        obtain ⟨rfl, dynamic⟩ := spec
        exact .inr ⟨offered, (inner.addPending now _ request).roster, accepted,
          .issued unnamed dynamic rfl fun _ => inner.mem_addPending now request, id, .refl⟩
      next found =>
        rw [found] at spec
        obtain ⟨rfl, none⟩ := spec
        exact .inr ⟨offered, _, accepted, .added unnamed (inner.unheld_of_staticMemberId request none)
          (inner.response_upsertMember now request _ offered) rfl,
          fun contacted => contacted_upsertMember now request contacted _ _,
            inner.fades_addMember now request offered delay _⟩
      next found =>
        rw [found] at spec
        obtain ⟨rfl, _, static, holder⟩ := spec
        obtain ⟨arrived, joins, contacted, fades⟩ := inner.joins_replaceStaticMember now uuid request offered unnamed
          static holder
        exact .inr ⟨offered, arrived, accepted, joins, contacted, fades⟩
    next =>
      split
      next issued =>
        exact .inr ⟨offered, _, accepted, .pending (ExtTreeMap.contains_iff_mem.mp issued)
          ((inner.forgetPending request.memberId).response_upsertMember now request _ offered) rfl,
          fun contacted => contacted_upsertMember now request contacted _ _,
          (inner.forgetPending request.memberId).fades_addMember now request offered delay _⟩
      next =>
        split
        next => exact .inl rfl
        next valid =>
          split
          next => exact .inl rfl
          next =>
            rcases inner.fades_updateMember now request offered request.memberId with same | fades
            · exact .inl same
            · exact .inr ⟨offered, _, accepted, .rejoined (mem_of_validateMember valid)
                (inner.response_upsertMember now request _ offered) rfl,
                fun contacted => contacted_upsertMember now request contacted _ _, fades⟩

end

section

variable (inner : Inner Formed) (now : SystemTime) (uuid : String) (request : JoinRequest) (delay : Duration)

theorem joinFormed_welcomes : inner.roster.Welcomes (Wrapper.formed inner).names uuid request
    (inner.joinFormed now uuid request delay).1.roster := by
  rw [joinFormed]
  split
  next => exact .inl rfl
  next offered accepted =>
    split
    next unnamed =>
      have spec := NewMember.of_spec inner uuid request
      split
      next found =>
        rw [found] at spec
        obtain ⟨rfl, dynamic⟩ := spec
        exact .inr ⟨offered, (inner.addPending now _ request).roster, accepted,
          .issued unnamed dynamic rfl fun _ => inner.mem_addPending now request, id, .refl⟩
      next found =>
        rw [found] at spec
        obtain ⟨rfl, none⟩ := spec
        exact .inr ⟨offered, _, accepted, .added unnamed (inner.unheld_of_staticMemberId request none)
          (inner.response_upsertMember now request _ offered) rfl,
          fun contacted => contacted_upsertMember now request contacted _ _,
          (inner.intoPreparingRebalance now).fades_addMember now request offered delay _⟩
      next old _ found =>
        rw [found] at spec
        obtain ⟨rfl, _, static, holder⟩ := spec
        obtain ⟨_, holds, held⟩ := inner.holds_of_staticMemberId holder
        exact .inr ⟨offered, _, accepted, .replaced unnamed static holds held
          (inner.response_replaced now request holds rfl offered)
          (inner.pendingMembers_renameMember old _), fun contacted => contacted_upsertMember now request
            (contacted_renameMember contacted old _) _ _, .refl⟩
    next =>
      split
      next issued =>
        exact .inr ⟨offered, _, accepted, .pending (ExtTreeMap.contains_iff_mem.mp issued)
          ((inner.forgetPending request.memberId).response_upsertMember now request _ offered) rfl,
          fun contacted => contacted_upsertMember now request contacted _ _,
          ((inner.forgetPending request.memberId).intoPreparingRebalance now).fades_addMember now request
            offered delay _⟩
      next =>
        split
        next => exact .inl rfl
        next valid =>
          split
          next => exact .inl rfl
          next =>
            rcases (inner.intoPreparingRebalance now).fades_updateMember now request offered
              request.memberId with same | fades
            · exact .inl same
            · exact .inr ⟨offered, _, accepted, .rejoined (mem_of_validateMember valid)
                (inner.response_upsertMember now request _ offered) rfl,
                fun contacted => contacted_upsertMember now request contacted _ _, fades⟩

end

end Inner

theorem Wrapper.join_welcomes (group : Wrapper) (now : SystemTime) (uuid : String) (request : JoinRequest)
    (delay : Duration) : group.roster.Welcomes group.names uuid request
      (group.join now uuid request delay).1.roster := by
  cases group with
  | forming inner => exact inner.joinForming_welcomes now uuid request delay
  | formed inner => exact inner.joinFormed_welcomes now uuid request delay

theorem Wrapper.call_fades (group : Wrapper) (now : SystemTime) (call : Call) :
    group.roster.Fades (group.call now call).1.roster ∨ ∃ uuid request delay, call = .join uuid request delay ∧
        group.roster.Welcomes group.names uuid request (group.call now call).1.roster := by
  cases call with
  | settle => exact .inl (fades_passes (group.settle_passes now))
  | join uuid request delay => exact .inr ⟨uuid, request, delay, rfl, group.join_welcomes now uuid request delay⟩
  | sync request => exact .inl (group.fades_sync now request)
  | heartbeat generationId memberId groupInstanceId =>
    exact .inl (fades_passes (group.heartbeat_passes now generationId memberId groupInstanceId))
  | leave memberId members => exact .inl (fades_passes (group.leave_passes now memberId members))
  | checkOffsetCommit detail => exact .inl (fades_passes (group.checkOffsetCommit_passes now detail))

theorem Wrapper.call_roster (group : Wrapper) (now : SystemTime) (call : Call) :
    group.roster.Dwindles (group.call now call).1.roster ∨ ∃ uuid request delay, call = .join uuid request delay ∧
        group.roster.Receives group.names uuid request (group.call now call).1.roster :=
  (group.call_fades now call).imp Roster.Fades.dwindles fun ⟨uuid, request, delay, same, welcomes⟩ =>
    ⟨uuid, request, delay, same, welcomes.receives⟩

theorem Wrapper.contacted_call {group : Wrapper} (contacted : group.roster.Contacted) (now : SystemTime)
    (call : Call) : (group.call now call).1.roster.Contacted := by
  rcases group.call_fades now call with fades | ⟨_, _, _, _, same | ⟨_, _, _, _, arrives, fades⟩⟩
  · exact fades.contacted contacted
  · rw [same]
    exact contacted
  · exact fades.contacted (arrives contacted)

end Nisshi.Coordinator
