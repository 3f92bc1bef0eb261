import Nisshi.Coordinator.Membership

/-! What holds in every state of a group: the leader, the join phase, the pending syncs and the assignments
agree with the members. -/

namespace Nisshi.Coordinator

open Nisshi.SansIo Nisshi.Storage Nisshi.Lib Option
open Std (ExtTreeMap ExtTreeSet)

namespace Inner

/-- A group with members has a leader. In the strict sense, its leader is one of them. -/
structure Led (inner : Inner Forming) (strict : Prop) : Prop where
  leader : strict → ∀ leader, inner.state.leader = some leader → leader ∈ inner.members
  led : ∀ id ∈ inner.members, inner.state.leader.isSome = true

def Synced (inner : Inner Forming) : Prop :=
  ∀ pendingSync, inner.pendingSync = some pendingSync →
    inner.state.joinPhase = none ∧ ∀ id ∈ pendingSync.members, id ∈ inner.members

structure Ordered (inner : Inner Forming) (strict : Prop) : Prop extends Led inner strict where
  synced : inner.Synced

variable {inner next : Inner Forming} {now : SystemTime} {memberId : String} {request : JoinRequest}
  {strict : Prop}

theorem Led.congr (led : inner.Led strict) (members : ∀ id, id ∈ next.members ↔ id ∈ inner.members)
    (leader : next.state.leader = inner.state.leader) : next.Led strict where
  leader := fun asked found leads => (members found).mpr (led.leader asked found (leader ▸ leads))
  led := fun id present => by rw [leader]; exact led.led id ((members id).mp present)

theorem Ordered.congr (ordered : inner.Ordered strict) (members : ∀ id, id ∈ next.members ↔ id ∈ inner.members)
    (state : next.state = inner.state)
    (pendingSync : ∀ later, next.pendingSync = some later → ∃ earlier, inner.pendingSync = some earlier ∧
      ∀ id ∈ later.members, id ∈ earlier.members) : next.Ordered strict where
  toLed := ordered.toLed.congr members (by rw [state])
  synced := fun later held => by
    obtain ⟨earlier, before, within⟩ := pendingSync later held
    obtain ⟨phase, known⟩ := ordered.synced earlier before
    exact ⟨by rw [state]; exact phase, fun id present => (members id).mpr (known id (within id present))⟩

theorem Led.ordered (led : inner.Led strict) (none : inner.pendingSync = none) : inner.Ordered strict :=
  ⟨led, fun _ held => by rw [none] at held; cases held⟩

theorem Led.startJoinPhase (led : inner.Led strict) : (inner.startJoinPhase now).Ordered strict :=
  Led.ordered (led.congr (fun _ => Iff.rfl) rfl) rfl

theorem Led.prepareRebalance (led : inner.Led strict) : (inner.prepareRebalance now).Ordered strict := by
  rw [Inner.prepareRebalance]
  split
  · apply Led.startJoinPhase
    exact led.congr (fun _ => mem_restartSessionsOfSyncedMembers) rfl
  · exact led.startJoinPhase

theorem Led.ensureJoinPhase (led : inner.Led strict)
    (unsynced : inner.state.joinPhase.isSome = true → inner.pendingSync = none) :
    (inner.ensureJoinPhase now).Ordered strict := by
  rw [Inner.ensureJoinPhase]
  split
  next => exact led.prepareRebalance
  next phase => exact led.ordered (unsynced (isSome_iff_ne_none.mpr (by simpa using phase)))

theorem Ordered.unsynced (ordered : inner.Ordered strict) (phase : inner.state.joinPhase.isSome = true) :
    inner.pendingSync = none := by
  cases held : inner.pendingSync with
  | none => rfl
  | some pendingSync =>
    rw [(ordered.synced pendingSync held).1] at phase
    cases phase

theorem Ordered.setJoinPhase (ordered : inner.Ordered strict) (phase : inner.state.joinPhase.isSome = true)
    (joinPhase : Option JoinPhase) : (inner.setJoinPhase joinPhase).Ordered strict :=
  Led.ordered (ordered.toLed.congr (fun _ => Iff.rfl) rfl) (ordered.unsynced phase)

variable {delay : Duration} {joinPhase : JoinPhase} {metadata : List UInt8}
  {protocol : JoinGroupRequestProtocol}

theorem Ordered.enterJoinPhase (ordered : inner.Ordered strict) :
    (inner.enterJoinPhase now isEmpty delay).Ordered strict := by
  rw [Inner.enterJoinPhase]
  split
  next phase => exact ordered.setJoinPhase (by rw [phase]; rfl) _
  next =>
    split
    · exact Led.ordered (ordered.toLed.congr (fun _ => Iff.rfl) rfl) rfl
    · exact ordered.toLed.prepareRebalance

theorem Ordered.markJoined (ordered : inner.Ordered strict) : (inner.markJoined memberId).Ordered strict := by
  cases phase : inner.state.joinPhase with
  | some => exact ordered.setJoinPhase (by rw [phase]; rfl) _
  | none =>
    refine ordered.congr (fun _ => Iff.rfl) ?_ fun later held => ⟨later, held, fun _ present => present⟩
    simp only [Inner.markJoined, Inner.setJoinPhase, phase, map_none]
    rw [← phase]

/-! The end of a join phase. -/

theorem startGeneration_ordered (phase : inner.state.joinPhase = none) (led : inner.members.isEmpty = false →
      ∃ leader, inner.state.leader = some leader ∧ leader ∈ inner.members) :
    (inner.startGeneration now).Ordered strict := by
  rw [startGeneration]
  split
  next empty =>
    have absent := OrderedMap.isEmpty_iff_forall_not_mem.mp empty
    exact Led.ordered ⟨fun _ _ led => absurd led.symm (some_ne_none _),
      fun id present => absurd present (absent id)⟩ rfl
  next filled =>
    obtain ⟨_, leads, member⟩ := led (by simpa using filled)
    refine ⟨⟨fun _ found same => ?_, fun _ _ => by rw [leads]; rfl⟩, ?_⟩
    · obtain rfl := some.inj (leads.symm.trans same)
      exact ExtTreeMap.mem_map.mpr member
    · rintro _ ⟨⟩
      refine ⟨phase, fun id present => ExtTreeMap.mem_map.mpr ?_⟩
      rw [ExtTreeSet.mem_ofList, List.contains_iff_mem] at present
      exact ExtTreeMap.mem_keys.mp present

/-- The end of a join phase keeps the group in order when, if nobody has joined, the leader is not among the
dynamic members that are removed. -/
theorem Ordered.completeJoin (ordered : inner.Ordered strict) (coherent : inner.Coherent)
    (phase : inner.state.joinPhase = some joinPhase)
    (stays : strict → (inner.keepJoined joinPhase).members.keys.any joinPhase.joined.contains = false →
      ∀ leader, inner.state.leader = some leader → (inner.keepJoined joinPhase).members.isEmpty = false →
        leader ∈ (inner.keepJoined joinPhase).members) : (inner.completeJoin now).Ordered strict := by
  have unsynced : inner.pendingSync = none := ordered.unsynced (by rw [phase]; rfl)
  simp only [Inner.completeJoin, phase]
  split
  next unjoined =>
    obtain ⟨filled, nobody⟩ : (inner.keepJoined joinPhase).members.isEmpty = false ∧
        (inner.keepJoined joinPhase).members.keys.any joinPhase.joined.contains = false := by
      simpa only [Bool.and_eq_true, Bool.not_eq_true'] using unjoined
    refine Led.ordered ⟨fun asked leader leads => stays asked nobody leader leads filled, fun id present => ?_⟩ unsynced
    exact ordered.led id (mem_of_mem_keepJoined present)
  next rejoined =>
    refine startGeneration_ordered ?_ (coherent.elected phase rejoined)
    rw [electLeader]
    split <;> rfl

def Uniform (inner : Inner Forming) : Prop :=
  (∀ id response, inner.roster.response id = some response → response.groupInstanceId.isSome = true) ∨
    ∀ id response, inner.roster.response id = some response → response.groupInstanceId = none

def Unmixed (inner : Inner Forming) (now : SystemTime) : Prop :=
  ∀ joinPhase, inner.state.joinPhase = some joinPhase → joinPhase.deadline ≤ now →
    joinPhase.joined.isEmpty = true → inner.Uniform

theorem Ordered.completeJoin_of_unmixed (ordered : inner.Ordered strict) (coherent : inner.Coherent)
    (phase : inner.state.joinPhase = some joinPhase)
    (unmixed : strict → joinPhase.joined.isEmpty = true → inner.Uniform) :
    (inner.completeJoin now).Ordered strict := by
  refine ordered.completeJoin coherent phase fun asked nobody leader leads filled => ?_
  have unjoined : ∀ id ∈ (inner.keepJoined joinPhase).members, joinPhase.joined.contains id = false :=
    fun id present => Bool.eq_false_iff.mpr fun joined => by
      rw [List.any_eq_true.mpr ⟨id, ExtTreeMap.mem_keys.mpr present, joined⟩] at nobody
      cases nobody
  have empty : joinPhase.joined.isEmpty = true := by
    refine ExtTreeSet.isEmpty_iff.mpr (ExtTreeSet.eq_empty_iff_forall_not_mem.mpr fun id present => ?_)
    have joined := ExtTreeSet.contains_iff_mem.mpr present
    have kept := mem_keepJoined.mpr ⟨_, ExtTreeMap.getElem?_eq_some_getElem
      (coherent.joined joinPhase phase id present), by rw [joined]; rfl⟩
    rw [unjoined id kept] at joined
    cases joined
  have member := ordered.leader asked leader leads
  rcases unmixed asked empty with static | dynamic
  · refine mem_keepJoined.mpr ⟨_, ExtTreeMap.getElem?_eq_some_getElem member, ?_⟩
    rw [static leader _ (congrArg (Option.map _) (ExtTreeMap.getElem?_eq_some_getElem member)), Bool.or_true]
  · obtain ⟨id, present⟩ := OrderedMap.exists_mem filled
    obtain ⟨_, found, kept⟩ := mem_keepJoined.mp present
    rw [unjoined id present, dynamic id _ (congrArg (Option.map _) found)] at kept
    cases kept

theorem unmixed_of_early (early : ∀ joinPhase, inner.state.joinPhase = some joinPhase → now < joinPhase.deadline) :
    inner.Unmixed now :=
  fun joinPhase phase late => absurd late (Int.not_le.mpr (early joinPhase phase))

theorem Uniform.dwindles (uniform : inner.Uniform) (dwindles : inner.roster.Dwindles next.roster) :
    next.Uniform :=
  uniform.imp (fun all id response held => all id response (dwindles.response id response held))
    fun all id response held => all id response (dwindles.response id response held)

theorem Ordered.completeJoin_of_all (ordered : inner.Ordered strict) (coherent : inner.Coherent)
    (phase : inner.state.joinPhase = some joinPhase) (all : inner.allMembersJoined = true) :
    (inner.completeJoin now).Ordered strict := by
  refine ordered.completeJoin coherent phase fun asked _ leader leads _ => ?_
  have member := ordered.leader asked leader leads
  simp only [allMembersJoined, phase, any_some, Bool.and_eq_true, List.all_eq_true] at all
  have joined := all.2 leader (ExtTreeMap.mem_keys.mpr member)
  exact mem_keepJoined.mpr ⟨_, ExtTreeMap.getElem?_eq_some_getElem member, by rw [joined]; rfl⟩

theorem Ordered.ends (ordered : inner.Ordered strict) (sound : inner.Sound) (ends : Ends due now inner next)
    (unmixed : strict → due = true → inner.Unmixed now) : next.Ordered strict := by
  induction ends with
  | refl => exact ordered
  | extended phase late more _ ih =>
    refine ih (ordered.setJoinPhase (by rw [phase]; rfl) _) ?_ ?_
    · refine Coherent.sound (sound.setJoinPhase _ ?_) rfl
      rw [joined_of_extended more]
      exact sound.joined _ phase
    · rintro asked timed _ ⟨⟩ _ empty
      rw [joined_of_extended more] at empty
      exact unmixed asked timed _ phase late.2 empty
  | completed phase late _ ih =>
    refine ih ?_ (sound.toCoherent.completeJoin phase) fun _ _ =>
      unmixed_of_early fun _ => early_completeJoin phase
    rcases late with all | ⟨timed, late⟩
    · exact ordered.completeJoin_of_all sound.toCoherent phase all
    · exact ordered.completeJoin_of_unmixed sound.toCoherent phase fun asked =>
        unmixed asked timed _ phase late

theorem Ordered.afterJoin (ordered : inner.Ordered strict) (sound : inner.Sound) (member : memberId ∈ inner.members) :
    (inner.joined now memberId).1.Ordered strict :=
  ordered.markJoined.ends (sound.markJoined member) (.joined inner now memberId) fun _ => nofun

/-! Members that join. -/

theorem Synced.grow (synced : inner.Synced) (pendingSync : next.pendingSync = inner.pendingSync)
    (phase : next.state.joinPhase = inner.state.joinPhase)
    (members : ∀ id ∈ inner.members, id ∈ next.members) : next.Synced := fun held found => by
  obtain ⟨none, known⟩ := synced held (pendingSync ▸ found)
  exact ⟨phase.trans none, fun id present => members id (known id present)⟩

theorem Ordered.upsertMember (ordered : inner.Ordered strict) (member : memberId ∈ inner.members) :
    (inner.upsertMember now memberId request metadata).Ordered strict where
  leader := fun asked leader leads => mem_upsertMember.mpr (.inr (ordered.leader asked leader leads))
  led := fun _ _ => ordered.led memberId member
  synced := ordered.synced.grow rfl rfl fun _ present => mem_upsertMember.mpr (.inr present)

theorem leader_adoptProtocol : (inner.adoptProtocol request protocol).state.leader = inner.state.leader := by
  rw [adoptProtocol]
  split
  next none =>
    simp only [Forming.leader, isNone_iff_eq_none.mp none]
    rfl
  next => rfl

theorem Ordered.seatMember (ordered : inner.Ordered strict) (coherent : inner.Coherent) :
    (inner.seatMember now memberId request protocol).Ordered strict := by
  have held : ((inner.adoptProtocol request protocol).upsertMember now memberId request
      protocol.metadata).state.protocol.isSome = true := coherent.adoptProtocol.2
  have members : (inner.adoptProtocol request protocol).members = inner.members := by
    rw [adoptProtocol]
    split <;> rfl
  have synced : ((inner.adoptProtocol request protocol).upsertMember now memberId request
      protocol.metadata).Synced := by
    refine ordered.synced.grow ?_ ?_ fun id present => mem_upsertMember.mpr (.inr (members ▸ present))
    all_goals
      rw [adoptProtocol]
      split <;> rfl
  simp only [Inner.seatMember]
  split
  next =>
    refine ⟨⟨fun _ leader leads => ?_, fun _ _ => ?_⟩, synced⟩
    · rw [leader_setLeader held] at leads
      obtain rfl := some.inj leads
      exact mem_upsertMember.mpr (.inl rfl)
    · rw [leader_setLeader held]
      rfl
  next leads =>
    refine ⟨⟨fun asked leader same => ?_, fun _ _ => ?_⟩, synced⟩
    · have member := ordered.leader asked leader (leader_adoptProtocol.symm.trans same)
      exact mem_upsertMember.mpr (.inr (members ▸ member))
    · exact isSome_iff_ne_none.mpr (by simpa using leads)

theorem Ordered.addMember (ordered : inner.Ordered strict) (coherent : inner.Coherent) :
    (inner.addMember now memberId request protocol delay).1.Ordered strict := by
  exact (ordered.seatMember coherent).enterJoinPhase.afterJoin coherent.seatMember.enterJoinPhase
    (mem_enterJoinPhase.mpr mem_seatMember)

theorem Ordered.updateMember (ordered : inner.Ordered strict) (coherent : inner.Coherent)
    (member : memberId ∈ inner.members) :
    (inner.updateMember now memberId request metadata).1.Ordered strict := by
  rw [Inner.updateMember]
  split
  · exact ordered
  · have updated : (inner.upsertMember now memberId request metadata).Coherent :=
      coherent.upsertMember (coherent.protocol _ member)
    exact ((ordered.upsertMember member).toLed.ensureJoinPhase ordered.unsynced).afterJoin updated.ensureJoinPhase
      (mem_ensureJoinPhase.mpr (mem_upsertMember.mpr (.inl rfl)))

theorem leader_handOver (inner : Inner Forming) (old new : String) (protocol : inner.state.protocol.isSome = true) :
    (inner.handOver old new).state.leader = if inner.state.leader = some old then some new else inner.state.leader := by
  simp only [handOver, Inner.setJoinPhase]
  rw [state_renameMember]
  split
  · exact leader_setLeader (by rw [state_renameMember]; exact protocol) _
  · rw [← state_renameMember inner old new]
    rfl

theorem pendingSync_handOver {new : String} : (inner.handOver old new).pendingSync = inner.pendingSync := by
  have renamed : (inner.renameMember old new).pendingSync = inner.pendingSync := by
    rw [renameMember]
    split <;> rfl
  simp only [handOver, Inner.setJoinPhase]
  split <;> exact renamed

theorem Ordered.replaceStaticMember (ordered : inner.Ordered strict) (sound : inner.Sound) {new : String}
    (member : old ∈ inner.members) : (inner.replaceStaticMember now old new request metadata).1.Ordered strict := by
  obtain ⟨coherent, protocol⟩ := sound.handOver new member
  have leads := inner.leader_handOver old new (sound.protocol old member)
  have led : ((inner.handOver old new).upsertMember now new request metadata).Led strict := by
    refine ⟨fun asked leader same => mem_upsertMember.mpr ?_, fun _ _ => ?_⟩
    · replace same := leads.symm.trans same
      split at same
      next => exact .inl (some.inj same)
      next other =>
        rw [members_handOver]
        refine .inr (mem_renameMember (ordered.leader asked leader same) ?_)
        rintro rfl
        exact other same
    · have some := ordered.led old member
      change (inner.handOver old new).state.leader.isSome = true
      rw [leads]
      split
      exacts [rfl, some]
  have unsynced : (inner.handOver old new).state.joinPhase.isSome = true →
      (inner.handOver old new).pendingSync = none := fun phase => by
    rw [joinPhase_handOver, isSome_map] at phase
    rw [pendingSync_handOver]
    exact ordered.unsynced phase
  exact (led.ensureJoinPhase unsynced).afterJoin (Coherent.ensureJoinPhase (coherent.upsertMember protocol))
    (mem_ensureJoinPhase.mpr (mem_upsertMember.mpr (.inl rfl)))

/-! Members that are removed. -/

theorem forgetRemovedMembers_ordered (led : ∀ id ∈ inner.members, inner.state.leader.isSome = true)
    (unsynced : inner.state.joinPhase.isSome = true → inner.pendingSync = none) :
    inner.forgetRemovedMembers.Ordered strict := by
  refine ⟨⟨fun _ leader leads => ?_, fun id present => ?_⟩, fun pendingSync held => ?_⟩
  · rw [members_forgetRemovedMembers]
    exact mem_of_leader_forgetRemovedMembers leads
  · rw [members_forgetRemovedMembers] at present
    rw [leader_forgetRemovedMembers]
    split
    · exact List.isSome_head?.mpr (List.ne_nil_of_mem (ExtTreeMap.mem_keys.mpr present))
    · exact led id present
  · rw [pendingSync_forgetRemovedMembers] at held
    obtain ⟨_, before, rfl⟩ := map_eq_some_iff.mp held
    refine ⟨?_, fun id present => ?_⟩
    · rw [joinPhase_forgetRemovedMembers]
      simpa [before] using unsynced
    · rw [members_forgetRemovedMembers]
      exact ExtTreeMap.contains_iff_mem.mp (OrderedMap.mem_filter_set_iff.mp present).2

theorem Ordered.removal (ordered : inner.Ordered strict) (removal : inner.Removal next) :
    next.forgetRemovedMembers.Ordered strict := by
  apply forgetRemovedMembers_ordered
  · intro id present
    rw [removal.state]
    exact ordered.led id (removal.mem present)
  · intro phase
    cases removal with
    | mk _ _ unsynced => exact unsynced (ordered.unsynced phase)

theorem Ordered.rests (ordered : inner.Ordered strict) (rests : inner.Rests next) : next.Ordered strict := by
  cases rests with
  | contacts =>
    exact ordered.congr (fun _ => ExtTreeMap.mem_modify) rfl fun later held => ⟨later, held, fun _ present => present⟩
  | forgets => exact ordered.congr (fun _ => Iff.rfl) rfl fun later held => ⟨later, held, fun _ present => present⟩
  | synced => exact ordered.congr (fun _ => Iff.rfl) rfl nofun

theorem Unmixed.rests (unmixed : inner.Unmixed now) (rests : inner.Rests next) : next.Unmixed now := by
  intro joinPhase phase late empty
  exact (unmixed joinPhase (rests.state ▸ phase) late empty).dwindles (inner.fades_rests rests).dwindles

theorem Unmixed.removal (unmixed : inner.Unmixed now) (coherent : inner.Coherent) (removal : inner.Removal next)
    (waiting : ∀ id ∈ inner.members, inner.isWaiting id = true → id ∈ next.members) :
    next.forgetRemovedMembers.Unmixed now := by
  intro later phase late empty
  rw [joinPhase_forgetRemovedMembers, removal.state] at phase
  obtain ⟨joinPhase, held, rfl⟩ := map_eq_some_iff.mp phase
  refine (unmixed joinPhase held late ?_).dwindles
    ((inner.fades_removal removal).trans next.fades_forgetRemovedMembers).dwindles
  refine ExtTreeSet.isEmpty_iff.mpr (ExtTreeSet.eq_empty_iff_forall_not_mem.mpr fun id joined => ?_)
  have waits : inner.isWaiting id = true := by
    rw [isWaiting, held]
    exact ExtTreeSet.contains_iff_mem.mpr joined
  have stays := waiting id (coherent.joined joinPhase held id joined) waits
  exact ExtTreeSet.eq_empty_iff_forall_not_mem.mp (ExtTreeSet.isEmpty_iff.mp empty) id
    (OrderedMap.mem_filter_set_iff.mpr ⟨joined, ExtTreeMap.contains_iff_mem.mpr stays⟩)

theorem Ordered.joinForming (ordered : inner.Ordered strict) (sound : inner.Sound) :
    (inner.joinForming now uuid request delay).1.Ordered strict := by
  have pending : ∀ pendingMembers, ({ inner with pendingMembers }).Ordered strict := fun _ =>
    ordered.congr (fun _ => Iff.rfl) rfl fun later held => ⟨later, held, fun _ present => present⟩
  rw [Inner.joinForming]
  split
  · exact ordered
  · split
    · split
      next => exact pending _
      next => exact ordered.addMember sound.toCoherent
      next replacing => exact ordered.replaceStaticMember sound (NewMember.of_replacing replacing)
    · split
      · have forgot : (inner.forgetPending request.memberId).Sound := sound.congr (fun _ => Iff.rfl) rfl rfl
        exact (pending _).addMember forgot.toCoherent
      · split
        next => exact ordered
        next valid =>
          split
          exacts [ordered, ordered.updateMember sound.toCoherent (mem_of_validateMember valid)]

theorem of_forgetPendingSync {inner : Inner S} {memberIds : List String}
    (held : (inner.forgetPendingSync memberIds).pendingSync = some later) :
    ∃ earlier, inner.pendingSync = some earlier ∧ ∀ id ∈ later.members, id ∈ earlier.members := by
  obtain ⟨earlier, before, found⟩ := bind_eq_some_iff.mp held
  refine ⟨earlier, before, fun id present => ?_⟩
  simp only [ite_none_left_eq_some, some.injEq] at found
  obtain ⟨_, rfl⟩ := found
  have erased : ∀ (memberIds : List String) (members : ExtTreeSet String),
      id ∈ memberIds.foldl (fun members memberId => members.erase memberId) members → id ∈ members := by
    intro memberIds
    induction memberIds with
    | nil => exact fun _ present => present
    | cons _ _ ih => exact fun members present => ExtTreeSet.mem_of_mem_erase (ih _ present)
  exact erased memberIds _ present

/-! A formed group. -/

theorem mem_renameMember_iff {inner : Inner S} {new id : String} (member : old ∈ inner.members) :
    id ∈ (inner.renameMember old new).members ↔ id = new ∨ id ≠ old ∧ id ∈ inner.members := by
  rw [renameMember, ExtTreeMap.getElem?_eq_some_getElem member]
  simp only [ExtTreeMap.mem_insert, ExtTreeMap.mem_erase, Std.compare_eq_iff_eq, ne_eq]
  rw [eq_comm, eq_comm (a := old)]

/-- The leader is a member, the members have assignments, and only members must still sync. -/
structure Assigned (inner : Inner Formed) : Prop where
  leader : inner.state.leader ∈ inner.members
  assignments : ∀ id, id ∈ inner.state.assignments ↔ id ∈ inner.members
  synced : ∀ pendingSync, inner.pendingSync = some pendingSync → ∀ id ∈ pendingSync.members, id ∈ inner.members

theorem intoPreparingRebalance_ordered (inner : Inner Formed) (now : SystemTime) :
    (inner.intoPreparingRebalance now).Ordered strict := by
  refine Led.ordered ⟨fun _ leader leads => ?_, fun id present => ?_⟩ rfl
  · replace leads : (if inner.members.contains inner.state.leader then some inner.state.leader
      else inner.members.keys.head?) = some leader := leads
    split at leads
    next member => exact some.inj leads ▸ ExtTreeMap.contains_iff_mem.mp member
    next => exact OrderedMap.mem_of_head? leads
  · change isSome (if inner.members.contains inner.state.leader then some inner.state.leader
      else inner.members.keys.head?) = true
    split
    · rfl
    · exact List.isSome_head?.mpr (List.ne_nil_of_mem (ExtTreeMap.mem_keys.mpr present))

theorem mem_completeAssignments {inner : Inner Forming} {id : String} :
    id ∈ inner.completeAssignments assignments ↔ id ∈ inner.members := by
  simp only [completeAssignments, OrderedMap.mem_foldl_insertIfNew, OrderedMap.mem_foldl_insert, ExtTreeMap.mem_keys]
  refine or_iff_right_of_imp ?_
  rintro (absent | ⟨_, given, rfl⟩)
  · exact absurd absent ExtTreeMap.not_mem_empty
  · exact ExtTreeMap.contains_iff_mem.mp (List.mem_filter.mp given).2

section

variable {formed other : Inner Formed}

variable (assigned : formed.Assigned)

include assigned

theorem Assigned.congr (members : ∀ id, id ∈ other.members ↔ id ∈ formed.members) (state : other.state = formed.state)
    (pendingSync : ∀ later, other.pendingSync = some later → ∃ earlier, formed.pendingSync = some earlier ∧
      ∀ id ∈ later.members, id ∈ earlier.members) : other.Assigned where
  leader := (members _).mpr (by rw [state]; exact assigned.leader)
  assignments := fun id => by rw [state, assigned.assignments, members]
  synced := fun later held id present => by
    obtain ⟨earlier, before, within⟩ := pendingSync later held
    exact (members id).mpr (assigned.synced earlier before id (within id present))

theorem Assigned.rests (rests : formed.Rests other) : other.Assigned := by
  cases rests with
  | contacts =>
    exact assigned.congr (fun _ => ExtTreeMap.mem_modify) rfl fun later held => ⟨later, held, fun _ present => present⟩
  | forgets => exact assigned.congr (fun _ => Iff.rfl) rfl fun later held => ⟨later, held, fun _ present => present⟩
  | synced => exact assigned.congr (fun _ => Iff.rfl) rfl nofun

theorem Assigned.forgetPendingSync : (formed.forgetPendingSync memberIds).Assigned :=
  assigned.congr (fun _ => Iff.rfl) rfl fun _ held => of_forgetPendingSync held

theorem Assigned.upsertMember (member : memberId ∈ formed.members) :
    (formed.upsertMember now memberId request metadata).Assigned := by
  refine assigned.congr (fun id => mem_upsertMember.trans ?_) rfl
    fun later held => ⟨later, held, fun _ present => present⟩
  exact or_iff_right_of_imp fun same => same ▸ member

theorem Assigned.takePlace {new : String} (member : old ∈ formed.members) : (formed.takePlace old new).Assigned := by
  have members : ∀ id, id ∈ (formed.takePlace old new).members ↔ id = new ∨ id ≠ old ∧ id ∈ formed.members :=
    fun id => mem_renameMember_iff member
  have state := state_renameMember formed old new
  obtain ⟨_, given⟩ : ∃ assignment, formed.state.assignments[old]? = some assignment :=
    ⟨_, ExtTreeMap.getElem?_eq_some_getElem ((assigned.assignments old).mpr member)⟩
  have pendingSync : (formed.renameMember old new).pendingSync = formed.pendingSync := by
    rw [renameMember]
    split <;> rfl
  refine ⟨(members _).mpr ?_, fun id => ?_, fun later held id present => (members id).mpr ?_⟩
  · simp only [Inner.takePlace, state]
    split
    next => exact .inl rfl
    next other => exact .inr ⟨other, assigned.leader⟩
  · rw [members]
    simp only [Inner.takePlace, state, given, ExtTreeMap.mem_insert, ExtTreeMap.mem_erase,
      assigned.assignments, Std.compare_eq_iff_eq, ne_eq]
    rw [eq_comm, eq_comm (a := old)]
  · simp only [Inner.takePlace, pendingSync] at held
    obtain ⟨earlier, before, rfl⟩ := map_eq_some_iff.mp held
    split at present
    next =>
      rcases ExtTreeSet.mem_insert.mp present with same | kept
      · exact .inl (Std.compare_eq_iff_eq.mp same).symm
      · obtain ⟨other, listed⟩ := ExtTreeSet.mem_erase.mp kept
        exact .inr ⟨fun same => other (Std.compare_eq_iff_eq.mpr same.symm), assigned.synced earlier before id listed⟩
    next gone =>
      refine .inr ⟨?_, assigned.synced earlier before id present⟩
      rintro rfl
      exact gone (ExtTreeSet.contains_iff_mem.mpr present)

theorem Assigned.syncFormed {request : SyncRequest} : (formed.syncFormed now request).1.Assigned := by
  have synced : ((formed.forgetPendingSync [request.memberId]).contact now request.memberId).Assigned :=
    assigned.forgetPendingSync.rests (.contacts now _)
  rw [Inner.syncFormed]
  repeat' split
  all_goals first | exact assigned | exact synced

end

end Inner

def Wrapper.Ordered (group : Wrapper) (strict : Prop) : Prop :=
  match group with
  | .forming inner => inner.Ordered strict
  | .formed inner => inner.Assigned

namespace Inner

theorem Ordered.syncForming {inner : Inner Forming} (ordered : inner.Ordered strict) {now : SystemTime} :
    (inner.syncForming now request).1.Ordered strict := by
  have synced : (inner.forgetPendingSync [request.memberId]).Ordered strict :=
    ordered.congr (fun _ => Iff.rfl) rfl fun _ held => of_forgetPendingSync held
  simp only [Inner.syncForming]
  split
  · exact ordered
  next valid =>
    split
    · exact ordered
    · split
      · exact ordered
      · split
        · exact ordered
        · split
          · split
            next => exact synced
            next leads =>
              obtain rfl := not_not.mp leads
              refine ⟨?_, fun id => ?_, fun pendingSync held id present => ?_⟩
              · exact mem_restartSessionsOfSyncedMembers.mpr (mem_of_validateMember valid)
              · exact mem_completeAssignments.trans mem_restartSessionsOfSyncedMembers.symm
              · exact mem_restartSessionsOfSyncedMembers.mpr ((synced.synced pendingSync held).2 id present)
          · exact synced

theorem Assigned.joinFormed {inner : Inner Formed} (assigned : inner.Assigned) {now : SystemTime}
    {request : JoinRequest} : (inner.joinFormed now uuid request delay).1.Ordered strict := by
  have preparing : ∀ inner : Inner Formed,
      (inner.intoPreparingRebalance now).Ordered strict ∧ (inner.intoPreparingRebalance now).Coherent :=
    fun inner => ⟨inner.intoPreparingRebalance_ordered now, (inner.intoPreparingRebalance_sound now).toCoherent⟩
  rw [Inner.joinFormed]
  split
  · exact assigned
  · split
    · split
      next =>
        exact assigned.congr (fun _ => Iff.rfl) rfl fun later held => ⟨later, held, fun _ present => present⟩
      next => exact (preparing inner).1.addMember (preparing inner).2
      next replacing =>
        have member := NewMember.of_replacing replacing
        exact (assigned.takePlace member).upsertMember ((mem_renameMember_iff member).mpr (.inl rfl))
    · split
      · exact (preparing _).1.addMember (preparing _).2
      · split
        next => exact assigned
        next valid =>
          split
          · exact assigned
          · exact (preparing inner).1.updateMember (preparing inner).2 (mem_of_validateMember valid)

end Inner

namespace Wrapper

variable {group : Wrapper} {now : SystemTime}

def strands (now : SystemTime) : Wrapper → Bool
  | .forming inner =>
    (inner.state.joinPhase.any fun joinPhase =>
      decide (joinPhase.deadline ≤ now) && joinPhase.joined.isEmpty) &&
    (inner.members.toList.any fun (_, member) => member.joinResponse.groupInstanceId.isSome) &&
    inner.members.toList.any fun (_, member) => member.joinResponse.groupInstanceId.isNone
  | .formed _ => false

theorem unmixed_of_strands {inner : Inner Forming} (safe : (forming inner).strands now = false) :
    inner.Unmixed now := by
  intro joinPhase phase due empty
  have kinds : (inner.members.toList.any fun (_, member) => member.joinResponse.groupInstanceId.isSome) = false ∨
      (inner.members.toList.any fun (_, member) => member.joinResponse.groupInstanceId.isNone) = false := by
    simpa only [strands, phase, any_some, decide_eq_true due, empty, Bool.true_and, Bool.and_eq_false_iff] using safe
  have listed : ∀ {id response}, inner.roster.response id = some response →
      ∃ member, (id, member) ∈ inner.members.toList ∧ member.joinResponse = response := by
    intro id response held
    obtain ⟨member, found, same⟩ := map_eq_some_iff.mp held
    exact ⟨member, ExtTreeMap.mem_toList_iff_getElem?_eq_some.mpr found, same⟩
  rcases kinds with dynamic | static
  · refine .inr fun id response held => ?_
    obtain ⟨member, present, rfl⟩ := listed held
    simpa using List.any_eq_false.mp dynamic (id, member) present
  · refine .inl fun id response held => ?_
    obtain ⟨member, present, rfl⟩ := listed held
    simpa [isSome_iff_ne_none] using List.any_eq_false.mp static (id, member) present

theorem Ordered.passes {next : Wrapper} (ordered : group.Ordered strict) (sound : group.Sound)
    (passes : Passes due now group next) (safe : strict → due = true → group.strands now = false) :
    next.Ordered strict := by
  cases passes with
  | rests rests ends =>
    refine (Inner.Ordered.rests ordered rests).ends (Inner.Sound.rests sound rests) ends fun asked timed => ?_
    exact (unmixed_of_strands (safe asked timed)).rests rests
  | restsFormed rests => exact Inner.Assigned.rests ordered rests
  | removes removal phase waiting ends =>
    have coherent := Inner.Sound.removal sound removal
    refine (Inner.Ordered.removal ordered removal).ends (coherent.sound (removal.joinPhase_isSome.trans phase))
      ends fun asked timed => ?_
    exact (unmixed_of_strands (safe asked timed)).removal sound.toCoherent removal (waiting timed)
  | rebalances removal _ ends =>
    exact (Inner.Ordered.removal ordered removal).toLed.prepareRebalance.ends
      (Inner.Sound.removal sound removal).prepareRebalance ends
      fun _ _ => Inner.unmixed_of_early (Inner.early_prepareRebalance _ now)
  | idles removal => exact Inner.Ordered.removal ordered removal
  | reopens _ ends =>
    exact (Inner.intoPreparingRebalance_ordered _ now).ends (Inner.intoPreparingRebalance_sound _ now) ends
      fun _ _ => Inner.unmixed_of_early (Inner.early_startJoinPhase _ now)

theorem ordered_new (inception : SystemTime) : (new inception).Ordered strict :=
  Inner.Led.ordered ⟨nofun, fun _ present => absurd present ExtTreeMap.not_mem_empty⟩ rfl

/-- Each call keeps the group in order, unless it ends a join phase that nobody has joined in a group of
static and dynamic members. -/
theorem Ordered.call (ordered : group.Ordered strict) (sound : group.Sound) (now : SystemTime) (call : Call)
    (safe : strict → call = .settle → group.strands now = false) : (group.call now call).1.Ordered strict := by
  cases call with
  | settle => exact ordered.passes sound (group.settle_passes now) fun asked _ => safe asked rfl
  | join =>
    cases group with
    | forming => exact Inner.Ordered.joinForming ordered sound
    | formed => exact Inner.Assigned.joinFormed ordered
  | sync =>
    cases group with
    | forming => exact Inner.Ordered.syncForming ordered
    | formed => exact Inner.Assigned.syncFormed ordered
  | heartbeat generationId memberId groupInstanceId =>
    exact ordered.passes sound (group.heartbeat_passes now generationId memberId groupInstanceId) fun _ => nofun
  | leave memberId members =>
    exact ordered.passes sound (group.leave_passes now memberId members) fun _ => nofun
  | checkOffsetCommit detail =>
    exact ordered.passes sound (group.checkOffsetCommit_passes now detail) fun _ => nofun

def leader : Wrapper → Option String
  | .forming inner => inner.state.leader
  | .formed inner => some inner.state.leader

def joinPhase : Wrapper → Option JoinPhase
  | .forming inner => inner.state.joinPhase
  | .formed _ => none

def pendingSync : Wrapper → Option PendingSync
  | .forming inner => inner.pendingSync
  | .formed inner => inner.pendingSync

/-- The join phase, the pending syncs, the pending member ids and the assignments agree with the members; so
does the leader of a formed group, and of a forming one that waits for its leader's assignment. -/
structure WellFormed (group : Wrapper) : Prop where
  keyed : ∀ (memberId : String) (member : Member), group.members[memberId]? = some member →
    member.joinResponse.memberId = memberId
  joined : ∀ joinPhase, group.joinPhase = some joinPhase → ∀ id ∈ joinPhase.joined, id ∈ group.members
  synced : ∀ pendingSync, group.pendingSync = some pendingSync → ∀ id ∈ pendingSync.members, id ∈ group.members
  pending : ∀ id ∈ group.pendingMembers, id ∉ group.members
  forming : ∀ inner, group = .forming inner → inner.members.isEmpty = false →
    inner.state.protocol.isSome = true ∧ ∃ leader, inner.state.leader = some leader ∧
      (inner.state.joinPhase.isSome = true ∨
        ∃ pendingSync, inner.pendingSync = some pendingSync ∧ leader ∈ pendingSync.members)
  formed : ∀ inner, group = .formed inner → inner.members.isEmpty = false ∧
    inner.state.leader ∈ inner.members ∧ ∀ id, id ∈ inner.state.assignments ↔ id ∈ inner.members

theorem wellFormed_forming {inner : Inner Forming} (ordered : inner.Ordered strict) (sound : inner.Sound)
    {issued : List String} {removed : String → Prop} (accounted : inner.roster.Accounted issued removed) :
    (forming inner).WellFormed where
  keyed := fun memberId member found => accounted.keyed memberId _ (congrArg (Option.map _) found)
  joined := sound.joined
  synced := fun pendingSync held => (ordered.synced pendingSync held).2
  pending := fun id present => (accounted.pending id present).2
  forming := by
    rintro _ ⟨⟩ filled
    obtain ⟨id, present⟩ := OrderedMap.exists_mem filled
    refine ⟨sound.protocol id present, ?_⟩
    cases phase : inner.state.joinPhase with
    | some =>
      obtain ⟨leader, leads⟩ := isSome_iff_exists.mp (ordered.led id present)
      exact ⟨leader, leads, .inl rfl⟩
    | none =>
      obtain ⟨leader, pendingSync, leads, _, awaited, unsynced⟩ := sound.completing phase filled
      exact ⟨leader, leads, .inr ⟨pendingSync, awaited, unsynced⟩⟩
  formed := nofun

theorem wellFormed_formed {inner : Inner Formed} (assigned : inner.Assigned)
    {issued : List String} {removed : String → Prop} (accounted : inner.roster.Accounted issued removed) :
    (formed inner).WellFormed where
  keyed := fun memberId member found => accounted.keyed memberId _ (congrArg (Option.map _) found)
  joined := fun _ none => by cases none
  synced := assigned.synced
  pending := fun id present => (accounted.pending id present).2
  forming := fun _ same => by cases same
  formed := fun other same => by
    obtain rfl := Wrapper.formed.inj same
    exact ⟨OrderedMap.isEmpty_eq_false assigned.leader, assigned.leader, assigned.assignments⟩

end Wrapper

namespace History

/-- No `settle` finds that a join phase is over without anyone having joined, in a group of static and dynamic
members. -/
def Unstranded (history : History) (action : SystemTime × Call) : Prop :=
  action.2 = .settle → history.group.strands action.1 = false

instance (history : History) (action : SystemTime × Call) : Decidable (Unstranded history action) :=
  inferInstanceAs (Decidable (_ → _))

theorem ordered_of_reachable {history : History} (reached : machine.ReachableWhile allowed history)
    (safe : strict → ∀ history action, allowed history action → Unstranded history action) :
    history.group.Ordered strict := by
  have both : history.group.Ordered strict ∧ history.group.Sound := by
    apply reached.invariant
    · rintro _ ⟨inception, rfl⟩
      exact ⟨Wrapper.ordered_new inception, Wrapper.sound_new inception⟩
    · rintro history ⟨now, call⟩ _ ⟨ordered, sound⟩ permitted ⟨_⟩
      refine ⟨ordered.call sound now call fun asked => ?_, sound.call now call⟩
      exact safe asked history (now, call) permitted
  exact both.1

end History

/-- Every state of a group is well formed. And in a run in which no `settle` ends a join phase that nobody has
joined in a group of static and dynamic members, the leader of every state, if it has one, is a member. -/
theorem group_is_well_formed {history : History} (reached : History.machine.Reachable history) :
    history.group.WellFormed ∧ (History.machine.ReachableWhile History.Unstranded history →
        ∀ leader, history.group.leader = some leader → leader ∈ history.group.members) := by
  constructor
  · have ordered : history.group.Ordered False := History.ordered_of_reachable reached False.elim
    have sound := History.sound_of_reachable reached
    have accounted : history.group.roster.Accounted _ _ := History.accounted_of_reachable reached
    generalize history.group = group at ordered sound accounted ⊢
    cases group with
    | forming => exact Wrapper.wellFormed_forming ordered sound accounted
    | formed => exact Wrapper.wellFormed_formed ordered accounted
  · intro unstranded
    have ordered : history.group.Ordered True :=
      History.ordered_of_reachable unstranded fun _ _ _ permitted => permitted
    generalize history.group = group at ordered ⊢
    cases group with
    | forming => exact Inner.Led.leader ordered.toLed trivial
    | formed => exact fun leader leads => some.inj leads ▸ Inner.Assigned.leader ordered

/-- A dynamic member leads a group with a static member. A third client gets a member id and leaves with it,
and nobody joins the join phase that this starts. -/
def desertedPhase : List (SystemTime × Call) :=
  [(0, .join "a" (plainJoin 0 "" none) 0), (0, .join "s" (plainJoin 0 "" (some "i")) 0),
   (fromMillis 1000, .settle), (fromMillis 1000, .join "c" (plainJoin 4 "" none) 0),
   (fromMillis 1000, .leave (some "c") none)]

def desertion : List (SystemTime × Call) :=
  [(fromMillis 2000, .settle)]

/-- When that join phase ends, the leader is removed and still leads. -/
theorem removed_member_leads : ∃ history, History.machine.ReachableWhile History.InOrder history ∧
    history.group.leader = some "a" ∧ "a" ∉ history.group.members := by
  refine ⟨(History.start 0).handleAll (desertedPhase ++ desertion), ?_,
    by decide +kernel, by decide +kernel⟩
  exact History.reachable_of_admissible _ (by decide +kernel)

/-- Until that join phase ends, the dynamic member leads as a member. -/
theorem group_is_well_formed_deserted : History.machine.ReachableWhile History.Unstranded
      ((History.start 0).handleAll desertedPhase) ∧
    ((History.start 0).handleAll desertedPhase).group.WellFormed ∧
    ((History.start 0).handleAll desertedPhase).group.leader = some "a" ∧
    "a" ∈ ((History.start 0).handleAll desertedPhase).group.members := by
  have reached : History.machine.ReachableWhile History.Unstranded
      ((History.start 0).handleAll desertedPhase) :=
    History.reachable_of_admissible desertedPhase (by decide +kernel)
  obtain ⟨formed, known⟩ := group_is_well_formed reached.reachable
  have leads : ((History.start 0).handleAll desertedPhase).group.leader = some "a" := by decide +kernel
  exact ⟨reached, formed, leads, known reached "a" leads⟩

end Nisshi.Coordinator
