import Mathlib.Data.List.ReduceOption
import Nisshi.Coordinator.Membership

/-! The time at which a group next changes by itself. -/

namespace Nisshi.Coordinator

open Nisshi.SansIo Nisshi.Storage Nisshi.Lib List Option
open Std (ExtTreeMap ExtTreeSet)

namespace Inner

section

variable {S : Type} (inner : Inner S)

def earliestPendingMemberExpiry : Option SystemTime :=
  (inner.pendingMembers.toList.map fun (_, expires) => expires).min?

def earliestSessionExpiry (isWaiting : String → Bool) : Option SystemTime :=
  ((inner.members.toList.filter fun (memberId, _) => !isWaiting memberId).filterMap fun (_, member) =>
    member.lastContact.map fun lastContact => lastContact + inner.sessionTimeout).min?

end

def nextDeadline (inner : Inner Forming) : Option SystemTime :=
  [inner.state.joinPhase.map (·.deadline), inner.pendingSync.map (·.deadline),
    inner.earliestPendingMemberExpiry, inner.earliestSessionExpiry inner.isWaiting].reduceOption.min?

def nextDeadlineFormed (inner : Inner Formed) : Option SystemTime :=
  [inner.pendingSync.map (·.deadline), inner.earliestPendingMemberExpiry,
    inner.earliestSessionExpiry fun _ => false].reduceOption.min?

end Inner

def Wrapper.nextDeadline : Wrapper → Option SystemTime
  | .forming inner => inner.nextDeadline
  | .formed inner => inner.nextDeadlineFormed

namespace Inner

section

variable {S : Type} {inner : Inner S} {now : SystemTime} {isWaiting : String → Bool}

def expired (inner : Inner S) (now : SystemTime) (member : Member) : Bool :=
  member.lastContact.all fun lastContact => decide (inner.sessionTimeout < durationSince now lastContact)

/-- No pending member id and no session has expired, but for the members that wait. -/
structure Current (inner : Inner S) (now : SystemTime) (isWaiting : String → Bool) : Prop where
  pending : ∀ (id : String) (expires : SystemTime), inner.pendingMembers[id]? = some expires → now < expires
  sessions : ∀ (id : String) (member : Member), inner.members[id]? = some member → isWaiting id = false →
    inner.expired now member = false

theorem expired_of_contact (inner : Inner S) (contact : member.lastContact = some now) :
    inner.expired now member = false := by
  simp [expired, contact, durationSince]

theorem forgetPendingMembers_pending (inner : Inner S) (now : SystemTime) (id : String) (expires : SystemTime)
    (held : (inner.forgetPendingMembers now).1.pendingMembers[id]? = some expires) : now < expires := by
  simp only [forgetPendingMembers, ExtTreeMap.getElem?_filter', filter_eq_some_iff] at held
  exact of_decide_eq_true held.2

theorem current_removeExpiredMembers (isWaiting : String → Bool)
    (pending : ∀ (id : String) (expires : SystemTime), inner.pendingMembers[id]? = some expires → now < expires) :
    (inner.removeExpiredMembers now isWaiting).1.Current now isWaiting where
  pending := pending
  sessions := fun id member found awake => by
    simp only [removeExpiredMembers, ExtTreeMap.getElem?_filter', filter_eq_some_iff] at found
    rw [awake, Bool.false_or, Bool.not_eq_true'] at found
    exact found.2

theorem Current.forgetPendingMembers (current : inner.Current now isWaiting) :
    inner.forgetPendingMembers now = (inner, false) := by
  have same : (inner.pendingMembers.filter fun _ expires => decide (now < expires)) = inner.pendingMembers :=
    OrderedMap.filter_eq_self_of_forall fun id expires held => decide_eq_true (current.pending id expires held)
  simp [Inner.forgetPendingMembers, same]

theorem Current.removeExpiredMembers (current : inner.Current now isWaiting) :
    inner.removeExpiredMembers now isWaiting = (inner, false) := by
  have same : (inner.members.filter fun id member => isWaiting id || !inner.expired now member) = inner.members := by
    refine OrderedMap.filter_eq_self_of_forall fun id member found => ?_
    cases waits : isWaiting id with
    | true => rfl
    | false => rw [current.sessions id member found waits]; rfl
  simp only [expired] at same
  simp [Inner.removeExpiredMembers, same]

theorem Current.removeMembersPendingSync (current : inner.Current now isWaiting) :
    (inner.removeMembersPendingSync now).1.Current now isWaiting := by
  rw [Inner.removeMembersPendingSync]
  split
  · split
    · exact ⟨current.pending, fun id member found => current.sessions id member (OrderedMap.getElem?_of_filter found)⟩
    · exact current
  · exact current

theorem removeMembersPendingSync_of_early
    (early : ∀ pendingSync, inner.pendingSync = some pendingSync → now < pendingSync.deadline) :
    inner.removeMembersPendingSync now = (inner, false) := by
  rw [removeMembersPendingSync]
  split
  next pendingSync awaited => rw [if_neg (Int.not_le.mpr (early pendingSync awaited))]
  next => rfl

theorem early_removeMembersPendingSync (pendingSync : PendingSync)
    (awaited : (inner.removeMembersPendingSync now).1.pendingSync = some pendingSync) :
    now < pendingSync.deadline := by
  rw [removeMembersPendingSync] at awaited
  split at awaited
  next held =>
    split at awaited
    · cases awaited
    next early =>
      obtain rfl := some.inj (held.symm.trans awaited)
      exact Int.not_le.mp early
  next none => rw [none] at awaited; cases awaited

end

section

variable {inner next : Inner Forming} {now : SystemTime}

/-- Nothing is due but, maybe, the end of the join phase. -/
structure Settling (inner : Inner Forming) (now : SystemTime) : Prop extends
    Current inner now inner.isWaiting where
  sync : inner.isCompletingRebalance = true → ∀ pendingSync, inner.pendingSync = some pendingSync →
    now < pendingSync.deadline

structure Settled (inner : Inner Forming) (now : SystemTime) : Prop extends Settling inner now where
  phase : ∀ joinPhase, inner.state.joinPhase = some joinPhase → now < joinPhase.deadline

theorem isWaiting_forgetRemovedMembers {id : String} (member : id ∈ inner.members) :
    inner.forgetRemovedMembers.isWaiting id = inner.isWaiting id := by
  have kept : ∀ ids : ExtTreeSet String,
      (ids.filter fun memberId => inner.members.contains memberId).contains id = ids.contains id := by
    intro ids
    rw [Bool.eq_iff_iff, ExtTreeSet.contains_iff_mem, OrderedMap.mem_filter_set_iff]
    exact and_iff_left (ExtTreeMap.contains_iff_mem.mpr member)
  rw [isWaiting, isWaiting, joinPhase_forgetRemovedMembers, pendingSync_forgetRemovedMembers]
  cases inner.state.joinPhase with
  | some joinPhase => exact kept joinPhase.joined
  | none =>
    cases inner.pendingSync with
    | none => rfl
    | some pendingSync => exact congrArg (!·) (kept pendingSync.members)

theorem Current.forgetRemovedMembers (current : inner.Current now inner.isWaiting) :
    inner.forgetRemovedMembers.Current now inner.forgetRemovedMembers.isWaiting := by
  have same : inner.forgetRemovedMembers.sessionTimeoutMs = inner.sessionTimeoutMs ∧
      inner.forgetRemovedMembers.pendingMembers = inner.pendingMembers := by
    simp only [Inner.forgetRemovedMembers, Inner.setJoinPhase]
    split <;> exact ⟨rfl, rfl⟩
  refine ⟨by rw [same.2]; exact current.pending, fun id member found awake => ?_⟩
  rw [members_forgetRemovedMembers] at found
  rw [isWaiting_forgetRemovedMembers (OrderedMap.mem_of_getElem? found)] at awake
  rw [expired, sessionTimeout, same.1]
  exact current.sessions id member found awake

theorem current_removeExpired
    (pending : ∀ (id : String) (expires : SystemTime), inner.pendingMembers[id]? = some expires → now < expires) :
    (inner.removeExpired now).1.Current now (inner.removeExpired now).1.isWaiting := by
  have kept := current_removeExpiredMembers inner.isWaiting pending
  simp only [removeExpired]
  split
  exacts [Current.forgetRemovedMembers kept, kept]

theorem completing_of_removeExpired (completing : (inner.removeExpired now).1.isCompletingRebalance = true) :
    inner.isCompletingRebalance = true := by
  have kept : (inner.removeExpiredMembers now inner.isWaiting).1.isCompletingRebalance = true := by
    simp only [removeExpired] at completing
    split at completing
    · simpa [isCompletingRebalance, joinPhase_forgetRemovedMembers, members_forgetRemovedMembers] using completing
    · exact completing
  simp only [isCompletingRebalance, Bool.and_eq_true, Bool.not_eq_true'] at kept ⊢
  obtain ⟨_, present⟩ := OrderedMap.exists_mem kept.2
  exact ⟨kept.1, OrderedMap.isEmpty_eq_false (ExtTreeMap.mem_of_mem_filter present)⟩

theorem Current.settling {isWaiting : String → Bool} (current : inner.Current now isWaiting)
    (awake : inner.isWaiting = isWaiting) (phase : inner.state.joinPhase.isSome = true) : inner.Settling now :=
  ⟨awake ▸ current, fun completing => by simp [isCompletingRebalance, isSome_iff_ne_none.mp phase] at completing⟩

theorem startGeneration_settling
    (pending : ∀ (id : String) (expires : SystemTime), inner.pendingMembers[id]? = some expires → now < expires) :
    (inner.startGeneration now).Settling now := by
  rw [startGeneration]
  split
  next empty =>
    refine ⟨⟨pending, fun id member found => ?_⟩, fun completing => ?_⟩
    · exact absurd (OrderedMap.mem_of_getElem? found) (OrderedMap.isEmpty_iff_forall_not_mem.mp empty id)
    · simp [isCompletingRebalance, empty] at completing
  next =>
    refine ⟨⟨pending, fun id member found _ => ?_⟩, ?_⟩
    · rw [ExtTreeMap.getElem?_map] at found
      obtain ⟨_, _, rfl⟩ := map_eq_some_iff.mp found
      exact expired_of_contact _ rfl
    · rintro _ _ ⟨⟩
      exact Int.lt_add_of_pos_right now (Int.natCast_pos.mpr inner.rebalanceTimeout_pos)

theorem Settling.completeJoin (settling : inner.Settling now) (phase : inner.state.joinPhase = some joinPhase) :
    (inner.completeJoin now).Settling now := by
  simp only [Inner.completeJoin, phase]
  split
  next unjoined =>
    -- The members that remain have not joined, so their sessions were looked at.
    refine Current.settling ⟨settling.pending, fun id member found _ => ?_⟩ rfl rfl
    refine settling.sessions id member (OrderedMap.getElem?_of_filter found) ?_
    rw [isWaiting, phase]
    have nobody := (Bool.and_eq_true_iff.mp unjoined).2
    rw [Bool.not_eq_true', List.any_eq_false] at nobody
    exact Bool.eq_false_iff.mpr (nobody id (ExtTreeMap.mem_keys.mpr (OrderedMap.mem_of_getElem? found)))
  next =>
    rw [electLeader]
    split
    all_goals exact startGeneration_settling settling.pending

theorem Settling.ends (settling : inner.Settling now) (ends : Ends due now inner next) : next.Settling now := by
  induction ends with
  | refl => exact settling
  | @extended inner next joinPhase longer phase late more rest ih =>
    refine ih (Current.settling ⟨settling.pending, settling.sessions⟩ ?_ rfl)
    funext id
    rw [isWaiting, isWaiting, phase]
    exact congrArg (·.contains id) (joined_of_extended more)
  | completed phase _ _ ih => exact ih (settling.completeJoin phase)

theorem Settling.prepareRebalance (current : inner.Current now inner.isWaiting)
    (phase : inner.state.joinPhase = none) : (inner.prepareRebalance now).Settling now := by
  rw [Inner.prepareRebalance]
  split
  next =>
    refine Current.settling ⟨current.pending, fun id member found _ => ?_⟩ rfl rfl
    replace found : (inner.restartSessionsOfSyncedMembers now).members[id]? = some member := found
    rw [restartSessionsOfSyncedMembers, ExtTreeMap.getElem?_map] at found
    obtain ⟨before, held, rfl⟩ := map_eq_some_iff.mp found
    split
    next => exact expired_of_contact _ rfl
    next waits =>
      refine current.sessions id before held ?_
      rw [isWaiting, phase]
      exact Bool.eq_false_iff.mpr waits
  next idle =>
    refine Current.settling ⟨current.pending, fun id member found _ => ?_⟩ rfl rfl
    have empty := isEmpty_of_not_completing (Bool.eq_false_iff.mpr idle) phase
    exact absurd (OrderedMap.mem_of_getElem? found) (OrderedMap.isEmpty_iff_forall_not_mem.mp empty id)

theorem Settling.completeJoinIfAllJoined (settling : inner.Settling now)
    (early : ∀ joinPhase, inner.state.joinPhase = some joinPhase → now < joinPhase.deadline) :
    (inner.completeJoinIfAllJoined now).Settled now := by
  refine ⟨settling.ends (.completeJoinIfAllJoined : Ends false now _ _), fun joinPhase phase => ?_⟩
  rw [Inner.completeJoinIfAllJoined] at phase
  split at phase
  next all =>
    cases held : inner.state.joinPhase with
    | none => simp [allMembersJoined, held] at all
    | some => exact early_completeJoin held phase
  next => exact early joinPhase phase

theorem Settling.endJoinPhaseAfterDeadline (settling : inner.Settling now) :
    (inner.endJoinPhaseAfterDeadline now).Settled now := by
  refine ⟨settling.ends (.endJoinPhaseAfterDeadline inner now), ?_⟩
  fun_induction Inner.endJoinPhaseAfterDeadline inner now with
  | case1 _ none => intro joinPhase phase; rw [none] at phase; cases phase
  | case2 _ _ phase late _ more ih => exact ih (settling.ends (.extended phase ⟨rfl, late⟩ more .refl))
  | case3 _ _ phase _ _ ih => exact ih (settling.completeJoin phase)
  | case4 _ _ phase early =>
    intro later held
    obtain rfl := some.inj (held.symm.trans phase)
    exact Int.not_le.mp early

theorem Current.afterSyncDeadline (current : inner.Current now inner.isWaiting)
    (phase : inner.state.joinPhase = none) : (inner.removeMembersPendingSync now).1.Current now
      (inner.removeMembersPendingSync now).1.isWaiting := by
  refine ⟨current.removeMembersPendingSync.pending, fun id member found awake => ?_⟩
  refine current.removeMembersPendingSync.sessions id member found ?_
  rw [Inner.removeMembersPendingSync] at awake
  split at awake
  · split at awake
    · simp [isWaiting, phase] at awake
    · exact awake
  · exact awake

theorem endJoinPhaseAfterDeadline_of_early
    (early : ∀ joinPhase, inner.state.joinPhase = some joinPhase → now < joinPhase.deadline) :
    inner.endJoinPhaseAfterDeadline now = inner := by
  rw [Inner.endJoinPhaseAfterDeadline]
  split
  next => rfl
  next joinPhase phase => rw [dif_neg (Int.not_le.mpr (early joinPhase phase))]

end

end Inner

namespace Wrapper

variable {group : Wrapper} {now : SystemTime}

def Settled (now : SystemTime) : Wrapper → Prop
  | .forming inner => inner.Settled now
  | .formed inner => inner.Current now (fun _ => false) ∧
    ∀ pendingSync, inner.pendingSync = some pendingSync → now < pendingSync.deadline

theorem settle_of_settled (settled : group.Settled now) : group.settle now = group := by
  cases group with
  | forming inner =>
    have current : inner.Current now inner.isWaiting := settled.toCurrent
    simp only [settle, current.forgetPendingMembers, Inner.removeExpired, current.removeExpiredMembers,
      Bool.or_false, Bool.false_eq_true, if_false]
    split
    · rw [Inner.endJoinPhaseAfterDeadline_of_early settled.phase]
    · split
      next completing => simp [Inner.removeMembersPendingSync_of_early (settled.sync completing)]
      next => rfl
  | formed =>
    obtain ⟨current, early⟩ := settled
    simp [settle, current.forgetPendingMembers, current.removeExpiredMembers,
      Inner.removeMembersPendingSync_of_early early]

theorem settled_settle (group : Wrapper) (now : SystemTime) : (group.settle now).Settled now := by
  cases group with
  | forming inner =>
    have current := Inner.current_removeExpired (inner.forgetPendingMembers_pending now)
    have completes : ((inner.forgetPendingMembers now).1.removeExpired now).1.isCompletingRebalance = true →
      inner.isCompletingRebalance = true := Inner.completing_of_removeExpired
    simp only [settle]
    generalize ((inner.forgetPendingMembers now).1.removeExpired now).1 = kept at current completes ⊢
    generalize ((inner.forgetPendingMembers now).1.removeExpired now).2 = removed
    split
    next phase =>
      have settling : kept.Settling now := current.settling rfl phase
      refine Inner.Settling.endJoinPhaseAfterDeadline ?_
      split
      exacts [settling.ends (.completeJoinIfAllJoined : Inner.Ends false now _ _), settling]
    next unjoined =>
      have phase : kept.state.joinPhase = none := by simpa using unjoined
      have rebalanced : ∀ {left : Inner Forming}, left.Current now left.isWaiting → left.state.joinPhase = none →
          ((left.forgetRemovedMembers.prepareRebalance now).completeJoinIfAllJoined now).Settled now := by
        intro left current phase
        refine Inner.Settling.completeJoinIfAllJoined (.prepareRebalance current.forgetRemovedMembers ?_)
          (Inner.early_prepareRebalance _ now)
        rw [Inner.joinPhase_forgetRemovedMembers, phase]
        rfl
      have synced := current.afterSyncDeadline phase
      have still : (kept.removeMembersPendingSync now).1.state.joinPhase = none :=
        (Inner.Removal.removeMembersPendingSync kept now).state ▸ phase
      split
      next =>
        cases removed with
        | true => exact rebalanced current phase
        | false =>
          simp only [Bool.false_eq_true, if_false]
          split
          · exact rebalanced synced still
          · refine ⟨⟨synced, fun _ => Inner.early_removeMembersPendingSync⟩, fun joinPhase held => ?_⟩
            rw [still] at held
            cases held
      next idle =>
        refine ⟨⟨current, fun completing => absurd (completes completing) idle⟩, fun joinPhase held => ?_⟩
        rw [phase] at held
        cases held
  | formed inner =>
    have current := (Inner.current_removeExpiredMembers (fun _ => false)
      (inner.forgetPendingMembers_pending now)).removeMembersPendingSync
    simp only [settle]
    split
    · refine Inner.Settling.completeJoinIfAllJoined (Inner.Current.settling ?_ rfl rfl)
        (Inner.early_startJoinPhase _ now)
      exact ⟨current.pending, fun id member found _ => current.sessions id member found rfl⟩
    · exact ⟨current, Inner.early_removeMembersPendingSync⟩

end Wrapper

/-! Nothing is due before the next deadline. -/

theorem early_of_first {times : List SystemTime} (early : ∀ first, times.min? = some first → now < first)
    (listed : time ∈ times) : now < time := by
  obtain ⟨first, found⟩ := isSome_iff_exists.mp (isSome_min?_of_mem listed)
  exact Int.lt_of_lt_of_le (early first found) ((min?_eq_some_iff.mp found).2 time listed)

theorem Inner.current_of_early {inner : Inner S} {isWaiting : String → Bool} (contacted : inner.roster.Contacted)
    (pending : ∀ first, inner.earliestPendingMemberExpiry = some first → now < first)
    (session : ∀ first, inner.earliestSessionExpiry isWaiting = some first → now < first) :
    inner.Current now isWaiting where
  pending := fun id expires held => early_of_first pending
    (mem_map.mpr ⟨(id, expires), ExtTreeMap.mem_toList_iff_getElem?_eq_some.mpr held, rfl⟩)
  sessions := fun id member found awake => by
    obtain ⟨lastContact, contact⟩ := isSome_iff_exists.mp (contacted id member found)
    have early : now < lastContact + inner.sessionTimeout := by
      refine early_of_first session (mem_filterMap.mpr ⟨(id, member), mem_filter.mpr ⟨?_, ?_⟩, ?_⟩)
      · exact ExtTreeMap.mem_toList_iff_getElem?_eq_some.mpr found
      · simp [awake]
      · simp [contact]
    have recent : durationSince now lastContact ≤ inner.sessionTimeout :=
      Int.toNat_le.mpr (Int.sub_left_le_of_le_add (Int.le_of_lt early))
    rw [expired, contact]
    exact decide_eq_false (Nat.not_lt.mpr recent)

theorem Wrapper.settled_of_early {group : Wrapper} (contacted : group.roster.Contacted)
    (early : ∀ first, group.nextDeadline = some first → now < first) : group.Settled now := by
  cases group with
  | forming inner =>
    have listed : ∀ {deadline}, some deadline ∈ [inner.state.joinPhase.map (·.deadline),
        inner.pendingSync.map (·.deadline), inner.earliestPendingMemberExpiry,
        inner.earliestSessionExpiry inner.isWaiting] → now < deadline :=
      fun present => early_of_first early (reduceOption_mem_iff.mpr present)
    refine ⟨⟨Inner.current_of_early contacted ?_ ?_, fun _ pendingSync awaited => ?_⟩, fun joinPhase phase => ?_⟩
    · exact fun first found => listed (by simp [found])
    · exact fun first found => listed (by simp [found])
    · exact listed (by simp [awaited])
    · exact listed (by simp [phase])
  | formed inner =>
    have listed : ∀ {deadline}, some deadline ∈ [inner.pendingSync.map (·.deadline),
        inner.earliestPendingMemberExpiry, inner.earliestSessionExpiry fun _ => false] → now < deadline :=
      fun present => early_of_first early (reduceOption_mem_iff.mpr present)
    refine ⟨Inner.current_of_early contacted ?_ ?_, fun pendingSync awaited => ?_⟩
    · exact fun first found => listed (by simp [found])
    · exact fun first found => listed (by simp [found])
    · exact listed (by simp [awaited])

theorem History.contacted_of_reachable (reached : machine.Reachable history) : history.group.roster.Contacted := by
  apply reached.invariant
  · rintro _ ⟨_, rfl⟩ _ _ found
    exact absurd (OrderedMap.mem_of_getElem? found) ExtTreeMap.not_mem_empty
  · rintro _ _ _ contacted ⟨_⟩
    exact Wrapper.contacted_call contacted _ _

/-- A group changes by itself only when its next deadline has passed, and then there is nothing left to do. -/
theorem no_deadline_is_missed {history : History} (reached : History.machine.Reachable history) (now : SystemTime) :
    (history.group.settle now ≠ history.group →
      ∃ deadline, history.group.nextDeadline = some deadline ∧ deadline ≤ now) ∧
    (history.group.settle now).settle now = history.group.settle now := by
  refine ⟨fun changes => ?_, Wrapper.settle_of_settled (history.group.settled_settle now)⟩
  by_contra none
  refine changes (Wrapper.settle_of_settled (Wrapper.settled_of_early
    (History.contacted_of_reachable reached) fun first found => ?_))
  exact Int.not_le.mp fun late => none ⟨first, found, late⟩

def halfRejoined : List (SystemTime × Call) :=
  [(0, .join "a" (plainJoin 0 "" none) 0), (0, .join "b" (plainJoin 0 "" none) 0), (fromMillis 1000, .settle),
    (fromMillis 1000, .join "c" (plainJoin 0 "" none) 0), (fromMillis 1000, .join "" (plainJoin 0 "a" none) 0)]

/-- One of two members rejoins for a third: the other one is removed at the deadline. -/
theorem no_deadline_is_missed_rejoining :
    "b" ∈ ((History.start 0).handleAll halfRejoined).group.members ∧ ∃ deadline,
      ((History.start 0).handleAll halfRejoined).group.nextDeadline = some deadline ∧ deadline ≤ fromMillis 2000 := by
  have reached : History.machine.Reachable ((History.start 0).handleAll halfRejoined) :=
    History.reachable_of_admissible halfRejoined (by decide +kernel)
  have present : "b" ∈ ((History.start 0).handleAll halfRejoined).group.members := by decide +kernel
  refine ⟨present, (no_deadline_is_missed reached (fromMillis 2000)).1 fun same => ?_⟩
  rw [← same] at present
  exact absurd present (by decide +kernel)

end Nisshi.Coordinator
