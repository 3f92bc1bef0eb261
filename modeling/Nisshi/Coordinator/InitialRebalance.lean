import Nisshi.Coordinator.Turns

/-! The join phase in which a group forms from empty. Each new member may put off its end, but only as long as
the first member is ready to wait. -/

namespace Nisshi.Coordinator

open Nisshi.SansIo Nisshi.Storage Nisshi.Lib Option
open Std (ExtTreeMap)

def JoinRequest.rebalanceTimeout (request : JoinRequest) : Duration :=
  (positiveMillis request.rebalanceTimeoutMs).getD
    ((positiveMillis request.sessionTimeoutMs).getD fallbackSessionTimeout)

namespace Inner

variable {inner next : Inner Forming} {now : SystemTime}

def initial (inner : Inner Forming) : Option (SystemTime × InitialDelay) :=
  inner.state.joinPhase.bind fun joinPhase =>
    joinPhase.initialDelay.map fun initialDelay => (joinPhase.deadline, initialDelay)

def adds (inner : Inner Forming) (uuid : String) (request : JoinRequest) : Bool :=
  match request.joiningProtocol inner.names with
  | .error _ => false
  | .ok _ =>
    if request.memberId = "" then
      match NewMember.of uuid request (request.groupInstanceId.bind inner.staticMemberId) with
      | .added _ => true
      | _ => false
    else inner.pendingMembers.contains request.memberId

def endJoinPhaseWithin (now : SystemTime) : Nat → Inner Forming → Option (Inner Forming)
  | 0, _ => none
  | rounds + 1, inner =>
    match inner.state.joinPhase with
    | none => some inner
    | some joinPhase =>
      if joinPhase.deadline ≤ now then
        match joinPhase.extended with
        | some longer => endJoinPhaseWithin now rounds (inner.setJoinPhase (some longer))
        | none => endJoinPhaseWithin now rounds (inner.completeJoin now)
      else some inner

theorem endJoinPhaseWithin_of_rounds (rounds : Nat) (enough : inner.rounds now ≤ rounds) :
    endJoinPhaseWithin now (rounds + 1) inner = some (inner.endJoinPhaseAfterDeadline now) := by
  fun_induction endJoinPhaseAfterDeadline inner now generalizing rounds with
  | case1 _ phase => simp only [endJoinPhaseWithin, phase]
  | case2 _ _ phase late _ more ih =>
    have fewer := Nat.lt_of_lt_of_le (rounds_of_extended phase late more) enough
    obtain ⟨rounds, rfl⟩ := Nat.exists_eq_add_one_of_ne_zero (Nat.ne_zero_of_lt fewer)
    simp only [endJoinPhaseWithin, phase, if_pos late, more]
    exact ih rounds (Nat.le_of_lt_succ fewer)
  | case3 _ _ phase late last ih =>
    have fewer := Nat.lt_of_lt_of_le (rounds_of_completed phase late last) enough
    obtain ⟨rounds, rfl⟩ := Nat.exists_eq_add_one_of_ne_zero (Nat.ne_zero_of_lt fewer)
    simp only [endJoinPhaseWithin, phase, if_pos late, last]
    exact ih rounds (Nat.le_of_lt_succ fewer)
  | case4 _ _ phase early => simp only [endJoinPhaseWithin, phase, if_neg early]

theorem rounds_le (inner : Inner Forming) (now : SystemTime) : inner.rounds now ≤ 2 := by
  rw [rounds]
  repeat' split
  all_goals decide

theorem initial_completeJoin (phase : inner.state.joinPhase = some joinPhase) :
    (inner.completeJoin now).initial = none := by
  simp only [completeJoin, phase]
  split
  · rfl
  · simp only [electLeader, startGeneration]
    split <;> split <;> rfl

end Inner

/-- The join phase has not been put off beyond `limit`. If it was put off after `deadline`, that was for members
that had been added, and none has been added since. -/
def Delayed (limit deadline : SystemTime) (added grown : Bool) (initial : Option (SystemTime × InitialDelay)) : Prop :=
  ∀ later initialDelay, initial = some (later, initialDelay) →
    later + fromMillis initialDelay.remainingMs ≤ limit ∧ (initialDelay.newMemberAdded = true → added = true) ∧
    (later ≠ deadline → grown = true ∧ initialDelay.newMemberAdded = false)

namespace Delayed

variable {limit deadline : SystemTime} {added grown : Bool}

theorem putOff_le (deadline limit : Int) (delayMs remainingMs : Nat)
    (bound : deadline + fromMillis remainingMs ≤ limit) :
    deadline + fromMillis (min delayMs remainingMs) + fromMillis (remainingMs - delayMs) ≤ limit := by
  simp only [fromMillis] at bound ⊢
  omega

theorem none : Delayed limit deadline added grown none :=
  nofun

theorem ends {inner next : Inner Forming} {due : Bool} {now : SystemTime} (ends : Inner.Ends due now inner next)
    (delayed : Delayed limit deadline added grown inner.initial) (asked : due = true → added = true → grown = true) :
    Delayed limit deadline added grown next.initial := by
  induction ends with
  | refl => exact delayed
  | @extended inner next joinPhase longer phase late more rest ih =>
    cases held : joinPhase.initialDelay with
    | none => simp [JoinPhase.extended, held] at more
    | some initialDelay =>
      simp only [JoinPhase.extended, held, ite_none_right_eq_some, some.injEq] at more
      obtain ⟨⟨new, _⟩, rfl⟩ := more
      obtain ⟨bound, flagged, _⟩ := delayed joinPhase.deadline initialDelay (by simp [Inner.initial, phase, held])
      apply ih
      intro later next same
      obtain ⟨rfl, rfl⟩ := Prod.mk.inj (some.inj same)
      refine ⟨?_, by simp, fun _ => ⟨asked late.1 (flagged new), rfl⟩⟩
      exact putOff_le _ _ _ _ bound
  | completed phase _ _ ih =>
    apply ih
    rw [Inner.initial_completeJoin phase]
    exact none

end Delayed

namespace Inner

variable {inner : Inner Forming} {now : SystemTime} {request : JoinRequest} {offered : JoinGroupRequestProtocol}

theorem initial_forgetRemovedMembers : inner.forgetRemovedMembers.initial = inner.initial := by
  rw [initial, joinPhase_forgetRemovedMembers, bind_map]
  rfl

theorem initial_markJoined (inner : Inner Forming) (memberId : String) :
    (inner.markJoined memberId).initial = inner.initial := by
  rw [initial, markJoined, setJoinPhase, bind_map]
  rfl

theorem initial_ensureJoinPhase (inner : Inner Forming) (now : SystemTime) :
    (inner.ensureJoinPhase now).initial = inner.initial := by
  rw [ensureJoinPhase]
  split
  next idle =>
    have none : inner.initial = none := by rw [initial, isNone_iff_eq_none.mp idle]; rfl
    rw [none, prepareRebalance]
    split <;> rfl
  next => rfl

theorem seatMember_spec (inner : Inner Forming) (now : SystemTime) (memberId : String) :
    (inner.seatMember now memberId request offered).state.joinPhase = inner.state.joinPhase ∧
    (inner.state.protocol = none →
      (inner.seatMember now memberId request offered).rebalanceTimeout = request.rebalanceTimeout) := by
  simp only [seatMember, adoptProtocol]
  cases protocol : inner.state.protocol with
  | none =>
    simp only [isNone_none, if_true]
    split <;> exact ⟨rfl, fun _ => rfl⟩
  | some =>
    simp only [isNone_some, Bool.false_eq_true, if_false]
    split <;> exact ⟨rfl, by simp⟩

theorem initial_handOver (inner : Inner Forming) (old new : String) :
    (inner.handOver old new).initial = inner.initial := by
  have same : (inner.renameMember old new).state = inner.state := by
    rw [renameMember]
    split <;> rfl
  simp only [handOver, initial, setJoinPhase, bind_map]
  split
  all_goals simp only [Inner.setLeader, Forming.setLeader, same]; rfl

theorem initial_enterJoinPhase (phase : inner.state.joinPhase = some joinPhase) (isEmpty : Bool) (delay : Duration) :
    (inner.enterJoinPhase now isEmpty delay).initial =
      inner.initial.map fun (deadline, initialDelay) => (deadline, { initialDelay with newMemberAdded := true }) := by
  simp only [enterJoinPhase, phase, initial, setJoinPhase, bind_some, map_map]
  rfl

theorem joinForming_initial (inner : Inner Forming) (now : SystemTime) (uuid : String) (request : JoinRequest)
    (delay : Duration) : ∃ during, Ends false now during (inner.joinForming now uuid request delay).1 ∧
      (during.initial = inner.initial ∨ inner.adds uuid request = true ∧ ∃ seat : Inner Forming,
        seat.state.joinPhase = inner.state.joinPhase ∧
        (inner.state.protocol = none → seat.rebalanceTimeout = request.rebalanceTimeout) ∧
        during.initial = (seat.enterJoinPhase now (inner.members.isEmpty && inner.state.joinPhase.isNone)
          delay).initial) := by
  rw [joinForming]
  split
  next => exact ⟨inner, .refl, .inl rfl⟩
  next offered accepted =>
    split
    next unnamed =>
      split
      next => exact ⟨_, .refl, .inl rfl⟩
      next memberId added =>
        obtain ⟨phase, timeout⟩ := inner.seatMember_spec now memberId
        exact ⟨_, .joined _ now memberId, .inr ⟨by simp [adds, names, accepted, unnamed, added],
          inner.seatMember now memberId request offered, phase, timeout, initial_markJoined _ _⟩⟩
      next old new _ =>
        refine ⟨_, .joined _ now new, .inl ?_⟩
        rw [initial_markJoined, initial_ensureJoinPhase]
        exact inner.initial_handOver old new
    next named =>
      split
      next issued =>
        obtain ⟨phase, timeout⟩ := (inner.forgetPending request.memberId).seatMember_spec now request.memberId
        exact ⟨_, .joined _ now request.memberId, .inr ⟨by simp [adds, names, accepted, named, issued],
          (inner.forgetPending request.memberId).seatMember now request.memberId request offered, phase, timeout,
          initial_markJoined _ _⟩⟩
      next =>
        split
        next => exact ⟨inner, .refl, .inl rfl⟩
        next =>
          split
          next => exact ⟨inner, .refl, .inl rfl⟩
          next =>
            rw [updateMember]
            split
            next => exact ⟨inner, .refl, .inl rfl⟩
            next =>
              refine ⟨_, .joined _ now request.memberId, .inl ?_⟩
              rw [initial_markJoined, initial_ensureJoinPhase]
              rfl

end Inner

namespace Wrapper

def initial : Wrapper → Option (SystemTime × InitialDelay)
  | .forming inner => inner.initial
  | .formed _ => none

def adds : Wrapper → Call → Bool
  | .forming inner, .join uuid request _ => inner.adds uuid request
  | _, _ => false

end Wrapper

namespace Delayed

variable {limit deadline now : SystemTime} {grown : Bool} {group next : Wrapper}

theorem passes (passes : Wrapper.Passes due now group next)
    (delayed : Delayed limit deadline grown grown group.initial) (forms : group.initial.isSome = true) :
    Delayed limit deadline grown grown next.initial := by
  cases passes with
  | @rests inner during next rests ends =>
    have same : during.initial = inner.initial := by rw [Inner.initial, rests.state]; rfl
    exact .ends ends (same ▸ delayed) fun _ => id
  | @removes inner kept next removal phase waiting ends =>
    have same : kept.forgetRemovedMembers.initial = inner.initial := by
      rw [Inner.initial_forgetRemovedMembers, Inner.initial, removal.state]
      rfl
    exact .ends ends (same ▸ delayed) fun _ => id
  | rebalances _ idle | idles _ idle => simp [Wrapper.initial, Inner.initial, idle] at forms
  | restsFormed | reopens => cases forms

theorem of_bound (initialDelay : InitialDelay) (bound : deadline + fromMillis initialDelay.remainingMs ≤ limit)
    (flagged : initialDelay.newMemberAdded = true → added = true) :
    Delayed limit deadline added grown (some (deadline, initialDelay)) := by
  rintro _ _ ⟨rfl, rfl⟩
  exact ⟨bound, flagged, fun other => absurd rfl other⟩

theorem call (held : group.initial = some (deadline, initialDelay))
    (bound : deadline + fromMillis initialDelay.remainingMs ≤ limit)
    (flagged : initialDelay.newMemberAdded = true → grown = true) (now : SystemTime) (call : Call) :
    Delayed limit deadline (grown || group.adds call) grown (group.call now call).1.initial := by
  have delayed : Delayed limit deadline grown grown group.initial := by
    rw [held]
    exact of_bound _ bound flagged
  have forms : group.initial.isSome = true := by rw [held]; rfl
  have weaken : ∀ {initial}, Delayed limit deadline grown grown initial →
      Delayed limit deadline (grown || group.adds call) grown initial := by
    intro initial delayed later initialDelay held
    obtain ⟨bound, flagged, grew⟩ := delayed later initialDelay held
    exact ⟨bound, fun new => by rw [flagged new]; rfl, grew⟩
  cases group with
  | formed => cases forms
  | forming inner =>
    cases call with
    | settle => exact weaken (.passes (Wrapper.settle_passes _ now) delayed forms)
    | heartbeat generationId memberId groupInstanceId =>
      exact weaken (.passes (Wrapper.heartbeat_passes _ now generationId memberId groupInstanceId) delayed forms)
    | leave memberId members => exact weaken (.passes (Wrapper.leave_passes _ now memberId members) delayed forms)
    | checkOffsetCommit detail =>
      exact weaken (.passes (Wrapper.checkOffsetCommit_passes _ now detail) delayed forms)
    | join uuid request delay =>
      obtain ⟨_, ends, same | ⟨adds, _, phase, _, entered⟩⟩ := inner.joinForming_initial now uuid request delay
      · exact weaken (.ends ends (same ▸ delayed) nofun)
      · refine .ends ends ?_ nofun
        obtain ⟨_, phased, _⟩ := bind_eq_some_iff.mp held
        rw [entered, Inner.initial_enterJoinPhase (phase.trans phased), Inner.initial, phase,
          show inner.state.joinPhase.bind _ = _ from held]
        refine of_bound { initialDelay with newMemberAdded := true } bound fun _ => ?_
        rw [Wrapper.adds, adds, Bool.or_true]
    | sync request =>
      have spec := inner.syncForming_spec now request
      simp only [Wrapper.call, Wrapper.sync]
      generalize inner.syncForming now request = result at spec ⊢
      cases spec with
      | stays _ state =>
        refine weaken ?_
        rw [Wrapper.initial, Inner.initial, state]
        exact delayed
      | installs => exact none

theorem opened_le (start : Int) (delay timeout : Nat) :
    start + delay + fromMillis (min (asMillis (timeout - delay)) u64Max) ≤ start + (max delay timeout : Nat) := by
  simp only [fromMillis, asMillis]
  omega

/-- The first member of an empty group waits for other members, but not for longer than it is ready to. -/
theorem opened {inner : Inner Forming} (empty : inner.members.isEmpty = true)
    (idle : inner.state.joinPhase = Option.none)
    (protocol : inner.state.protocol = Option.none) (start : SystemTime) (uuid : String) (request : JoinRequest)
    (delay : Duration) : Delayed (start + (max delay request.rebalanceTimeout : Nat)) (start + delay) false false
      (inner.joinForming start uuid request delay).1.initial := by
  obtain ⟨_, ends, same | ⟨_, _, phase, timeout, entered⟩⟩ :=
    inner.joinForming_initial start uuid request delay
  · refine .ends ends ?_ (by simp)
    rw [same, Inner.initial, idle]
    exact none
  · refine .ends ends ?_ (by simp)
    rw [entered, empty, Inner.enterJoinPhase, phase, idle]
    refine of_bound _ ?_ (by simp)
    rw [timeout protocol]
    exact opened_le start delay request.rebalanceTimeout

end Delayed

/-! An empty group has no protocol. -/

namespace Wrapper

variable {group : Wrapper} {now : SystemTime}

def Vacant : Wrapper → Prop
  | .forming inner => inner.state.joinPhase = none → inner.members.isEmpty = true → inner.names = none
  | .formed _ => True

theorem vacant_of_advance {before : Inner Forming} (advance : before.Advance now after) :
    (Wrapper.forming after).Vacant := by
  intro idle empty
  cases advance with
  | waits phase => rw [idle] at phase; cases phase
  | completes phase _ _ ended =>
    rcases Inner.completeJoin_spec now phase with ⟨waits, _⟩ | ⟨_, _, called⟩
    · rw [ended] at waits
      cases waits
    · rw [called, if_pos empty]

theorem Vacant.congr {inner next : Inner Forming} (vacant : (Wrapper.forming inner).Vacant)
    (members : ∀ id, id ∈ next.members ↔ id ∈ inner.members) (state : next.state = inner.state) :
    (Wrapper.forming next).Vacant := by
  intro idle empty
  rw [Inner.names, state]
  refine vacant (state ▸ idle) (OrderedMap.isEmpty_iff_forall_not_mem.mpr fun id present => ?_)
  exact OrderedMap.isEmpty_iff_forall_not_mem.mp empty id ((members id).mpr present)

theorem Vacant.passes {next : Wrapper} (vacant : group.Vacant) (passes : Passes due now group next) :
    next.Vacant := by
  cases passes with
  | restsFormed => trivial
  | @rests inner during next rests ends =>
    cases phase : inner.state.joinPhase with
    | none =>
      rw [ends.eq_of_none (rests.state ▸ phase)]
      exact vacant.congr rests.spec.2 rests.state
    | some => exact vacant_of_advance (.ends ends (by rw [rests.state, phase]; rfl))
  | removes removal phase _ ends => exact vacant_of_advance (.ends ends (removal.joinPhase_isSome.trans phase))
  | rebalances _ _ ends => exact vacant_of_advance (.ends ends (Inner.joinPhase_prepareRebalance _ now).1)
  | reopens _ ends => exact vacant_of_advance (.ends ends rfl)
  | @idles inner kept removal idle empty =>
    intro _ _
    rw [kept.names_forgetRemovedMembers.1, Inner.names, removal.state]
    exact vacant idle empty

theorem Vacant.call (vacant : group.Vacant) (sound : group.Sound) (now : SystemTime) (call : Call) :
    (group.call now call).1.Vacant := by
  cases call with
  | settle => exact vacant.passes (group.settle_passes now)
  | heartbeat generationId memberId groupInstanceId =>
    exact vacant.passes (group.heartbeat_passes now generationId memberId groupInstanceId)
  | leave memberId members => exact vacant.passes (group.leave_passes now memberId members)
  | checkOffsetCommit detail => exact vacant.passes (group.checkOffsetCommit_passes now detail)
  | join uuid request delay =>
    cases group with
    | forming inner =>
      have spec := inner.joinForming_spec sound now uuid request delay
      simp only [Wrapper.call, join]
      generalize inner.joinForming now uuid request delay = result at spec ⊢
      cases spec with
      | refused members state => exact vacant.congr (fun id => by rw [members]) state
      | repeated => exact vacant
      | entered enters => cases enters with | enters _ _ _ advance => exact vacant_of_advance advance
    | formed inner =>
      have spec := inner.joinFormed_spec now uuid request delay
      simp only [Wrapper.call, join]
      generalize inner.joinFormed now uuid request delay = result at spec ⊢
      cases spec with
      | entered _ enters => cases enters with | enters _ _ _ advance => exact vacant_of_advance advance
      | _ => trivial
  | sync request =>
    cases group with
    | formed => trivial
    | forming inner =>
      have spec := inner.syncForming_spec now request
      simp only [Wrapper.call, sync]
      generalize inner.syncForming now request = result at spec ⊢
      cases spec with
      | stays members state => exact vacant.congr (fun id => by rw [members]) state
      | installs => trivial

end Wrapper

theorem History.vacant_of_reachable (reached : machine.Reachable history) : history.group.Vacant := by
  have both : history.group.Sound ∧ history.group.Vacant := by
    apply reached.invariant
    · rintro _ ⟨inception, rfl⟩
      exact ⟨Wrapper.sound_new inception, fun _ _ => rfl⟩
    · rintro _ _ _ ⟨sound, vacant⟩ ⟨_⟩
      exact ⟨sound.call _ _, vacant.call sound _ _⟩
  exact both.2

/-- A group that forms from empty, and whether a member was added since the deadline was set. -/
structure Opening where
  group : Wrapper
  grown : Bool

namespace Opening

variable (opening : Opening) (now : SystemTime) (call : Call)

def deadline : Option SystemTime :=
  opening.group.initial.map fun (deadline, _) => deadline

def next : Opening where
  group := (opening.group.call now call).1
  grown :=
    if (opening.group.call now call).1.initial.map (·.1) = opening.deadline then
      opening.grown || opening.group.adds call
    else false

def machine (inner : Inner Forming) (start : SystemTime) (uuid : String) (request : JoinRequest)
    (delay : Duration) : Machine Opening (SystemTime × Call) where
  init := fun opening => opening = ⟨.forming (inner.joinForming start uuid request delay).1, false⟩
  step := fun opening (now, call) later => opening.deadline.isSome = true ∧ later = opening.next now call

variable {opening} {limit : SystemTime}

/-- The deadline can still be put off without passing `limit`, and a member that the group waits for was added
since the deadline was set. -/
def Bounded (limit : SystemTime) (opening : Opening) : Prop :=
  ∀ deadline initialDelay, opening.group.initial = some (deadline, initialDelay) →
    deadline + fromMillis initialDelay.remainingMs ≤ limit ∧
    (initialDelay.newMemberAdded = true → opening.grown = true)

theorem delayed_next (bounded : opening.Bounded limit) {deadline : SystemTime} (found : deadline ∈ opening.deadline) :
    Delayed limit deadline (opening.grown || opening.group.adds call) opening.grown
      (opening.next now call).group.initial := by
  obtain ⟨⟨_, initialDelay⟩, held, rfl⟩ := map_eq_some_iff.mp found
  obtain ⟨bound, flagged⟩ := bounded _ initialDelay held
  exact .call held bound flagged now call

theorem bounded_next (bounded : opening.Bounded limit) (forms : opening.deadline.isSome = true) :
    (opening.next now call).Bounded limit := by
  obtain ⟨deadline, found⟩ := isSome_iff_exists.mp forms
  intro later initialDelay held
  obtain ⟨bound, flagged, grew⟩ := delayed_next now call bounded found later initialDelay held
  refine ⟨bound, fun new => ?_⟩
  have same : later = deadline := by
    by_contra other
    rw [(grew other).2] at new
    cases new
  replace held : (opening.group.call now call).1.initial = some (later, initialDelay) := held
  rw [next, held, found, map_some, same, if_pos rfl]
  exact flagged new

end Opening

/-- The deadline of the join phase of an empty group stays within what the first member is ready to wait, it is
put off only for a member that was added since, and the loop that ends join phases ends within three rounds. -/
theorem initial_rebalance_is_bounded {history : History} (reached : History.machine.Reachable history)
    {inner : Inner Forming} (held : history.group = .forming inner) (empty : inner.members.isEmpty = true)
    (idle : inner.state.joinPhase = none) (start : SystemTime) (uuid : String) (request : JoinRequest)
    (delay : Duration) :
    (∀ opening, (Opening.machine inner start uuid request delay).Reachable opening →
      ∀ deadline ∈ opening.deadline, deadline ≤ start + (max delay request.rebalanceTimeout : Nat) ∧
        ∀ now call, ∀ later ∈ (opening.next now call).deadline, later ≠ deadline → opening.grown = true) ∧
    ∀ (forming : Inner Forming) (now : SystemTime),
      Inner.endJoinPhaseWithin now 3 forming = some (forming.endJoinPhaseAfterDeadline now) := by
  refine ⟨fun opening opens deadline found => ?_,
    fun forming now => Inner.endJoinPhaseWithin_of_rounds 2 (forming.rounds_le now)⟩
  have vacant := History.vacant_of_reachable reached
  rw [held] at vacant
  have bounded : opening.Bounded (start + (max delay request.rebalanceTimeout)) := by
    apply opens.invariant
    · rintro _ rfl later initialDelay opened
      obtain ⟨bound, flagged, _⟩ := Delayed.opened empty idle (map_eq_none_iff.mp (vacant idle empty)) start
        uuid request delay later initialDelay opened
      exact ⟨bound, flagged⟩
    · rintro _ ⟨now, call⟩ _ bounded ⟨forms, rfl⟩
      exact Opening.bounded_next now call bounded forms
  refine ⟨?_, fun now call later next other => ?_⟩
  · obtain ⟨⟨_, initialDelay⟩, opened, rfl⟩ := map_eq_some_iff.mp found
    exact Int.le_trans (Int.le_add_of_nonneg_right (Int.natCast_nonneg _)) (bounded _ initialDelay opened).1
  · obtain ⟨⟨_, initialDelay⟩, opened, rfl⟩ := map_eq_some_iff.mp next
    exact ((Opening.delayed_next now call bounded found _ initialDelay opened).2.2 other).1

/-- The second member joins before the first deadline, which is then put off. -/
def secondJoins : Opening :=
  Opening.next ⟨.forming ((Inner.new 0).joinForming 0 "a" (plainJoin 0 "" none) (fromMillis 400)).1, false⟩
    (fromMillis 100) (.join "b" (plainJoin 0 "" none) (fromMillis 400))

theorem initial_rebalance_is_bounded_put_off : ∃ later ∈ (secondJoins.next (fromMillis 400) .settle).deadline,
    later ≠ fromMillis 400 ∧ later ≤ fromMillis 1000 ∧ secondJoins.grown = true := by
  have bounded := (initial_rebalance_is_bounded (.init ⟨0, rfl⟩) rfl (by decide +kernel) rfl 0 "a"
    (plainJoin 0 "" none) (fromMillis 400)).1
  have joined : (Opening.machine (Inner.new 0) 0 "a" (plainJoin 0 "" none) (fromMillis 400)).Reachable secondJoins :=
    .step (.init rfl) (a := (fromMillis 100, .join "b" (plainJoin 0 "" none) (fromMillis 400)))
      ⟨by decide +kernel, rfl⟩
  refine ⟨fromMillis 800, by decide +kernel, by decide, ?_, ?_⟩
  · exact (bounded _ (joined.step (a := (fromMillis 400, .settle)) ⟨by decide +kernel, rfl⟩) (fromMillis 800)
      (by decide +kernel)).1
  · exact (bounded _ joined (fromMillis 400) (by decide +kernel)).2 (fromMillis 400) .settle (fromMillis 800)
      (by decide +kernel) (by decide)

end Nisshi.Coordinator
