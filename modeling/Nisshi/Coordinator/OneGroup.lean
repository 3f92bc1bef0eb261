import Nisshi.Coordinator.Logged

/-! The coordinators of all brokers run one group: the documents that they store are those of a single group
that handles the requests one after another, and a request is answered as it was handled. -/

namespace Nisshi.Coordinator

open Nisshi.SansIo Nisshi.Storage Nisshi.Lib Function

variable {C R V : Type} {program : R → Request} {broker : R → C} {config : C → GroupCoordinatorConfig}

/-- Every document that is stored is what the request that stored it makes of the document before it, read
from storage or as the broker that stored it still has it; the two are the same when the leader that the
document before it names is one of its members. The request is answered with what it got in that step,
unless it is held. And a `Heartbeat`, `LeaveGroup` or `OffsetCommit` that stored nothing is answered as by
the document that was stored at a moment while it ran. -/
theorem coordinators_run_one_group [DecidableEq C] [DecidableEq R] {s : State C R V}
    (reached : (machine program broker config).Reachable s) :
    (∀ n entry, s.log[n]? = some entry →
      RunsFor program broker config (s.log.take n) entry.request entry.memberId ∧
      (∃ group, Copies (documentAt s.log n) group ∧ IsStep program broker config group entry) ∧
      ((documentAt s.log n).all GroupDetail.leaderIsMember = true →
        Follows program broker config (documentAt s.log n) entry)) ∧
    (∀ entry ∈ s.log, Acknowledged (program entry.request) entry.verdict (s.phase entry.request)) ∧
    (∀ r body, s.phase r = .answered body → (program r).answersFromStorage = true →
      (∀ entry ∈ s.log, entry.request ≠ r) → ∃ n, s.began r ≤ n ∧ n ≤ s.log.length ∧
        AnsweredAt program broker config s.log r n (Answers (program r) · body)) := by
  have logged := logged_of_reachable reached
  refine ⟨?documents, logged.acknowledged, ?answers⟩
  case documents =>
    intro n entry found
    obtain ⟨runs, group, sound, copies, step⟩ := logged.steps n entry found
    exact ⟨runs, ⟨group, copies, step⟩, fun known => ⟨group, reads_of_copies sound copies known, step⟩⟩
  case answers =>
    intro r body answered reads unstored
    have knows := logged.knows r
    rw [answered] at knows
    rcases knows reads with ⟨entry, member, stored⟩ | during
    · exact absurd stored (unstored entry member)
    · exact during

/-! A run in which the broker that stored a document and a broker that reads it go on with different
groups. -/

section Run

variable [DecidableEq C] [DecidableEq R] {s : State C R Nat} {group : Wrapper}

theorem reachable_fetched (reached : (machine program broker config).Reachable s) (r : R) (idle : s.phase r = .idle)
    (accepted : (program r).refused = none) (cold : s.cache (broker r) = none) :
    (machine program broker config).Reachable ((s.begin r).setPhase r
      (.fetched (program r).memberId (program r).firstMaxAge s.stored s.log.length)) := by
  have old : cached (s.cache (broker r)) 0 (program r).firstMaxAge = none := by simp [cached, cold]
  have read := ((reached.step (.arrive idle accepted)).step (.miss (update_self ..) old)).step
    (.read (update_self ..))
  simp only [State.setPhase, State.begin, update_idem] at read
  exact read

def State.handled (s : State C R Nat) (broker : R → C) (r : R) (memberId : String) (result : Wrapper × Verdict) :
    State C R Nat :=
  ((s.store ⟨r, memberId, result.1.toGroupDetail, s.log.length, result.2⟩).learn (broker r) result.1
    s.log.length).setPhase r (.ofVerdict result.1 result.2)

theorem reachable_handled (reached : (machine program broker config).Reachable s) {memberId : String}
    {version : Option Nat} {n : Nat} (at_ : s.phase r = .found memberId maxAge group version source n)
    (current : s.stored.map (·.2) = version)
    (uuid : String) (now : SystemTime)
    (ran : (program r).run (config (broker r)).initialRebalanceDelay uuid now memberId group = result)
    (changed : (program r).stores group result.1 version = true)
    (numbered : ∀ entry ∈ s.log, entry.version ≠ s.log.length) :
    (machine program broker config).Reachable (s.handled broker r memberId result) := by
  have stored := reached.step (.run at_ ran)
  rw [Request.proceed, if_pos changed] at stored
  have landed := stored.step (.store (update_self ..) current fun entry member same =>
    absurd same (numbered entry member))
  have answered := landed.step (.cacheStored (update_self ..))
  simp only [State.setPhase, State.store, State.learn, update_idem] at answered
  exact answered

end Run

/-! What a heartbeat leaves of the leader: it names no new one but a member. -/

namespace Inner

structure Within (known : String → Prop) (inner : Inner Forming) : Prop where
  members : ∀ id ∈ inner.members, known id
  leader : ∀ id, inner.state.leader = some id → known id

namespace Within

variable {known : String → Prop} {inner next : Inner Forming} {now : SystemTime}

theorem shrink (within : inner.Within known) (members : ∀ id ∈ next.members, id ∈ inner.members)
    (leader : ∀ id, next.state.leader = some id → id ∈ inner.members ∨ inner.state.leader = some id) :
    next.Within known where
  members := fun id present => within.members id (members id present)
  leader := fun id led => (leader id led).elim (within.members id) (within.leader id)

theorem leader_of_setLeader {leader : Option String} {id : String}
    (led : (inner.setLeader leader).state.leader = some id) : leader = some id := by
  cases held : inner.state.protocol <;>
    simp [Inner.setLeader, Forming.setLeader, Forming.leader, held] at led
  exact led

variable (within : inner.Within known)

include within

theorem forgetRemovedMembers : inner.forgetRemovedMembers.Within known :=
  within.shrink (fun id present => by rwa [members_forgetRemovedMembers] at present)
    fun _ led => .inl (mem_of_leader_forgetRemovedMembers led)

theorem completeJoin : (inner.completeJoin now).Within known := by
  cases phase : inner.state.joinPhase with
  | none =>
    simp only [Inner.completeJoin, phase]
    exact within
  | some joinPhase =>
    have kept : (inner.keepJoined joinPhase).Within known :=
      within.shrink (fun id => mem_of_mem_keepJoined) fun id led => .inr led
    simp only [Inner.completeJoin, phase]
    split
    · exact kept.shrink (fun id present => present) fun id led => .inr led
    · have elected : ((inner.keepJoined joinPhase).electLeader joinPhase).Within known := by
        rw [electLeader]
        split
        · exact kept
        · refine kept.shrink (fun id present => present) fun id led => .inl ?_
          exact Std.ExtTreeMap.mem_keys.mp (List.mem_of_find?_eq_some (leader_of_setLeader led))
      rw [startGeneration]
      split
      · exact elected.shrink (fun id present => present) fun id led => by cases led
      · exact elected.shrink (fun id present => Std.ExtTreeMap.mem_map.mp present) fun id led => .inr led

theorem ends (ends : Ends due now inner next) : next.Within known := by
  induction ends with
  | refl => exact within
  | extended _ _ _ _ ih => exact ih (within.shrink (fun id present => present) fun id led => .inr led)
  | completed _ _ _ ih => exact ih within.completeJoin

theorem prepareRebalance : (inner.prepareRebalance now).Within known := by
  refine within.shrink (fun id => mem_prepareRebalance.mp) fun id led => .inr ?_
  rw [Inner.prepareRebalance] at led
  split at led
  exacts [led, led]

theorem removal (removal : inner.Removal next) : next.Within known :=
  within.shrink (fun _ present => removal.mem present) fun _ led => .inr (removal.state ▸ led)

theorem rests (rests : inner.Rests next) : next.Within known := by
  cases rests with
  | contacts => exact within.shrink (fun _ => Std.ExtTreeMap.mem_modify.mp) fun id led => .inr led
  | forgets | synced => exact within.shrink (fun id present => present) fun id led => .inr led

theorem passes {due : Bool} (passes : Wrapper.Passes due now (.forming inner) after) :
    ∃ next, after = .forming next ∧ next.Within known := by
  cases passes with
  | rests rests ends => exact ⟨_, rfl, (within.rests rests).ends ends⟩
  | removes removal _ _ ends => exact ⟨_, rfl, (within.removal removal).forgetRemovedMembers.ends ends⟩
  | rebalances removal _ ends =>
    exact ⟨_, rfl, (within.removal removal).forgetRemovedMembers.prepareRebalance.ends ends⟩
  | idles removal => exact ⟨_, rfl, (within.removal removal).forgetRemovedMembers⟩

end Within

end Inner

theorem Request.heartbeat_within {inner : Inner Forming} {memberId : String} {generationId : Int} {updated : Wrapper}
    (ran : (Request.heartbeat generationId member groupInstanceId).run delay uuid now memberId
      (.forming inner) = (updated, verdict))
    (within : inner.Within known) :
    ∃ kept : Inner Forming, updated = .forming kept ∧ kept.Within known := by
  obtain ⟨settled, equation, kept⟩ := within.passes (Wrapper.settle_passes (.forming inner) now)
  rw [Request.run, equation] at ran
  obtain ⟨next, result, known⟩ :=
    kept.passes (Wrapper.heartbeat_passes (.forming settled) now generationId member groupInstanceId)
  exact ⟨next, (congrArg Prod.fst ran).symm.trans result, known⟩

/-! A dynamic member `a` forms the group and leads it, and a static member `i-s` joins. A third member gets
a member id and leaves with it, so a join phase starts, and neither member rejoins. When it ends, `a` is
removed and `i-s` waits for another one, in a group whose leader is still `a`. -/

def joining (apiVersion : Int) (groupInstanceId : Option String) : Request :=
  .join { apiVersion, clientId := none, clientHost := none, sessionTimeoutMs := 10000,
          rebalanceTimeoutMs := some 1000, memberId := "", groupInstanceId, protocolType := "consumer",
          protocols := some [{ name := "range", metadata := [] }] }

def strandedProgram : Nat → Request
  | 0 => joining 0 none
  | 1 => joining 0 (some "i")
  | 2 => joining 4 none
  | 3 => .leave (some "c") none
  | _ => .heartbeat 1 "i-s" (some "i")

/-- Both heartbeats `4` and `5` reach one broker, and `6` reaches another one. -/
def strandedBroker (r : Nat) : Nat :=
  if r < 6 then min r 4 else r

def second : Duration :=
  fromMillis 1000

def strandedConfig : Nat → GroupCoordinatorConfig :=
  fun _ => { initialRebalanceDelay := second, pollInterval := second }

def strandedUuid : Nat → String
  | 0 => "a"
  | 1 => "s"
  | _ => "c"

def strandedTime (r : Nat) : SystemTime :=
  if r < 2 then 0 else if r < 4 then second else 2 * second + (r - 4)

def strandedRun (r : Nat) (group : Wrapper) : Wrapper × Verdict :=
  (strandedProgram r).run second (strandedUuid r) (strandedTime r) (strandedProgram r).memberId group

def stranded : Nat → Wrapper × Verdict
  | 0 => strandedRun 0 (.new 0)
  | r + 1 => strandedRun (r + 1)
      (if r < 4 then .withStorageGroupDetail (stranded r).1.toGroupDetail else (stranded r).1)

def Wrapper.inner : Wrapper → Inner Forming
  | .forming inner => inner
  | .formed inner => .new inner.inception

def Wrapper.isForming : Wrapper → Bool
  | .forming _ => true
  | .formed _ => false

theorem Wrapper.eq_forming (group : Wrapper) (forming : group.isForming = true) : group = .forming group.inner := by
  cases group with
  | forming => rfl
  | formed => cases forming

def Wrapper.glance (group : Wrapper) : List (Option SystemTime) × List String × Option SystemTime :=
  (group.inner.members.values.map (·.lastContact), group.inner.pendingMembers.keys,
    group.inner.state.joinPhase.map (·.deadline))

theorem Request.stores_of_glance {request : Request} {version : Option V} (differs : updated.glance ≠ original.glance) :
    request.stores original updated version = true := by
  have changed : updated ≠ original := fun same => differs (congrArg Wrapper.glance same)
  cases request <;> simp [Request.stores, changed]

def strandedEntry (r : Nat) : Entry Nat Nat where
  request := r
  memberId := (strandedProgram r).memberId
  document := (stranded r).1.toGroupDetail
  version := r
  verdict := (stranded r).2

abbrev strandedMachine : Machine (State Nat Nat Nat) (Action Nat) :=
  machine strandedProgram strandedBroker strandedConfig

/-- What the second heartbeat makes of the document. -/
def reread : Wrapper × Verdict :=
  strandedRun 5 (.withStorageGroupDetail (stranded 4).1.toGroupDetail)

def rereadEntry : Entry Nat Nat :=
  { strandedEntry 6 with document := reread.1.toGroupDetail, version := 5, verdict := reread.2 }

/-- The requests come one after another, and the second heartbeat finds the group in the cache, or reads it. -/
theorem exists_stranded : ∃ s t : State Nat Nat Nat,
    strandedMachine.Reachable s ∧
    strandedMachine.Reachable t ∧ s.log = (List.range 6).map strandedEntry ∧
    t.log = (List.range 5).map strandedEntry ++ [rereadEntry] := by
  have start : strandedMachine.Reachable (State.start : State Nat Nat Nat) :=
    .init rfl
  have made := (reachable_fetched start 0 rfl rfl rfl).step (.make (r := 0) 0 rfl)
  have first := reachable_handled made rfl rfl (strandedUuid 0) (strandedTime 0)
    (show strandedRun 0 (.new 0) = stranded 0 from rfl) (Request.stores_of_glance (by decide +kernel))
    fun entry member => absurd member List.not_mem_nil
  have read := (reachable_fetched first 1 rfl rfl rfl).step (.learn (r := 1) rfl)
  have second := reachable_handled read rfl rfl (strandedUuid 1) (strandedTime 1)
    (show strandedRun 1 (.withStorageGroupDetail (stranded 0).1.toGroupDetail) = stranded 1 from rfl)
    (Request.stores_of_glance (by decide +kernel)) (by decide +kernel)
  have read := (reachable_fetched second 2 rfl rfl rfl).step (.learn (r := 2) rfl)
  have third := reachable_handled read rfl rfl (strandedUuid 2) (strandedTime 2)
    (show strandedRun 2 (.withStorageGroupDetail (stranded 1).1.toGroupDetail) = stranded 2 from rfl)
    (Request.stores_of_glance (by decide +kernel)) (by decide +kernel)
  have read := (reachable_fetched third 3 rfl rfl rfl).step (.learn (r := 3) rfl)
  have fourth := reachable_handled read rfl rfl (strandedUuid 3) (strandedTime 3)
    (show strandedRun 3 (.withStorageGroupDetail (stranded 2).1.toGroupDetail) = stranded 3 from rfl)
    (Request.stores_of_glance (by decide +kernel)) (by decide +kernel)
  have read := (reachable_fetched fourth 4 rfl rfl rfl).step (.learn (r := 4) rfl)
  have fifth := reachable_handled read rfl rfl (strandedUuid 4) (strandedTime 4)
    (show strandedRun 4 (.withStorageGroupDetail (stranded 3).1.toGroupDetail) = stranded 4 from rfl)
    (Request.stores_of_glance (by decide +kernel)) (by decide +kernel)
  have recent : 0 < durationMax := by decide
  have found := (fifth.step (.arrive (r := 5) rfl rfl)).step (.hit (r := 5) rfl rfl (if_pos recent))
  have sixth := reachable_handled found rfl rfl (strandedUuid 5) (strandedTime 5)
    (show strandedRun 5 (stranded 4).1 = stranded 5 from rfl) (Request.stores_of_glance (by decide +kernel))
    (by decide +kernel)
  have read := (reachable_fetched fifth 6 rfl rfl rfl).step (.learn (r := 6) rfl)
  have other := reachable_handled (r := 6) read rfl rfl (strandedUuid 5) (strandedTime 5)
    (show strandedRun 5 (.withStorageGroupDetail (stranded 4).1.toGroupDetail) = reread from rfl)
    (Request.stores_of_glance (by decide +kernel)) (by decide +kernel)
  exact ⟨_, _, sixth, other, rfl, rfl⟩

/-- The heartbeat runs on the document after the leave, whose leader is a member, as it is in storage. -/
theorem coordinators_run_one_group_heartbeat : ∃ s : State Nat Nat Nat,
    strandedMachine.Reachable s ∧ ∃ entry, s.log[4]? = some entry ∧
    entry.document = (stranded 4).1.toGroupDetail ∧ Follows strandedProgram strandedBroker strandedConfig
      (some (stranded 3).1.toGroupDetail) entry := by
  obtain ⟨s, _, reached, _, log, -⟩ := exists_stranded
  have stored : s.log[4]? = some (strandedEntry 4) := by rw [log]; rfl
  have before : documentAt s.log 4 = some (stranded 3).1.toGroupDetail := by rw [log]; rfl
  have known : (documentAt s.log 4).all GroupDetail.leaderIsMember = true := by
    rw [before]
    decide +kernel
  have follows := ((coordinators_run_one_group reached).1 4 _ stored).2.2 known
  exact ⟨s, reached, _, stored, rfl, before ▸ follows⟩

theorem stranded_not_follows {entry : Entry Nat Nat} (by_ : entry.request = 5)
    (stored : entry.document = (stranded 5).1.toGroupDetail) :
    ¬ Follows strandedProgram strandedBroker strandedConfig (some (stranded 4).1.toGroupDetail) entry := by
  rintro ⟨group, read, updated, ⟨uuid, now, ran⟩, same⟩
  generalize equation : (Wrapper.withStorageGroupDetail (stranded 4).1.toGroupDetail).inner = reread
  obtain rfl : group = .forming reread := by
    rw [← equation, ← Wrapper.eq_forming _ (by decide +kernel)]
    exact read
  have within : reread.Within (· = "i-s") := by
    rw [← equation]
    constructor
    · intro id present
      have listed : (Wrapper.withStorageGroupDetail (stranded 4).1.toGroupDetail).inner.members.keys =
        ["i-s"] := by decide +kernel
      exact List.mem_singleton.mp (listed ▸ Std.ExtTreeMap.mem_keys.mpr present)
    · intro id led
      have none : (Wrapper.withStorageGroupDetail (stranded 4).1.toGroupDetail).inner.state.leader =
        none := by decide +kernel
      rw [none] at led
      cases led
  have leads : (stranded 5).1.inner.state.leader = some "a" := by decide +kernel
  have program : strandedProgram entry.request = .heartbeat 1 "i-s" (some "i") := by rw [by_]; rfl
  rw [program] at ran
  obtain ⟨kept, result, named⟩ := Request.heartbeat_within ran within
  rw [stored, Wrapper.eq_forming (stranded 5).1 (by decide +kernel), result] at same
  have states := congrArg GroupDetail.state same
  simp only [Wrapper.toGroupDetail, Inner.toGroupDetail, GroupState.forming.injEq, leads] at states
  exact absurd (named.leader "a" states.2.2.symm) (by decide)

/-- The second heartbeat runs on the group that its broker has cached, whose leader is no longer a member. A
broker that reads the document drops that leader, so nothing that the heartbeat makes of the document, at any
time, is what it stores: the same heartbeat at a broker that reads the document stores another state. -/
theorem cached_group_keeps_removed_leader : ∃ s t : State Nat Nat Nat,
    strandedMachine.Reachable s ∧
    strandedMachine.Reachable t ∧ t.log.take 5 = s.log.take 5 ∧
    ∃ entry other, s.log[5]? = some entry ∧ t.log[5]? = some other ∧
      strandedProgram other.request = strandedProgram entry.request ∧
      other.document.state ≠ entry.document.state ∧
      ¬ Follows strandedProgram strandedBroker strandedConfig (documentAt s.log 5) entry := by
  obtain ⟨s, t, reached, rereads, log, log'⟩ := exists_stranded
  refine ⟨s, t, reached, rereads, by rw [log, log']; rfl, strandedEntry 5, rereadEntry,
    by rw [log]; rfl, by rw [log']; rfl, rfl, by decide +kernel, ?_⟩
  rw [log]
  exact stranded_not_follows rfl rfl

end Nisshi.Coordinator
