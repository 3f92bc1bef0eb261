import Nisshi.Lib.Machine
import Nisshi.Coordinator.Document

/-! The group coordinators of any number of brokers, over a storage that replaces the document of a group
only at the version that the coordinator gives. A request reads the group from its broker's cache or from
storage, settles it, runs on it, stores what it changed, and starts again when another request was first. -/

namespace Nisshi.Coordinator

open Nisshi.SansIo Nisshi.Storage Nisshi.Lib

structure GroupCoordinatorConfig where
  initialRebalanceDelay : Duration
  pollInterval : Duration

def maxSessionTimeoutMs : Int :=
  1800000

def durationMax : Duration :=
  u64Max * 1000000000 + 999999999

structure JoinGroup where
  apiVersion : Int
  clientId : Option String
  clientHost : Option String
  sessionTimeoutMs : Int
  rebalanceTimeoutMs : Option Int
  memberId : String
  groupInstanceId : Option String
  protocolType : String
  protocols : Option (List JoinGroupRequestProtocol)
  deriving DecidableEq

def JoinGroup.resolve (request : JoinGroup) (memberId : String) : JoinRequest where
  apiVersion := request.apiVersion
  clientId := request.clientId
  clientHost := request.clientHost
  sessionTimeoutMs := request.sessionTimeoutMs
  rebalanceTimeoutMs := request.rebalanceTimeoutMs.getD request.sessionTimeoutMs
  memberId
  groupInstanceId := request.groupInstanceId
  protocolType := request.protocolType
  protocols := request.protocols

inductive Request where
  | join (request : JoinGroup)
  | sync (request : SyncRequest)
  | leave (memberId : Option String) (members : Option (List MemberIdentity))
  | heartbeat (generationId : Int) (memberId : String) (groupInstanceId : Option String)
  | offsetCommit (detail : OffsetCommit)
  deriving DecidableEq

/-- What a request has to do once the group that it ran on is stored. -/
inductive Verdict where
  | ready (body : Body)
  | held (memberId : String)
  | accepted
  deriving DecidableEq

def Reply.verdict : Reply → Verdict
  | .ready body => .ready body
  | .held memberId => .held memberId

inductive Source where
  | cache
  | storage
  deriving DecidableEq

namespace Request

def handle (request : Request) (delay : Duration) (uuid : String) (now : SystemTime) (memberId : String)
    (group : Wrapper) : Wrapper × Verdict :=
  match request with
  | .join request =>
    let (group, reply) := group.join now uuid (request.resolve memberId) delay
    (group, reply.verdict)
  | .sync request =>
    let (group, reply) := group.sync now request
    (group, reply.verdict)
  | .leave memberId members =>
    let (group, body) := group.leave now memberId members
    (group, .ready body)
  | .heartbeat generationId memberId groupInstanceId =>
    let (group, body) := group.heartbeat now generationId memberId groupInstanceId
    (group, .ready body)
  | .offsetCommit detail =>
    match group.checkOffsetCommit now detail with
    | (group, some errorCode) => (group, .ready (offsetCommitResponse detail errorCode))
    | (group, none) => (group, .accepted)

def run (request : Request) (delay : Duration) (uuid : String) (now : SystemTime) (memberId : String)
    (group : Wrapper) : Wrapper × Verdict :=
  request.handle delay uuid now memberId (group.settle now)

def memberId : Request → String
  | .join request => request.memberId
  | .sync request => request.memberId
  | _ => ""

def refused : Request → Option Body
  | .join request =>
    if request.sessionTimeoutMs ≤ 0 ∨ maxSessionTimeoutMs < request.sessionTimeoutMs then
      some (joinErrorResponse request.memberId .invalidSessionTimeout)
    else none
  | _ => none

def readsCache : Request → Bool
  | .offsetCommit _ => false
  | _ => true

def firstMaxAge : Request → Duration
  | .leave .. => durationMax
  | .heartbeat .. => durationMax
  | _ => 0

def retryMaxAge (config : GroupCoordinatorConfig) (maxAge : Duration) : Request → Duration
  | .join _ => config.pollInterval
  | .sync _ => config.pollInterval
  | _ => maxAge

def answersFromStorage : Request → Bool
  | .join _ => false
  | .sync _ => false
  | _ => true

def stores {V : Type} (original updated : Wrapper) (version : Option V) : Request → Bool
  | .offsetCommit _ => !(updated == original && version.isSome)
  | _ => updated != original

def rereads (source : Source) : Request → Bool
  | .leave .. => source == .cache
  | .heartbeat .. => source == .cache
  | _ => false

def heldTooLong (memberId : String) : Request → Body
  | .sync _ => rebalanceInProgressSync
  | _ => rebalanceInProgressJoin memberId

def holdLimit (group : Wrapper) : Request → Duration
  | .join request => group.holdLimit request.rebalanceTimeoutMs
  | _ => group.holdLimit none

def committed (response : Option OffsetCommitResponse) : Request → Body
  | .offsetCommit detail => (response.map Body.offsetCommit).getD (offsetCommitResponse detail .unknownMemberId)
  | _ => .offsetCommit { throttleTimeMs := some 0, topics := none }

end Request

structure Learned (V : Type) where
  group : Wrapper
  version : Option V

def cached {V : Type} (cache : Option (Learned V)) (elapsed maxAge : Duration) : Option (Learned V) :=
  if elapsed < maxAge then cache else none

/-- A document that was stored: the request that stored it and the member id it had, and what came of the
request in that step. -/
structure Entry (R V : Type) where
  request : R
  memberId : String
  document : GroupDetail
  version : V
  verdict : Verdict

inductive Phase (V : Type) where
  | idle
  | looping (memberId : String) (maxAge : Duration)
  | missed (memberId : String) (maxAge : Duration)
  /-- Storage has answered, when it had stored `at_` documents. -/
  | fetched (memberId : String) (maxAge : Duration) (found : Option (GroupDetail × V)) (at_ : Nat)
  | found (memberId : String) (maxAge : Duration) (group : Wrapper) (version : Option V) (source : Source)
      (at_ : Nat)
  | storing (memberId : String) (maxAge : Duration) (version : Option V) (updated : Wrapper)
      (verdict : Verdict)
  | stored (updated : Wrapper) (version : V) (verdict : Verdict)
  | outdated (memberId : String) (maxAge : Duration) (current : GroupDetail) (version : V)
  | held (memberId : String) (group : Wrapper)
  | committing
  | answered (body : Body)
  | failed

def Phase.ofVerdict {V : Type} (group : Wrapper) : Verdict → Phase V
  | .ready body => .answered body
  | .held memberId => .held memberId group
  | .accepted => .committing

def Request.proceed {V : Type} (request : Request) (memberId : String) (maxAge : Duration)
    (original : Wrapper) (version : Option V) (source : Source) (updated : Wrapper) (verdict : Verdict) :
    Phase V :=
  if request.stores original updated version then .storing memberId maxAge version updated verdict
  else if request.rereads source then .looping memberId 0
  else .ofVerdict updated verdict

/-- `C` names the controllers, `R` the requests and `V` the versions. -/
structure State (C R V : Type) where
  /-- The documents of the group that were stored, oldest first. -/
  log : List (Entry R V)
  cache : C → Option (Learned V)
  phase : R → Phase V
  /-- How many documents were stored when the request arrived. -/
  began : R → Nat

namespace State

variable {C R V : Type}

def start : State C R V where
  log := []
  cache := fun _ => none
  phase := fun _ => .idle
  began := fun _ => 0

def stored (s : State C R V) : Option (GroupDetail × V) :=
  s.log.getLast?.map fun entry => (entry.document, entry.version)

variable [DecidableEq C] [DecidableEq R]

def setPhase (s : State C R V) (r : R) (phase : Phase V) : State C R V :=
  { s with phase := Function.update s.phase r phase }

def learn (s : State C R V) (c : C) (group : Wrapper) (version : V) : State C R V :=
  { s with cache := Function.update s.cache c (some { group, version := some version }) }

def begin (s : State C R V) (r : R) : State C R V :=
  { s with began := Function.update s.began r s.log.length }

def store (s : State C R V) (entry : Entry R V) : State C R V :=
  { s with log := s.log ++ [entry] }

end State

inductive Action (R : Type) where
  | arrive (r : R)
  | look (r : R)
  | read (r : R)
  | learn (r : R)
  | run (r : R)
  | store (r : R)
  | wake (r : R)
  | commit (r : R)
  | fail (r : R)

section Machine

variable {C R V : Type} [DecidableEq C] [DecidableEq R]

/-- The time at which a request runs, the time that has passed since a group was cached or since a request
was first held, the ids that `Uuid::new_v4` makes, the versions that storage makes and what storing the
offsets answers are free. A version names one document. -/
inductive Step (program : R → Request) (broker : R → C) (config : C → GroupCoordinatorConfig) :
    State C R V → Action R → State C R V → Prop where
  | refuse {s r body} (at_ : s.phase r = .idle) (refused : (program r).refused = some body) :
      Step program broker config s (.arrive r) (s.setPhase r (.answered body))
  | arrive {s r} (at_ : s.phase r = .idle) (accepted : (program r).refused = none) :
      Step program broker config s (.arrive r)
        ((s.begin r).setPhase r (.looping (program r).memberId (program r).firstMaxAge))
  | hit {s r memberId maxAge elapsed learned} (at_ : s.phase r = .looping memberId maxAge)
      (reads : (program r).readsCache = true)
      (recent : cached (s.cache (broker r)) elapsed maxAge = some learned) :
      Step program broker config s (.look r)
        (s.setPhase r (.found memberId maxAge learned.group learned.version .cache s.log.length))
  | miss {s r memberId maxAge elapsed} (at_ : s.phase r = .looping memberId maxAge)
      (old : cached (s.cache (broker r)) elapsed maxAge = none) :
      Step program broker config s (.look r) (s.setPhase r (.missed memberId maxAge))
  | read {s r memberId maxAge} (at_ : s.phase r = .missed memberId maxAge) :
      Step program broker config s (.read r)
        (s.setPhase r (.fetched memberId maxAge s.stored s.log.length))
  | learn {s r memberId maxAge detail version n}
      (at_ : s.phase r = .fetched memberId maxAge (some (detail, version)) n) :
      Step program broker config s (.learn r)
        ((s.learn (broker r) (.withStorageGroupDetail detail) version).setPhase r
          (.found memberId maxAge (.withStorageGroupDetail detail) (some version) .storage n))
  | make {s r memberId maxAge n} (inception : SystemTime)
      (at_ : s.phase r = .fetched memberId maxAge none n) :
      Step program broker config s (.learn r)
        (s.setPhase r (.found memberId maxAge (.new inception) none .storage n))
  | run {s r memberId maxAge group version source n uuid now updated verdict}
      (at_ : s.phase r = .found memberId maxAge group version source n)
      (ran : (program r).run (config (broker r)).initialRebalanceDelay uuid now memberId group = (updated, verdict)) :
      Step program broker config s (.run r)
        (s.setPhase r ((program r).proceed memberId maxAge group version source updated verdict))
  | store {s r memberId maxAge expected updated verdict version}
      (at_ : s.phase r = .storing memberId maxAge expected updated verdict)
      (same : s.stored.map (·.2) = expected)
      (names : ∀ entry ∈ s.log, entry.version = version → entry.document = updated.toGroupDetail) :
      Step program broker config s (.store r)
        ((s.store { request := r, memberId, document := updated.toGroupDetail, version, verdict }).setPhase r
          (.stored updated version verdict))
  | conflict {s r memberId maxAge expected updated verdict current version}
      (at_ : s.phase r = .storing memberId maxAge expected updated verdict)
      (held : s.stored = some (current, version)) (other : expected ≠ some version) :
      Step program broker config s (.store r) (s.setPhase r (.outdated memberId maxAge current version))
  | cacheStored {s r updated version verdict} (at_ : s.phase r = .stored updated version verdict) :
      Step program broker config s (.learn r)
        ((s.learn (broker r) updated version).setPhase r (.ofVerdict updated verdict))
  | cacheOutdated {s r memberId maxAge current version}
      (at_ : s.phase r = .outdated memberId maxAge current version) :
      Step program broker config s (.learn r)
        ((s.learn (broker r) (.withStorageGroupDetail current) version).setPhase r
          (.looping memberId ((program r).retryMaxAge (config (broker r)) maxAge)))
  | wake {s r memberId group elapsed} (at_ : s.phase r = .held memberId group)
      (within : elapsed ≤ (program r).holdLimit group) :
      Step program broker config s (.wake r)
        (s.setPhase r (.looping memberId (config (broker r)).pollInterval))
  | giveUp {s r memberId group elapsed} (at_ : s.phase r = .held memberId group)
      (late : (program r).holdLimit group < elapsed) :
      Step program broker config s (.wake r) (s.setPhase r (.answered ((program r).heldTooLong memberId)))
  | commit {s r response} (at_ : s.phase r = .committing) :
      Step program broker config s (.commit r) (s.setPhase r (.answered ((program r).committed response)))
  | failRead {s r memberId maxAge} (at_ : s.phase r = .missed memberId maxAge) :
      Step program broker config s (.fail r) (s.setPhase r .failed)
  | failStore {s r memberId maxAge expected updated verdict}
      (at_ : s.phase r = .storing memberId maxAge expected updated verdict) :
      Step program broker config s (.fail r) (s.setPhase r .failed)

def machine (program : R → Request) (broker : R → C) (config : C → GroupCoordinatorConfig) :
    Machine (State C R V) (Action R) where
  init := fun s => s = State.start
  step := Step program broker config

end Machine

end Nisshi.Coordinator
