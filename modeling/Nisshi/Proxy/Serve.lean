import Nisshi.Lib.Machine
import Nisshi.Proxy.Produce

/-! `BatchProduceService`, for any number of calls of `serve`. A call queues its request, and whichever call runs
out of patience, or finds enough records queued, sends every request that waits to the origin and leaves each
owner its response. Each locked section is one step, and so is what the origin answers. -/

namespace Nisshi.Proxy

open Nisshi.SansIo Nisshi.Lib List Option Function
open Std (ExtTreeMap)

def mergeable (request : ProduceRequest) : Bool :=
  (request.topicData.getD []).all fun topic =>
    (topic.partitionData.getD []).all fun partition =>
      (partition.records.getD []).all fun batch =>
        batch.producerId == -1 && !batch.isTransactional && !batch.isControl &&
          TimestampType.from batch.attributes == .createTime

def numberOfRecords (request : ProduceRequest) : Nat :=
  ((request.topicData.getD []).map fun topic =>
    ((topic.partitionData.getD []).map fun partition =>
      ((partition.records.getD []).map fun batch => batch.recordCount.toNat).sum).sum).sum

structure BatchProduceService where
  codec : Codec
  /-- A topic's `batch.max.records`. -/
  batchMaxRecords : String → Option Nat

def BatchProduceService.maxRecords (service : BatchProduceService) (request : ProduceRequest) : Nat :=
  ((request.topicData.getD []).filterMap fun topic => service.batchMaxRecords topic.name).min?.getD 1000

inductive BatchResponse where
  | waker
  | response (response : ProduceResponse)
  deriving DecidableEq

inductive Next where
  | waiting
  | head
  deriving DecidableEq

inductive Phase (E : Type) where
  | idle
  /-- A request that does not merge goes to the origin at once. -/
  | bypassing
  | head
  | flushing (next : Next)
  /-- `send_pending_batch` has taken the requests and awaits the origin. -/
  | sending (next : Next) (requests : List BatchRequest)
  | waiting
  | returned (result : Except E ProduceResponse)

def Next.phase {E : Type} : Next → Phase E
  | .waiting => .waiting
  | .head => .head

namespace Phase

variable {E : Type}

def held : Phase E → List Uuid
  | .sending _ requests => requests.map (·.id)
  | _ => []

def batched : Phase E → Bool
  | .head | .flushing _ | .sending _ _ | .waiting => true
  | _ => false

end Phase

structure State (E : Type) where
  requests : List BatchRequest
  responses : Uuid → Option BatchResponse
  phase : Uuid → Phase E

namespace State

variable {E : Type}

def start : State E where
  requests := []
  responses := fun _ => none
  phase := fun _ => .idle

def setPhase (s : State E) (a : Uuid) (phase : Phase E) : State E :=
  { s with phase := Function.update s.phase a phase }

def setRequests (s : State E) (requests : List BatchRequest) : State E :=
  { s with requests }

def setResponse (s : State E) (a : Uuid) (response : Option BatchResponse) : State E :=
  { s with responses := Function.update s.responses a response }

@[simp]
theorem phase_setPhase_self (s : State E) (a : Uuid) (phase : Phase E) : (s.setPhase a phase).phase a = phase :=
  update_self ..

theorem phase_setPhase_of_ne (s : State E) (phase : Phase E) (other : b ≠ a) :
    (s.setPhase a phase).phase b = s.phase b :=
  update_of_ne other ..

theorem responses_setResponse_of_ne (s : State E) (response : Option BatchResponse) (other : b ≠ a) :
    (s.setResponse a response).responses b = s.responses b :=
  update_of_ne other ..

def respond (s : State E) (responses : ExtTreeMap Uuid ProduceResponse) : State E :=
  { s with
    responses := fun owner =>
      match responses[owner]? with
      | some response => some (.response response)
      | none => s.responses owner }

/-- `send_pending_batch` with the origin's answer: a call that is not answered goes on as if nothing had been
sent, also when the origin failed. -/
def settle (s : State E) (a : Uuid) (next : Next) : Except E (ExtTreeMap Uuid ProduceResponse) → State E
  | .error _ => s.setPhase a next.phase
  | .ok owners =>
    match owners[a]? with
    | some response => ((s.setResponse a none).respond (owners.erase a)).setPhase a (.returned (.ok response))
    | none => (s.respond owners).setPhase a next.phase

end State

inductive Action (E : Type) where
  | call (a : Uuid)
  | run (a : Uuid)
  | expire (a : Uuid)
  | answer (a : Uuid) (result : Except E ProduceResponse)

def Action.actor {E : Type} : Action E → Uuid
  | .call a | .run a | .expire a | .answer a _ => a

section Step

variable {E : Type} (service : BatchProduceService) (program : Uuid → ProduceRequest)

inductive Step (s : State E) : Action E → State E → Prop where
  | bypass {a : Uuid} (at_ : s.phase a = .idle) (apart : mergeable (program a) = false) :
    Step s (.call a) (s.setPhase a .bypassing)
  | bypassed {a : Uuid} {result : Except E ProduceResponse} (at_ : s.phase a = .bypassing) :
    Step s (.answer a result) (s.setPhase a (.returned result))
  | enqueue {a : Uuid} (at_ : s.phase a = .idle) (merges : mergeable (program a) = true) :
    Step s (.call a) ((s.setRequests (s.requests ++ [{ id := a, request := program a }])).setPhase a .head)
  | overflow {a : Uuid} (at_ : s.phase a = .head)
      (many : service.maxRecords (program a) ≤ (s.requests.map fun request => numberOfRecords request.request).sum) :
    Step s (.run a) (s.setPhase a (.flushing .waiting))
  | await {a : Uuid} (at_ : s.phase a = .head)
      (few : (s.requests.map fun request => numberOfRecords request.request).sum < service.maxRecords (program a)) :
    Step s (.run a) (s.setPhase a .waiting)
  | expire {a : Uuid} (at_ : s.phase a = .waiting) : Step s (.expire a) (s.setPhase a (.flushing .head))
  | takeNothing {a : Uuid} {next : Next} (at_ : s.phase a = .flushing next) (empty : s.requests = []) :
    Step s (.run a) (s.setPhase a next.phase)
  | take {a : Uuid} {next : Next} (at_ : s.phase a = .flushing next) (some : s.requests ≠ []) :
    Step s (.run a) ((s.setRequests []).setPhase a (.sending next s.requests))
  | settle {a : Uuid} {next : Next} {requests : List BatchRequest} {result : Except E ProduceResponse}
      (at_ : s.phase a = .sending next requests) :
    Step s (.answer a result) (s.settle a next (answers service.codec (fun _ => result) requests))
  | pollReady {a : Uuid} {response : ProduceResponse} (at_ : s.phase a = .waiting)
      (ready : s.responses a = some (.response response)) :
    Step s (.run a) ((s.setResponse a none).setPhase a (.returned (.ok response)))
  | pollPending {a : Uuid} (at_ : s.phase a = .waiting) (none : s.responses a = none) :
    Step s (.run a) (s.setResponse a (some .waker))
  | pollAgain {a : Uuid} (at_ : s.phase a = .waiting) (waker : s.responses a = some .waker) :
    Step s (.run a) (s.setResponse a none)

def machine : Machine (State E) (Action E) where
  init s := s = .start
  step := Step service program

end Step

/-! Which requests `send_pending_batch` answers. -/

section Answers

variable {codec : Codec} {requests : List BatchRequest} {id : Uuid}

/-- The proxy rejects a partition of the request, or the origin's response has one that the request lists. -/
def Answerable (codec : Codec) (requests : List BatchRequest) (response : ProduceResponse) (id : Uuid) : Prop :=
  (∃ key, id ∈ (combine codec (batchesOf requests key)).rejected) ∨
    ∃ key, Lists requests key id ∧ ∃ partition, Answers response key partition

theorem mem_split : id ∈ (owners codec requests).split response ↔ Answerable codec requests response id := by
  rw [Owner.split, ExtTreeMap.mem_map, Responses.mem_foldl_insert]
  simp only [ExtTreeMap.not_mem_empty, false_or]
  constructor
  · rintro ⟨_, listed, rfl⟩
    rcases mem_answers.mp listed with rejected | ⟨answers, owns⟩
    · rw [owners, Owner.rejections_foldl_reject] at rejected
      obtain ⟨_, found, _⟩ := mem_rejections.mp rejected
      exact .inl ⟨_, ExtTreeMap.mem_iff_isSome_getElem?.mpr (isSome_of_eq_some found)⟩
    · exact .inr ⟨_, (owns_owners.mp owns).1, _, answers⟩
  · have rejects : ∀ key, id ∈ (combine codec (batchesOf requests key)).rejected →
        ∃ answer ∈ (owners codec requests).answers response, answer.owner = id := by
      intro key rejected
      obtain ⟨reason, found⟩ := isSome_iff_exists.mp (ExtTreeMap.mem_iff_isSome_getElem?.mp rejected)
      refine ⟨{ owner := id, topic := key.1, partition := key.2,
                response := rejectedPartitionResponse key.2 reason.errorCode }, mem_answers.mpr (.inl ?_), rfl⟩
      rw [owners, Owner.rejections_foldl_reject]
      exact mem_append_right _ (mem_rejections.mpr ⟨reason, found, rfl⟩)
    rintro (⟨key, rejected⟩ | ⟨key, lists, partition, answers⟩)
    · exact rejects key rejected
    · by_cases rejected : id ∈ (combine codec (batchesOf requests key)).rejected
      · exact rejects key rejected
      · refine ⟨{ owner := id, topic := key.1, partition := key.2, response := partition }, ?_, rfl⟩
        exact mem_answers.mpr (.inr ⟨answers, owns_owners.mpr ⟨lists, rejected⟩⟩)

/-- Every request that was taken is answered exactly when there is a response, and each of them is answerable. -/
theorem answers_every_request {origin : ProduceRequest → Except E ProduceResponse} :
    (∃ owners, answers codec origin requests = .ok owners ∧ ∀ request ∈ requests, request.id ∈ owners) ↔
      ∃ response, originResponse codec origin requests = .ok response ∧
        ∀ request ∈ requests, Answerable codec requests response request.id := by
  constructor
  · rintro ⟨_, ok, each⟩
    obtain ⟨response, found, rfl⟩ := map_eq_ok_iff.mp ok
    exact ⟨response, found, fun request listed => mem_split.mp (each request listed)⟩
  · rintro ⟨response, found, each⟩
    refine ⟨_, map_eq_ok_iff.mpr ⟨response, found, rfl⟩, ?_⟩
    exact fun request listed => mem_split.mpr (each request listed)

end Answers

/-! No request is left without an answer. -/

section Run

variable {E : Type} {service : BatchProduceService} {program : Uuid → ProduceRequest} {s t : State E}
  {action : Action E} {a b : Uuid}

/-- The request of the call waits, is with a call that still sends it, or is answered. -/
def Accounted (s : State E) (b : Uuid) : Prop :=
  (∃ request ∈ s.requests, request.id = b) ∨ (∃ c, b ∈ (s.phase c).held) ∨
    ∃ response, s.responses b = some (.response response)

/-- The origin answers a call that sends requests, and each of them has a partition that the proxy rejects or that
the origin's response has. -/
def Complete (service : BatchProduceService) (s : State E) : Action E → Prop
  | .answer a result => ∀ next requests, s.phase a = .sending next requests →
    ∃ response, originResponse service.codec (fun _ => result) requests = .ok response ∧
      ∀ request ∈ requests, Answerable service.codec requests response request.id
  | _ => True

namespace Accounted

variable (accounted : Accounted s b)

include accounted

theorem setPhase (keeps : b ∈ (s.phase a).held → b ∈ phase.held) : Accounted (s.setPhase a phase) b := by
  rcases accounted with queued | ⟨c, has⟩ | answered
  · exact .inl queued
  · refine .inr (.inl ⟨c, ?_⟩)
    by_cases mine : c = a
    · subst mine
      rw [State.phase_setPhase_self]
      exact keeps has
    · rw [State.phase_setPhase_of_ne _ _ mine]
      exact has
  · exact .inr (.inr answered)

theorem setRequests (keeps : ∀ request ∈ s.requests, request ∈ requests) : Accounted (s.setRequests requests) b := by
  rcases accounted with ⟨request, queued, own⟩ | held | answered
  · exact .inl ⟨request, keeps request queued, own⟩
  · exact .inr (.inl held)
  · exact .inr (.inr answered)

theorem setResponse (open_ : a ≠ b ∨ ∀ response, s.responses a ≠ some (.response response)) :
    Accounted (s.setResponse a response) b := by
  rcases accounted with queued | held | ⟨old, answered⟩
  · exact .inl queued
  · exact .inr (.inl held)
  · refine .inr (.inr ⟨old, ?_⟩)
    by_cases mine : b = a
    · subst mine
      exact absurd answered (open_.resolve_left (not_not.mpr rfl) old)
    · rw [State.responses_setResponse_of_ne _ _ mine]
      exact answered

theorem respond {responses : ExtTreeMap Uuid ProduceResponse} : Accounted (s.respond responses) b := by
  rcases accounted with queued | held | ⟨old, answered⟩
  · exact .inl queued
  · exact .inr (.inl held)
  · refine .inr (.inr ?_)
    simp only [State.respond]
    cases responses[b]? with
    | some response => exact ⟨response, rfl⟩
    | none => exact ⟨old, answered⟩

theorem settle {next : Next} {requests : List BatchRequest} {owners : ExtTreeMap Uuid ProduceResponse}
    (at_ : s.phase a = .sending next requests) (each : ∀ request ∈ requests, request.id ∈ owners)
    (batched : ((s.settle a next (.ok owners)).phase b).batched = true) :
    Accounted (s.settle a next (.ok owners)) b := by
  have answered : b ∈ (s.phase a).held → ∃ response, owners[b]? = some response := by
    rw [at_]
    intro has
    obtain ⟨request, listed, rfl⟩ := mem_map.mp has
    exact isSome_iff_exists.mp (ExtTreeMap.mem_iff_isSome_getElem?.mp (each request listed))
  by_cases has : b ∈ (s.phase a).held
  · obtain ⟨response, found⟩ := answered has
    rw [State.settle] at batched ⊢
    split at batched
    next =>
      have other : b ≠ a := by
        rintro rfl
        rw [State.phase_setPhase_self] at batched
        cases batched
      have kept : (owners.erase a)[b]? = some response := by
        rw [ExtTreeMap.getElem?_erase, if_neg fun same => other (Std.LawfulEqCmp.eq_of_compare same).symm, found]
      exact .inr (.inr ⟨response, by simp only [State.setPhase, State.respond, kept]⟩)
    next => exact .inr (.inr ⟨response, by simp only [State.setPhase, State.respond, found]⟩)
  · rw [State.settle] at batched ⊢
    split at batched
    next =>
      have other : b ≠ a := by
        rintro rfl
        rw [State.phase_setPhase_self] at batched
        cases batched
      exact (accounted.setResponse (.inl other.symm)).respond.setPhase fun held => absurd held has
    next => exact accounted.respond.setPhase fun held => absurd held has

end Accounted

theorem Step.accounted (step : Step service program s action t) (complete : Complete service s action)
    (accounted : Accounted s b) (batched : (t.phase b).batched = true) : Accounted t b := by
  cases step with
  | bypass at_ | bypassed at_ | overflow at_ | await at_ | expire at_ | takeNothing at_ =>
    exact accounted.setPhase fun held => by rw [at_] at held; cases held
  | @enqueue a at_ merges =>
    refine (accounted.setRequests fun request => mem_append_left _).setPhase fun held => ?_
    rw [State.setRequests, at_] at held
    cases held
  | @take a next at_ some =>
    rcases accounted with ⟨_, queued, rfl⟩ | ⟨c, has⟩ | ⟨response, answered⟩
    · refine .inr (.inl ⟨a, ?_⟩)
      rw [State.phase_setPhase_self]
      exact mem_map_of_mem queued
    · have other : c ≠ a := by
        rintro rfl
        rw [at_] at has
        cases has
      refine .inr (.inl ⟨c, ?_⟩)
      rw [State.phase_setPhase_of_ne _ _ other]
      exact has
    · exact .inr (.inr ⟨response, answered⟩)
  | @settle a next requests result at_ =>
    obtain ⟨_, ok, each⟩ := answers_every_request.mpr (complete next requests at_)
    rw [ok] at batched ⊢
    exact accounted.settle at_ each batched
  | @pollReady a response at_ ready =>
    have other : a ≠ b := by
      rintro rfl
      rw [State.phase_setPhase_self] at batched
      cases batched
    refine (accounted.setResponse (.inl other)).setPhase fun held => ?_
    rw [State.setResponse, at_] at held
    cases held
  | pollPending _ none => exact accounted.setResponse (.inr fun response => by rw [none]; nofun)
  | pollAgain _ waker => exact accounted.setResponse (.inr fun response => by rw [waker]; nofun)

theorem State.phase_settle_of_ne (s : State E) (next : Next) (owners : Except E (ExtTreeMap Uuid ProduceResponse))
    (other : b ≠ a) : (s.settle a next owners).phase b = s.phase b := by
  cases owners with
  | error => exact s.phase_setPhase_of_ne _ other
  | ok =>
    rw [State.settle]
    split <;> exact State.phase_setPhase_of_ne _ _ other

theorem Step.others (step : Step service program s action t) (other : b ≠ action.actor) : t.phase b = s.phase b := by
  cases step with
  | settle => exact s.phase_settle_of_ne _ _ other
  | pollPending | pollAgain => rfl
  | bypass | bypassed | enqueue | overflow | await | expire | takeNothing | take | pollReady =>
    exact update_of_ne other _ _

theorem Step.accounted_of_unbatched (step : Step service program s action t) (before : (s.phase b).batched = false)
    (batched : (t.phase b).batched = true) : Accounted t b := by
  have actor : b = action.actor := by
    by_contra other
    rw [step.others other, before] at batched
    cases batched
  subst actor
  cases step with
  | @enqueue a at_ merges =>
    exact .inl ⟨{ id := a, request := program a }, mem_append_right _ mem_cons_self, rfl⟩
  | bypass at_ | bypassed at_ =>
    rw [Action.actor, State.phase_setPhase_self] at batched
    cases batched
  | overflow at_ | await at_ | expire at_ | takeNothing at_ | take at_ | settle at_ | pollReady at_ | pollPending at_
  | pollAgain at_ =>
    rw [Action.actor, at_] at before
    cases before

/-- As long as the origin answers, and each request that it is sent has a partition that the proxy rejects or that
the origin's response has, no request is left without an answer. -/
theorem every_request_is_answered (reached : (machine service program).ReachableWhile (Complete service) s)
    (b : Uuid) (batched : (s.phase b).batched = true) : Accounted s b := by
  revert b
  refine Machine.ReachableWhile.invariant
    (P := fun s : State E => ∀ b, (s.phase b).batched = true → Accounted s b) ?_ ?_ reached
  · rintro _ rfl _ batched
    cases batched
  · intro s action t accounted complete step b batched
    cases before : (s.phase b).batched with
    | true => exact step.accounted complete (accounted b before) batched
    | false => exact step.accounted_of_unbatched before batched

end Run

open Storage.ProduceService (plainCodec)

/-! Two calls for one partition, and an origin that fails. -/

def smallService : BatchProduceService where
  codec := plainCodec
  batchMaxRecords _ := some 2

def ordersProgram (a : Uuid) : ProduceRequest :=
  (oneRecord a).request

def firstSends : State Unit :=
  ((((((State.start.setRequests [oneRecord 1]).setPhase 1 .head).setRequests [oneRecord 1, oneRecord 2]).setPhase 2
    .head).setPhase 1 (.flushing .waiting)).setRequests []).setPhase 1 (.sending .waiting [oneRecord 1, oneRecord 2])

theorem firstSends_reachable :
    (machine smallService ordersProgram).ReachableWhile (Complete smallService) firstSends := by
  have start : (machine smallService ordersProgram).ReachableWhile (Complete smallService) (.start : State Unit) :=
    .init rfl
  have first := start.next (.enqueue (a := 1) rfl (by decide +kernel)) trivial
  have second := first.next (.enqueue (a := 2) rfl (by decide +kernel)) trivial
  have full := second.next (.overflow (a := 1) rfl (by decide +kernel)) trivial
  exact full.next (.take rfl nofun) trivial

theorem complete_storedAt : Complete smallService firstSends (.answer 1 (.ok (storedAt 100))) := by
  intro next requests at_
  cases at_
  refine ⟨storedAt 100, by decide +kernel, ?_⟩
  have lists : ∀ request ∈ [oneRecord 1, oneRecord 2], Lists [oneRecord 1, oneRecord 2] ("orders", 3) request.id := by
    unfold Lists
    decide +kernel
  intro request listed
  exact .inr ⟨("orders", 3), lists request listed, _, mem_singleton_self _, rfl⟩

/-- The origin stores the batch of both calls: the second call has its answer. -/
theorem every_request_is_answered_second :
    ∃ s : State Unit, (machine smallService ordersProgram).ReachableWhile (Complete smallService) s ∧
      s.phase 2 = .head ∧ Accounted s 2 := by
  have settled := firstSends_reachable.next (.settle rfl) complete_storedAt
  have at_ : (firstSends.settle 1 .waiting (answers plainCodec (fun _ => .ok (storedAt 100))
      [oneRecord 1, oneRecord 2])).phase 2 = .head := firstSends.phase_settle_of_ne _ _ (by decide)
  exact ⟨_, settled, at_, every_request_is_answered settled 2 (congrArg Phase.batched at_)⟩

/-- The origin fails: both calls wait on, and their requests are nowhere. -/
theorem failed_origin_loses_requests : ∃ s : State Unit, (machine smallService ordersProgram).Reachable s ∧
      ((s.phase 1).batched = true ∧ ¬Accounted s 1) ∧ (s.phase 2).batched = true ∧ ¬Accounted s 2 := by
  have forwarded : ((produceRequest plainCodec [oneRecord 1, oneRecord 2]).1.topicData.getD []).isEmpty = false := by
    decide +kernel
  have none : answers plainCodec (fun _ => .error ()) [oneRecord 1, oneRecord 2] = .error () := by
    simp only [answers, originResponse, forwarded]
    rfl
  have failed : (machine smallService ordersProgram).Reachable (firstSends.setPhase 1 .waiting) := by
    have settles : Step smallService ordersProgram firstSends (.answer 1 (.error ()))
        (firstSends.settle 1 .waiting (answers plainCodec (fun _ => .error ()) [oneRecord 1, oneRecord 2])) :=
      .settle rfl
    rw [none] at settles
    exact firstSends_reachable.reachable.step settles
  have lost : ∀ b, ¬Accounted (firstSends.setPhase 1 .waiting) b := by
    rintro _ (⟨_, queued, _⟩ | ⟨c, has⟩ | ⟨_, answered⟩)
    · cases queued
    · by_cases first : c = 1
      · subst first
        cases has
      · by_cases second : c = 2
        · subst second
          cases has
        · simp [firstSends, State.setPhase, State.setRequests, State.start, first, second, Phase.held] at has
    · cases answered
  exact ⟨_, failed, ⟨rfl, lost 1⟩, rfl, lost 2⟩

end Nisshi.Proxy
