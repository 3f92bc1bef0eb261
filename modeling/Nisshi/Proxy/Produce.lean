import Nisshi.Lib.NestedMap
import Nisshi.Proxy.Combine

/-! The proxy's `Produce`: the requests that wait become one request to the origin, and its response is split
into one response for each of them. -/

namespace Nisshi.Proxy

open Nisshi.SansIo Nisshi.Lib
open Std (ExtTreeMap ExtTreeSet)

structure BatchRequest where
  id : Uuid
  request : ProduceRequest
  deriving DecidableEq

structure Entry where
  owner : Uuid
  topic : String
  data : PartitionProduceData
  deriving DecidableEq

def Entry.key (entry : Entry) : String × Int32 :=
  (entry.topic, entry.data.index)

def entries (requests : List BatchRequest) : List Entry :=
  requests.flatMap fun request =>
    (request.request.topicData.getD []).flatMap fun topic =>
      (topic.partitionData.getD []).map fun data => { owner := request.id, topic := topic.name, data }

/-- A response for a partition of one request. The proxy makes one when it answers the partition itself. -/
structure Rejection where
  owner : Uuid
  topic : String
  partition : Int32
  response : PartitionProduceResponse
  deriving DecidableEq

def Rejection.key (rejection : Rejection) : String × Int32 :=
  (rejection.topic, rejection.partition)

abbrev Responses := ExtTreeMap Uuid (ExtTreeMap String (ExtTreeMap Int32 PartitionProduceResponse))

namespace Responses

def insert (responses : Responses) (answer : Rejection) : Responses :=
  responses.alter answer.owner fun topics =>
    some (NestedMap.upsert (topics.getD ∅) answer.key fun _ => answer.response)

def find (responses : Responses) (owner : Uuid) (key : String × Int32) : Option PartitionProduceResponse :=
  responses[owner]?.bind fun topics => NestedMap.find topics key

def topicResponses (topics : ExtTreeMap String (ExtTreeMap Int32 PartitionProduceResponse)) :
    List TopicProduceResponse :=
  topics.toList.map fun (name, partitions) =>
    { name, partitionResponses := some (partitions.toList.map Prod.snd) }

end Responses

structure Owner where
  topition : ExtTreeMap String (ExtTreeMap Int32 (ExtTreeSet Uuid))
  rejections : List Rejection

namespace Owner

def add (topition : ExtTreeMap String (ExtTreeMap Int32 (ExtTreeSet Uuid))) (entry : Entry) :
    ExtTreeMap String (ExtTreeMap Int32 (ExtTreeSet Uuid)) :=
  NestedMap.upsert topition entry.key fun owners => (owners.getD ∅).insert entry.owner

def «from» (requests : List BatchRequest) : Owner where
  topition := (entries requests).foldl add ∅
  rejections := []

def reject (owner : Owner) (rejection : Rejection) : Owner where
  topition := NestedMap.modify owner.topition rejection.key fun owners => owners.erase rejection.owner
  rejections := owner.rejections ++ [rejection]

def answered (response : ProduceResponse) : List (String × PartitionProduceResponse) :=
  (response.responses.getD []).flatMap fun topic =>
    (topic.partitionResponses.getD []).map fun partition => (topic.name, partition)

/-- The responses for partitions in the order in which `split` inserts them: those of the proxy, and each
partition of the origin's response once for every owner. -/
def answers (owner : Owner) (produceResponse : ProduceResponse) : List Rejection :=
  owner.rejections ++ (answered produceResponse).flatMap fun (topic, partition) =>
    ((NestedMap.find owner.topition (topic, partition.index)).getD ∅).toList.map fun id =>
      { owner := id, topic, partition := partition.index, response := partition }

def split (owner : Owner) (produceResponse : ProduceResponse) : ExtTreeMap Uuid ProduceResponse :=
  ((owner.answers produceResponse).foldl Responses.insert ∅).map fun _ topics =>
    { responses := some (Responses.topicResponses topics), throttleTimeMs := produceResponse.throttleTimeMs }

end Owner

def rejectedPartitionResponse (index : Int32) (errorCode : ErrorCode) : PartitionProduceResponse where
  index
  errorCode
  baseOffset := -1
  logAppendTimeMs := some (-1)
  logStartOffset := some (-1)
  recordErrors := some []
  errorMessage := none

abbrev TopicPartitionBatch := ExtTreeMap String (ExtTreeMap Int32 (List OwnedBatch))

namespace TopicPartitionBatch

def add (run : TopicPartitionBatch) (entry : Entry) : TopicPartitionBatch :=
  match entry.data.records with
  | some records =>
    NestedMap.upsert run entry.key fun batches =>
      batches.getD [] ++ records.map fun batch => { owner := entry.owner, batch }
  | none => run

def partitionData (codec : Codec) (partitions : ExtTreeMap Int32 (List OwnedBatch)) : List PartitionProduceData :=
  partitions.toList.filterMap fun (index, batches) =>
    let combined := combine codec batches
    if combined.forwarded.isEmpty then none else some { index, records := some combined.forwarded }

def topicData (codec : Codec) (topics : TopicPartitionBatch) : List TopicProduceData :=
  topics.toList.filterMap fun (name, partitions) =>
    let partitionData := partitionData codec partitions
    if partitionData.isEmpty then none else some { name, partitionData := some partitionData }

def rejections (codec : Codec) (topics : TopicPartitionBatch) : List Rejection :=
  topics.toList.flatMap fun (name, partitions) =>
    partitions.toList.flatMap fun (index, batches) =>
      (combine codec batches).rejected.toList.map fun (owner, rejection) =>
        { owner, topic := name, partition := index
          response := rejectedPartitionResponse index rejection.errorCode }

def intoTopicData (codec : Codec) (topics : TopicPartitionBatch) : List TopicProduceData × List Rejection :=
  (topicData codec topics, rejections codec topics)

end TopicPartitionBatch

def batchAcks (requests : List BatchRequest) : Ack :=
  if requests.any fun request => request.request.acks == Ack.fullIsr.toI16 then .fullIsr else .leader

def produceRequest (codec : Codec) (requests : List BatchRequest) : ProduceRequest × List Rejection :=
  let run := (entries requests).foldl TopicPartitionBatch.add ∅
  let (topicData, rejections) := run.intoTopicData codec
  ({ transactionalId := none
     acks := (batchAcks requests).toI16
     timeoutMs := 5000
     topicData := some topicData }, rejections)

def owners (codec : Codec) (requests : List BatchRequest) : Owner :=
  (produceRequest codec requests).2.foldl Owner.reject (Owner.from requests)

/-- What `send_pending_batch` has for a response: the origin is not asked when no partition is forwarded. -/
def originResponse {E : Type} (codec : Codec) (origin : ProduceRequest → Except E ProduceResponse)
    (requests : List BatchRequest) : Except E ProduceResponse :=
  let (produceRequest, _) := produceRequest codec requests
  if (produceRequest.topicData.getD []).isEmpty then .ok { responses := some [], throttleTimeMs := some 0 }
  else origin produceRequest

/-- The answers of `send_pending_batch` to the requests that it took. -/
def answers {E : Type} (codec : Codec) (origin : ProduceRequest → Except E ProduceResponse)
    (requests : List BatchRequest) : Except E (ExtTreeMap Uuid ProduceResponse) :=
  (originResponse codec origin requests).map (owners codec requests).split

variable {codec : Codec} {requests : List BatchRequest} {key : String × Int32} {id : Uuid}

/-! Who owns a partition. -/

def Lists (requests : List BatchRequest) (key : String × Int32) (id : Uuid) : Prop :=
  ∃ entry ∈ entries requests, entry.key = key ∧ entry.owner = id

def Owner.Owns (owner : Owner) (key : String × Int32) (id : Uuid) : Prop :=
  id ∈ (NestedMap.find owner.topition key).getD ∅

theorem Owner.mem_foldl_add {listed : List Entry} {topition : ExtTreeMap String (ExtTreeMap Int32 (ExtTreeSet Uuid))} :
    id ∈ (NestedMap.find (listed.foldl add topition) key).getD ∅ ↔
      id ∈ (NestedMap.find topition key).getD ∅ ∨ ∃ entry ∈ listed, entry.key = key ∧ entry.owner = id := by
  induction listed generalizing topition with
  | nil => simp
  | cons entry _ ih =>
    rw [List.foldl_cons, ih, List.exists_mem_cons_iff, ← or_assoc, add]
    apply or_congr_left
    by_cases here : entry.key = key
    · subst here
      rw [NestedMap.find_upsert_self, Option.getD_some, ExtTreeSet.mem_insert, Std.compare_eq_iff_eq, or_comm]
      simp only [true_and]
    · rw [NestedMap.find_upsert_of_ne _ _ fun same => here same.symm]
      simp only [here, false_and, or_false]

theorem Owner.owns_from : (Owner.from requests).Owns key id ↔ Lists requests key id := by
  rw [Owns, Owner.from, mem_foldl_add, NestedMap.find_empty, Option.getD_none]
  simp only [ExtTreeSet.not_mem_empty, false_or, Lists]

variable {owner : Owner} {partition : PartitionProduceResponse} {response : ProduceResponse}

theorem Owner.owns_reject :
    (owner.reject rejection).Owns key id ↔ owner.Owns key id ∧ ¬(rejection.key = key ∧ rejection.owner = id) := by
  rw [Owns, Owns, reject, NestedMap.find_modify]
  by_cases here : key = rejection.key
  · subst here
    cases NestedMap.find owner.topition rejection.key <;> simp [ExtTreeSet.mem_erase, and_comm]
  · have apart : rejection.key ≠ key := fun same => here same.symm
    simp [here, apart]

theorem Owner.owns_foldl_reject {rejections : List Rejection} : (rejections.foldl reject owner).Owns key id ↔
      owner.Owns key id ∧ ¬∃ rejection ∈ rejections, rejection.key = key ∧ rejection.owner = id := by
  induction rejections generalizing owner with
  | nil => simp
  | cons _ _ ih =>
    rw [List.foldl_cons, ih, owns_reject, List.exists_mem_cons_iff, not_or, and_assoc]

theorem Owner.rejections_foldl_reject (owner : Owner) (rejections : List Rejection) :
    (rejections.foldl reject owner).rejections = owner.rejections ++ rejections := by
  induction rejections generalizing owner with
  | nil => simp
  | cons _ _ ih => rw [List.foldl_cons, ih, reject, List.append_assoc, List.singleton_append]

/-! The batches of a partition. -/

def batchesOf (requests : List BatchRequest) (key : String × Int32) : List OwnedBatch :=
  ((entries requests).filter fun entry => entry.key = key).flatMap fun entry =>
    (entry.data.records.getD []).map fun batch => { owner := entry.owner, batch }

namespace TopicPartitionBatch

theorem find_foldl_add {listed : List Entry} {run : TopicPartitionBatch} :
    (NestedMap.find (listed.foldl add run) key).getD [] =
      (NestedMap.find run key).getD [] ++ (listed.filter fun entry => entry.key = key).flatMap fun entry =>
        (entry.data.records.getD []).map fun batch => { owner := entry.owner, batch } := by
  induction listed generalizing run with
  | nil => simp
  | cons entry _ ih =>
    rw [List.foldl_cons, ih, add]
    by_cases here : entry.key = key
    · subst here
      cases given : entry.data.records with
      | none | some => simp [given]
    · have apart : key ≠ entry.key := fun same => here same.symm
      cases entry.data.records with
      | none => simp [here]
      | some => simp [here, NestedMap.find_upsert_of_ne _ _ apart]

end TopicPartitionBatch

theorem find_run (requests : List BatchRequest) (key : String × Int32) :
    (NestedMap.find ((entries requests).foldl TopicPartitionBatch.add ∅) key).getD [] = batchesOf requests key := by
  rw [TopicPartitionBatch.find_foldl_add]
  rfl

theorem combine_nil (codec : Codec) : combine codec [] = { forwarded := [], rejected := ∅ } := rfl

theorem mem_rejections : rejection ∈ (produceRequest codec requests).2 ↔
      ∃ reason, (combine codec (batchesOf requests rejection.key)).rejected[rejection.owner]? = some reason ∧
        rejection.response = rejectedPartitionResponse rejection.partition reason.errorCode := by
  have found := find_run requests rejection.key
  rw [Rejection.key] at found ⊢
  simp only [produceRequest, TopicPartitionBatch.intoTopicData, TopicPartitionBatch.rejections, List.mem_flatMap,
    List.mem_map, Prod.exists]
  generalize (entries requests).foldl TopicPartitionBatch.add ∅ = run at found ⊢
  constructor
  · rintro ⟨_, partitions, outer, _, _, inner, _, reason, listed, rfl⟩
    have here := NestedMap.mem_toList_iff_find.mpr ⟨partitions, outer, inner⟩
    simp only [here, Option.getD_some] at found
    rw [← found]
    exact ⟨reason, ExtTreeMap.mem_toList_iff_getElem?_eq_some.mp listed, rfl⟩
  · rintro ⟨reason, rejected, answered⟩
    cases here : NestedMap.find run (rejection.topic, rejection.partition) with
    | none =>
      rw [here] at found
      rw [← found, Option.getD_none, combine_nil] at rejected
      cases rejected
    | some batches =>
      obtain ⟨partitions, outer, inner⟩ := NestedMap.mem_toList_iff_find.mp here
      rw [here] at found
      rw [← found] at rejected
      refine ⟨_, partitions, outer, _, batches, inner, rejection.owner, reason, ?_, ?_⟩
      · exact ExtTreeMap.mem_toList_iff_getElem?_eq_some.mpr rejected
      · rw [← answered]

theorem owns_owners : (owners codec requests).Owns key id ↔
    Lists requests key id ∧ id ∉ (combine codec (batchesOf requests key)).rejected := by
  rw [owners, Owner.owns_foldl_reject, Owner.owns_from]
  apply and_congr_right'
  apply not_congr
  constructor
  · rintro ⟨_, listed, rfl, rfl⟩
    obtain ⟨_, rejected, _⟩ := mem_rejections.mp listed
    exact ExtTreeMap.mem_iff_isSome_getElem?.mpr (Option.isSome_of_eq_some rejected)
  · intro rejected
    obtain ⟨reason, found⟩ := Option.isSome_iff_exists.mp (ExtTreeMap.mem_iff_isSome_getElem?.mp rejected)
    refine ⟨{ owner := id, topic := key.1, partition := key.2,
              response := rejectedPartitionResponse key.2 reason.errorCode }, ?_, rfl, rfl⟩
    exact mem_rejections.mpr ⟨reason, found, rfl⟩

/-! What an owner is answered. -/

namespace Responses

variable {responses : Responses} {answers : List Rejection}

theorem find_insert (responses : Responses) (answer : Rejection) (owner : Uuid) (key : String × Int32) :
    (responses.insert answer).find owner key =
      if answer.owner = owner ∧ answer.key = key then some answer.response else responses.find owner key := by
  rw [find, find, insert, ExtTreeMap.getElem?_alter]
  simp only [Std.compare_eq_iff_eq]
  by_cases own : answer.owner = owner
  · subst own
    rw [if_pos rfl, Option.bind_some]
    by_cases here : answer.key = key
    · subst here
      rw [NestedMap.find_upsert_self, if_pos ⟨rfl, rfl⟩]
    · rw [NestedMap.find_upsert_of_ne _ _ fun same => here same.symm, if_neg fun both => here both.2]
      cases responses[answer.owner]? <;> simp
  · rw [if_neg own, if_neg fun both => own both.1]

variable {owner : Uuid}

theorem of_find_foldl {response : PartitionProduceResponse}
    (found : (answers.foldl insert responses).find owner key = some response) :
    responses.find owner key = some response ∨
      ∃ answer ∈ answers, answer.owner = owner ∧ answer.key = key ∧ answer.response = response := by
  induction answers generalizing responses with
  | nil => exact .inl found
  | cons answer _ ih =>
    rcases ih found with before | ⟨other, listed, same⟩
    · rw [find_insert] at before
      split at before
      next own => exact .inr ⟨answer, List.mem_cons_self, own.1, own.2, Option.some.inj before⟩
      next => exact .inl before
    · exact .inr ⟨other, List.mem_cons_of_mem _ listed, same⟩

theorem isSome_find_foldl :
    ((answers.foldl insert responses).find owner key).isSome = true ↔ (responses.find owner key).isSome = true ∨
      ∃ answer ∈ answers, answer.owner = owner ∧ answer.key = key := by
  induction answers generalizing responses with
  | nil => simp
  | cons _ _ ih =>
    rw [List.foldl_cons, ih, find_insert, List.exists_mem_cons_iff]
    split
    next own => simp [own]
    next other => simp [other]

theorem mem_foldl_insert :
    owner ∈ answers.foldl insert responses ↔ owner ∈ responses ∨ ∃ answer ∈ answers, answer.owner = owner := by
  induction answers generalizing responses with
  | nil => simp
  | cons answer _ ih =>
    rw [List.foldl_cons, ih, List.exists_mem_cons_iff]
    rw [insert, ExtTreeMap.mem_alter]
    by_cases own : answer.owner = owner <;> simp [own]

end Responses

def Answers (response : ProduceResponse) (key : String × Int32) (partition : PartitionProduceResponse) : Prop :=
  (key.1, partition) ∈ Owner.answered response ∧ partition.index = key.2

theorem answers_topicResponses {topics : ExtTreeMap String (ExtTreeMap Int32 PartitionProduceResponse)}
    (indexed : ∀ key (response : PartitionProduceResponse), NestedMap.find topics key = some response →
      response.index = key.2) :
    Answers { responses := some (Responses.topicResponses topics), throttleTimeMs } key partition ↔
      NestedMap.find topics key = some partition := by
  obtain ⟨topic, _⟩ := key
  simp only [Answers, Owner.answered, Responses.topicResponses, Option.getD_some, List.mem_flatMap, List.mem_map,
    Prod.exists, Prod.mk.injEq]
  constructor
  · rintro ⟨⟨_, ⟨_, partitions, outer, rfl⟩, _, inner, rfl, rfl⟩, rfl⟩
    simp only [Option.getD_some, List.mem_map, Prod.exists] at inner
    obtain ⟨_, _, inner, rfl⟩ := inner
    have here := NestedMap.mem_toList_iff_find.mpr ⟨partitions, outer, inner⟩
    rw [indexed _ _ here]
    exact here
  · intro found
    obtain ⟨partitions, outer, inner⟩ := NestedMap.mem_toList_iff_find.mp found
    refine ⟨⟨_, ⟨topic, partitions, outer, rfl⟩, partition, ?_, rfl, rfl⟩, indexed _ _ found⟩
    exact List.mem_map.mpr ⟨_, inner, rfl⟩

theorem mem_answers : answer ∈ owner.answers response ↔ answer ∈ owner.rejections ∨
      Answers response answer.key answer.response ∧ owner.Owns answer.key answer.owner := by
  rw [Owner.answers, List.mem_append, List.mem_flatMap]
  apply or_congr_right
  constructor
  · rintro ⟨⟨_, _⟩, listed, member⟩
    obtain ⟨_, owns, rfl⟩ := List.mem_map.mp member
    exact ⟨⟨listed, rfl⟩, ExtTreeSet.mem_toList.mp owns⟩
  · rintro ⟨⟨listed, index⟩, owns⟩
    refine ⟨_, listed, List.mem_map.mpr ⟨answer.owner, ?_, ?_⟩⟩
    · rw [ExtTreeSet.mem_toList, index]
      exact owns
    · rw [index]
      rfl

theorem index_of_mem_answers (listed : answer ∈ (owners codec requests).answers response) :
    answer.response.index = answer.partition := by
  rcases mem_answers.mp listed with rejected | ⟨answers, _⟩
  · rw [owners, Owner.rejections_foldl_reject] at rejected
    obtain ⟨_, _, same⟩ := mem_rejections.mp rejected
    rw [same]
    rfl
  · exact answers.2

def Receives (codec : Codec) (requests : List BatchRequest) (response : ProduceResponse) (id : Uuid)
    (key : String × Int32) (partition : PartitionProduceResponse) : Prop :=
  ∃ own, ((owners codec requests).split response)[id]? = some own ∧ Answers own key partition

theorem receives_iff : Receives codec requests response id key partition ↔
      (((owners codec requests).answers response).foldl Responses.insert ∅).find id key = some partition := by
  have indexed : ∀ id key response',
      (((owners codec requests).answers response).foldl Responses.insert ∅).find id key = some response' →
        response'.index = key.2 := by
    intro id key response' found
    rcases Responses.of_find_foldl found with before | ⟨_, listed, _, rfl, rfl⟩
    · cases before
    · exact index_of_mem_answers listed
  rw [Receives, Owner.split]
  simp only [ExtTreeMap.getElem?_map, Option.map_eq_some_iff, Responses.find, Option.bind_eq_some_iff]
  constructor
  · rintro ⟨_, ⟨topics, found, rfl⟩, answers⟩
    refine ⟨topics, found, (answers_topicResponses fun key response here => ?_).mp answers⟩
    exact indexed id key response (Option.bind_eq_some_iff.mpr ⟨topics, found, here⟩)
  · rintro ⟨topics, found, here⟩
    refine ⟨_, ⟨topics, found, rfl⟩, (answers_topicResponses fun key response here => ?_).mpr here⟩
    exact indexed id key response (Option.bind_eq_some_iff.mpr ⟨topics, found, here⟩)

theorem receives_of_owns (owns : (owners codec requests).Owns key id) :
    (∀ partition, Receives codec requests response id key partition → Answers response key partition) ∧
    ((∃ partition, Answers response key partition) →
      ∃ partition, Receives codec requests response id key partition) := by
  have free : ∀ answer ∈ (owners codec requests).rejections, ¬(answer.owner = id ∧ answer.key = key) := by
    rintro _ listed ⟨rfl, rfl⟩
    rw [owners, Owner.rejections_foldl_reject] at listed
    obtain ⟨_, rejected, _⟩ := mem_rejections.mp listed
    apply (owns_owners.mp owns).2
    exact ExtTreeMap.mem_iff_isSome_getElem?.mpr (Option.isSome_of_eq_some rejected)
  constructor
  · intro partition receives
    rcases Responses.of_find_foldl (receives_iff.mp receives) with before | ⟨answer, listed, rfl, rfl, rfl⟩
    · cases before
    · rcases mem_answers.mp listed with rejected | ⟨answers, _⟩
      · exact absurd ⟨rfl, rfl⟩ (free answer rejected)
      · exact answers
  · rintro ⟨partition, answers⟩
    have some : ((((owners codec requests).answers response).foldl Responses.insert ∅).find id key).isSome = true := by
      refine Responses.isSome_find_foldl.mpr (.inr ⟨⟨id, key.1, key.2, partition⟩, ?_, rfl, rfl⟩)
      exact mem_answers.mpr (.inr ⟨answers, owns⟩)
    obtain ⟨found, here⟩ := Option.isSome_iff_exists.mp some
    exact ⟨found, receives_iff.mpr here⟩

theorem receives_of_rejected (rejected : (combine codec (batchesOf requests key)).rejected[id]? = some reason) :
    Receives codec requests response id key partition ↔
      partition = rejectedPartitionResponse key.2 reason.errorCode := by
  have mine : ∀ answer ∈ (owners codec requests).answers response, answer.owner = id → answer.key = key →
      answer.response = rejectedPartitionResponse key.2 reason.errorCode := by
    rintro _ listed rfl rfl
    rcases mem_answers.mp listed with given | ⟨_, owns⟩
    · rw [owners, Owner.rejections_foldl_reject] at given
      obtain ⟨_, found, same⟩ := mem_rejections.mp given
      rw [rejected] at found
      cases found
      exact same
    · exact absurd (ExtTreeMap.mem_iff_isSome_getElem?.mpr (Option.isSome_of_eq_some rejected)) (owns_owners.mp owns).2
  have only : ∀ found, (((owners codec requests).answers response).foldl Responses.insert ∅).find id key = some found →
      found = rejectedPartitionResponse key.2 reason.errorCode := by
    intro found here
    rcases Responses.of_find_foldl here with before | ⟨answer, listed, own, at_, rfl⟩
    · cases before
    · exact mine answer listed own at_
  rw [receives_iff]
  constructor
  · exact only partition
  · rintro rfl
    have some : ((((owners codec requests).answers response).foldl Responses.insert ∅).find id key).isSome = true := by
      refine Responses.isSome_find_foldl.mpr (.inr
        ⟨⟨id, key.1, key.2, rejectedPartitionResponse key.2 reason.errorCode⟩, mem_answers.mpr (.inl ?_), rfl, rfl⟩)
      rw [owners, Owner.rejections_foldl_reject]
      exact List.mem_append_right _ (mem_rejections.mpr ⟨reason, rejected, rfl⟩)
    obtain ⟨found, here⟩ := Option.isSome_iff_exists.mp some
    rw [here, only found here]

/-! The offset that a merged owner is answered. -/

def recordsOf (owners : List OwnerBatch) : Nat :=
  (owners.map fun own => own.asSent.recordCount.toNat).sum

theorem extent_decoded {owners : List OwnerBatch} (sent : ∀ own ∈ owners, decode codec own.asSent = .ok own.decoded) :
    Inflated.Batch.extent (owners.map (·.decoded)) = recordsOf owners := by
  induction owners with
  | nil => rfl
  | cons _ _ ih =>
    obtain ⟨here, there⟩ := List.forall_mem_cons.mp sent
    have offsets := (decodes_of_decode here).offsets
    have following := ih there
    rw [Inflated.Batch.extent] at following
    rw [Inflated.Batch.extent, List.map_cons, List.map_cons, List.sum_cons, following, offsets, recordsOf, recordsOf,
      List.map_cons, List.sum_cons, Nat.cast_add]

theorem lists_of_mem_batchesOf (member : owned ∈ batchesOf requests key) : Lists requests key owned.owner := by
  obtain ⟨entry, listed, member⟩ := List.mem_flatMap.mp member
  obtain ⟨listed, here⟩ := List.mem_filter.mp listed
  obtain ⟨_, _, rfl⟩ := List.mem_map.mp member
  exact ⟨entry, listed, of_decide_eq_true here, rfl⟩

/-- The owner of a merged batch is answered the offset of its first record exactly when the owners before it sent
no records. -/
theorem merged_owner_is_answered_its_offset {before after : List OwnerBatch} {own : OwnerBatch}
    (mixed : sameOwner (batchesOf requests key) = false)
    (joins : joined codec (batchesOf requests key) = before ++ own :: after)
    (forwarded : (combine codec (batchesOf requests key)).forwarded ≠ [])
    {response : ProduceResponse} {baseOffset : Int64} (reported : ∃ partition, Answers response key partition)
    (success : ∀ partition, Answers response key partition →
      partition.errorCode = .none ∧ partition.baseOffset = baseOffset) :
    (∃ partition, Receives codec requests response own.owner key partition ∧
        partition.baseOffset.toInt = baseOffset.toInt + recordsOf before) ↔ recordsOf before = 0 := by
  have accounts := accounts_combine codec mixed
  have listed : own ∈ joined codec (batchesOf requests key) := by
    rw [joins]
    exact List.mem_append_right _ List.mem_cons_self
  have owns : (owners codec requests).Owns key own.owner :=
    owns_owners.mpr ⟨lists_of_mem_batchesOf (accounts.sent own listed).1, accounts.apart forwarded own listed⟩
  obtain ⟨given, some⟩ : (∀ partition, Receives codec requests response own.owner key partition →
      Answers response key partition) ∧ _ := receives_of_owns owns
  constructor
  · rintro ⟨partition, receives, carries⟩
    rw [(success partition (given partition receives)).2] at carries
    omega
  · intro none
    obtain ⟨partition, receives⟩ := some reported
    refine ⟨partition, receives, ?_⟩
    rw [(success partition (given partition receives)).2, none]
    exact (Int.add_zero _).symm

open Storage.ProduceService (plainCodec emptyRecord)

def oneRecord (id : Uuid) : BatchRequest where
  id
  request :=
    { transactionalId := none
      acks := 1
      timeoutMs := 500
      topicData := some [{ name := "orders", partitionData := some [{ index := 3, records := some [emptyRecord] }] }] }

def storedAt (baseOffset : Int64) : ProduceResponse where
  responses := some
    [{ name := "orders"
       partitionResponses := some
        [{ index := 3, errorCode := .none, baseOffset, logAppendTimeMs := some (-1), logStartOffset := some 0
           recordErrors := some [], errorMessage := none }] }]
  throttleTimeMs := some 0

theorem answers_storedAt (answers : Answers (storedAt baseOffset) ("orders", 3) partition) :
    partition.errorCode = .none ∧ partition.baseOffset = baseOffset := by
  obtain ⟨listed, _⟩ := answers
  obtain rfl := (Prod.mk.inj (List.mem_singleton.mp listed)).2
  exact ⟨rfl, rfl⟩

def oneRecordOf (owner : Uuid) : OwnerBatch where
  owner
  asSent := emptyRecord
  decoded :=
    { baseOffset := 0, partitionLeaderEpoch := -1, magic := 2, attributes := 0, lastOffsetDelta := 0
      baseTimestamp := 900, maxTimestamp := 900, producerId := -1, producerEpoch := -1, baseSequence := -1
      records := [{ attributes := 0, timestampDelta := 0, offsetDelta := 0, key := none, value := none
                    headers := [] }] }

/-- The first of two owners is answered its own offset. -/
theorem merged_owner_is_answered_its_offset_first :
    ∃ partition, Receives plainCodec [oneRecord 1, oneRecord 2] (storedAt 100) 1 ("orders", 3) partition ∧
      partition.baseOffset.toInt = (100 : Int64).toInt + recordsOf [] := by
  have joins : joined plainCodec (batchesOf [oneRecord 1, oneRecord 2] ("orders", 3)) =
      [] ++ oneRecordOf 1 :: [oneRecordOf 2] := by
    decide +kernel
  refine (merged_owner_is_answered_its_offset (by decide) joins (by decide +kernel) ?_ ?_).mpr rfl
  · exact ⟨_, List.mem_singleton_self _, rfl⟩
  · exact fun partition => answers_storedAt

/-- Two requests become one batch that the origin stores at 100, and both are answered 100. -/
theorem merged_owners_are_answered_one_offset :
    (joined plainCodec (batchesOf [oneRecord 1, oneRecord 2] ("orders", 3))).map (·.owner) = [1, 2] ∧
      (((owners plainCodec [oneRecord 1, oneRecord 2]).split (storedAt 100))[1]?.map fun response =>
        (Owner.answered response).map fun (_, partition) => partition.baseOffset) = some [100] ∧
      (((owners plainCodec [oneRecord 1, oneRecord 2]).split (storedAt 100))[2]?.map fun response =>
        (Owner.answered response).map fun (_, partition) => partition.baseOffset) = some [100] := by
  decide +kernel

end Nisshi.Proxy
