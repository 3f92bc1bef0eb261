import Nisshi.Proxy.Serve
import Nisshi.Storage.Combine

/-! What an owner is answered when its batch is merged with others, and what it would be answered if its request
went to the origin alone. The origin is a Nisshi broker, which checks the merged batch as a whole. -/

namespace Nisshi.Proxy

open Nisshi.SansIo Nisshi.Lib Nisshi.Lib.MachineInt List Option
open Nisshi.Storage (ProduceService.partition ProduceService.partitions ProduceService.topic ProduceService.topics
  ProduceService.serve rejection validateTimestamps rewriteCreateTime maxRecordTimestamp noTimestamp
  timestampBeforeMaxMs timestampAfterMaxMs inflateProduced)
open Std (ExtTreeMap)

/-- A Nisshi origin: its clock, and the configuration of its topics. -/
structure Origin where
  codec : Codec
  now : Int64
  timestampType : String → TimestampType
  maxMessageBytes : String → Nat
  /-- Where storage puts a batch that fits, after the batches that it was handed before. -/
  baseOffset : List Storage.Handed → Storage.Handed → Int64

def ensureBatchFits (batch : Deflated.Batch) (limit : Nat) : Except Storage.Error Unit :=
  if limit < batch.sizeInBytes then .error (.messageTooLarge batch.sizeInBytes limit) else .ok ()

namespace Origin

def broker (origin : Origin) : Storage.Broker where
  codec := origin.codec
  clock _ := origin.now
  timestampType _ topic := .ok (origin.timestampType topic)
  produce before handed :=
    (ensureBatchFits handed.batch (origin.maxMessageBytes handed.topition.topic)).map fun _ =>
      origin.baseOffset before handed

def serve (origin : Origin) (request : ProduceRequest) : Except Storage.Error ProduceResponse :=
  (ProduceService.serve origin.broker request { handed := [], readings := 0 }).1

def check (origin : Origin) (topic : String) (batch : Deflated.Batch) : ErrorCode :=
  match rejection origin.codec batch with
  | some (errorCode, _) => errorCode
  | none =>
    match validateTimestamps origin.codec batch (origin.timestampType topic) origin.now with
    | .error _ => .unknownServerError
    | .ok (.error rejection) => rejection.errorCode
    | .ok (.ok validated) =>
      if origin.maxMessageBytes topic < validated.sizeInBytes then .messageTooLarge else .none

def verdict (origin : Origin) (topic : String) : List Deflated.Batch → ErrorCode
  | [batch] => origin.check topic batch
  | _ => .invalidRecord

variable {origin : Origin} {transactionId : Option String} {topic : String} {served : Storage.Served}

theorem partition_verdict (origin : Origin) (transactionId : Option String) (topic : String)
    (data : PartitionProduceData) (served : Storage.Served) :
    (ProduceService.partition origin.broker transactionId topic (origin.timestampType topic) data served).1.index =
        data.index ∧
      (ProduceService.partition origin.broker transactionId topic (origin.timestampType topic) data
        served).1.errorCode = origin.verdict topic (data.records.getD []) := by
  rw [ProduceService.partition]
  rcases data.records.getD [] with _ | ⟨batch, _ | ⟨_, _⟩⟩
  · exact ⟨rfl, rfl⟩
  · simp only [verdict, check, broker]
    cases rejection origin.codec batch with
    | some => exact ⟨rfl, rfl⟩
    | none =>
      rcases validateTimestamps origin.codec batch (origin.timestampType topic) origin.now with _ | _ | validated
      · exact ⟨rfl, rfl⟩
      · exact ⟨rfl, rfl⟩
      · by_cases large : origin.maxMessageBytes topic < validated.sizeInBytes
        · simp only [ensureBatchFits, if_pos large]
          exact ⟨rfl, rfl⟩
        · simp only [ensureBatchFits, if_neg large]
          exact ⟨rfl, rfl⟩
  · exact ⟨rfl, rfl⟩

def Judges (origin : Origin) (topic : String) (data : PartitionProduceData) (response : PartitionProduceResponse) :
    Prop :=
  response.index = data.index ∧ response.errorCode = origin.verdict topic (data.records.getD [])

theorem partitions_judged (origin : Origin) (transactionId : Option String) (topic : String)
    (data : List PartitionProduceData) (served : Storage.Served) :
    List.Forall₂ (origin.Judges topic) data
      (ProduceService.partitions origin.broker transactionId topic (origin.timestampType topic) data served).1 := by
  induction data generalizing served with
  | nil => exact .nil
  | cons first _ ih => exact .cons (partition_verdict origin transactionId topic first served) (ih _)

def JudgesTopic (origin : Origin) (data : TopicProduceData) (response : TopicProduceResponse) : Prop :=
  response.name = data.name ∧
    List.Forall₂ (origin.Judges data.name) (data.partitionData.getD []) (response.partitionResponses.getD [])

theorem topics_judged (origin : Origin) (transactionId : Option String) (data : List TopicProduceData)
    (served : Storage.Served) :
    List.Forall₂ origin.JudgesTopic data (ProduceService.topics origin.broker transactionId data served).1 := by
  induction data generalizing served with
  | nil => exact .nil
  | cons first _ ih =>
    exact .cons ⟨rfl, partitions_judged origin transactionId first.name (first.partitionData.getD []) served⟩ (ih _)

theorem serve_judged (origin : Origin) (known : (Ack.tryFrom request.acks).isSome = true)
    (asks : request.acks ≠ Ack.none.toI16) :
    ∃ response, origin.serve request = .ok response ∧
      List.Forall₂ origin.JudgesTopic (request.topicData.getD []) (response.responses.getD []) := by
  have given : (Ack.tryFrom request.acks).isNone = false := by
    rw [← not_isSome, known]
    rfl
  have judged := topics_judged origin request.transactionalId (request.topicData.getD [])
    { handed := [], readings := 0 }
  refine ⟨{ responses := some _, throttleTimeMs := some 0 }, ?_, judged⟩
  simp only [serve, ProduceService.serve, given, if_neg asks]
  rfl

end Origin

variable {origin : Origin} {requests : List BatchRequest} {key : String × Int32} {id : Uuid}

variable {codec : Codec} {batches : List OwnedBatch} {owned : OwnedBatch} {whole : Inflated.Batch}
  {first : OwnerBatch} {rest : List OwnerBatch}

theorem of_mem_topicData {topic : TopicProduceData}
    (listed : topic ∈ (produceRequest codec requests).1.topicData.getD [])
    (has : data ∈ topic.partitionData.getD []) :
    data.records = some (combine codec (batchesOf requests (topic.name, data.index))).forwarded ∧
      (combine codec (batchesOf requests (topic.name, data.index))).forwarded ≠ [] := by
  simp only [produceRequest, TopicPartitionBatch.intoTopicData, TopicPartitionBatch.topicData, getD_some,
    mem_filterMap, Prod.exists] at listed
  obtain ⟨name, partitions, outer, made⟩ := listed
  split at made
  · cases made
  · cases made
    simp only [TopicPartitionBatch.partitionData, getD_some, mem_filterMap, Prod.exists] at has
    obtain ⟨index, _, inner, made⟩ := has
    split at made
    · cases made
    next filled =>
      cases made
      have found := find_run requests (name, index)
      rw [NestedMap.mem_toList_iff_find.mpr ⟨partitions, outer, inner⟩] at found
      rw [← found]
      exact ⟨rfl, by simpa using filled⟩

theorem exists_mem_topicData (filled : (combine codec (batchesOf requests key)).forwarded ≠ []) :
    ∃ topic ∈ (produceRequest codec requests).1.topicData.getD [], topic.name = key.1 ∧
      ∃ data ∈ topic.partitionData.getD [], data.index = key.2 := by
  have found := find_run requests key
  simp only [produceRequest, TopicPartitionBatch.intoTopicData, getD_some]
  generalize (entries requests).foldl TopicPartitionBatch.add ∅ = run at found
  cases here : NestedMap.find run key with
  | none =>
    rw [here] at found
    rw [← found] at filled
    exact absurd rfl filled
  | some batches =>
    obtain ⟨partitions, outer, inner⟩ := NestedMap.mem_toList_iff_find.mp here
    rw [here, getD_some] at found
    rw [← found] at filled
    have data : { index := key.2, records := some (combine codec batches).forwarded } ∈
        TopicPartitionBatch.partitionData codec partitions := by
      refine mem_filterMap.mpr ⟨_, inner, ?_⟩
      simp only [List.isEmpty_iff, if_neg filled]
    refine ⟨{ name := key.1, partitionData := some (TopicPartitionBatch.partitionData codec partitions) }, ?_, rfl,
      _, data, rfl⟩
    refine mem_filterMap.mpr ⟨_, outer, ?_⟩
    simp only [List.isEmpty_iff, if_neg (ne_nil_of_mem data)]

theorem originResponse_judged (origin : Origin) (requests : List BatchRequest) :
    ∃ response, originResponse origin.codec origin.serve requests = .ok response ∧
      ∀ key, (∀ partition, Answers response key partition →
          partition.errorCode = origin.verdict key.1 (combine origin.codec (batchesOf requests key)).forwarded) ∧
        ((combine origin.codec (batchesOf requests key)).forwarded ≠ [] →
          ∃ partition, Answers response key partition) := by
  rw [originResponse]
  simp only
  split
  next nothing =>
    refine ⟨_, rfl, fun key => ⟨fun partition answers => ?_, fun filled => ?_⟩⟩
    · exact absurd answers.1 not_mem_nil
    · obtain ⟨_, listed, _⟩ := exists_mem_topicData filled
      rw [isEmpty_iff.mp nothing] at listed
      cases listed
  next =>
    have acks : (produceRequest origin.codec requests).1.acks = (batchAcks requests).toI16 := rfl
    obtain ⟨response, ok, judged⟩ : ∃ response, origin.serve (produceRequest origin.codec requests).1 = .ok response ∧
        List.Forall₂ origin.JudgesTopic ((produceRequest origin.codec requests).1.topicData.getD [])
          (response.responses.getD []) := by
      apply origin.serve_judged
      · rw [acks, batchAcks]
        split <;> decide
      · rw [acks, batchAcks]
        split <;> decide
    refine ⟨response, ok, fun key => ⟨?_, fun filled => ?_⟩⟩
    · rintro _ ⟨listed, index⟩
      obtain ⟨_, member, inner⟩ := mem_flatMap.mp listed
      obtain ⟨_, has, same⟩ := mem_map.mp inner
      obtain ⟨name, rfl⟩ := Prod.mk.inj same
      obtain ⟨_, sent, named, each⟩ := exists_left_of_forall₂ judged member
      obtain ⟨_, given, at_, code⟩ := exists_left_of_forall₂ each has
      have forwarded := (of_mem_topicData sent given).1
      rw [← at_, index] at forwarded
      rw [code, forwarded, ← named, name]
      rfl
    · obtain ⟨_, sent, name, _, given, index⟩ := exists_mem_topicData filled
      obtain ⟨answer, member, named, each⟩ := exists_right_of_forall₂ judged sent
      obtain ⟨partition, has, at_, _⟩ := exists_right_of_forall₂ each given
      refine ⟨partition, mem_flatMap.mpr ⟨answer, member, mem_map.mpr ⟨partition, has, ?_⟩⟩, at_.trans index⟩
      rw [named, name]

/-! What an owner is answered. -/

def Outcome (origin : Origin) (requests : List BatchRequest) (id : Uuid) (key : String × Int32) (code : ErrorCode) :
    Prop :=
  ∃ response, originResponse origin.codec origin.serve requests = .ok response ∧
    ∃ partition, Receives origin.codec requests response id key partition ∧ partition.errorCode = code

def Origin.proxied (origin : Origin) (topic : String) (batches : List OwnedBatch) (id : Uuid) : ErrorCode :=
  match (combine origin.codec batches).rejected[id]? with
  | some reason => reason.errorCode
  | none => origin.verdict topic (combine origin.codec batches).forwarded

theorem forwarded_ne_nil (listed : owned ∈ batches) (kept : owned.owner ∉ (combine codec batches).rejected) :
    (combine codec batches).forwarded ≠ [] := by
  cases mixed : sameOwner batches with
  | true =>
    rw [combine, if_pos mixed]
    exact ne_nil_of_mem (mem_map_of_mem listed)
  | false => exact (((accounts_combine codec mixed).each owned listed).resolve_left kept).1

theorem outcome_iff (listed : owned ∈ batchesOf requests key) : Outcome origin requests owned.owner key code ↔
      code = origin.proxied key.1 (batchesOf requests key) owned.owner := by
  obtain ⟨response, ok, judged⟩ := originResponse_judged origin requests
  obtain ⟨code_, some_⟩ := judged key
  have outcome : Outcome origin requests owned.owner key code ↔
      ∃ partition, Receives origin.codec requests response owned.owner key partition ∧ partition.errorCode = code := by
    constructor
    · rintro ⟨_, same, rest⟩
      rw [ok] at same
      cases same
      exact rest
    · exact fun rest => ⟨response, ok, rest⟩
  rw [outcome, Origin.proxied]
  cases rejected : (combine origin.codec (batchesOf requests key)).rejected[owned.owner]? with
  | some =>
    simp only [receives_of_rejected rejected]
    constructor
    · rintro ⟨_, rfl, rfl⟩
      rfl
    · rintro rfl
      exact ⟨_, rfl, rfl⟩
  | none =>
    have kept : owned.owner ∉ (combine origin.codec (batchesOf requests key)).rejected := by
      rw [ExtTreeMap.mem_iff_isSome_getElem?, rejected]
      decide
    obtain ⟨given, received⟩ : (∀ partition, Receives origin.codec requests response owned.owner key partition →
        Answers response key partition) ∧ _ :=
      receives_of_owns (owns_owners.mpr ⟨lists_of_mem_batchesOf listed, kept⟩)
    constructor
    · rintro ⟨partition, receives, rfl⟩
      exact code_ partition (given partition receives)
    · rintro rfl
      obtain ⟨partition, receives⟩ := received (some_ (forwarded_ne_nil listed kept))
      exact ⟨partition, receives, code_ partition (given partition receives)⟩

/-! A request on its own. -/

theorem batchesOf_flatMap (requests : List BatchRequest) (key : String × Int32) :
    batchesOf requests key = requests.flatMap fun request => batchesOf [request] key := by
  induction requests with
  | nil => rfl
  | cons _ _ ih =>
    rw [flatMap_cons, ← ih]
    simp only [batchesOf, entries, flatMap_cons, flatMap_nil, append_nil, filter_append, flatMap_append]

theorem owner_of_mem_batchesOf (listed : owned ∈ batchesOf [request] key) : owned.owner = request.id := by
  obtain ⟨_, member, _, own⟩ := lists_of_mem_batchesOf listed
  rw [← own]
  simp only [entries, flatMap_cons, flatMap_nil, append_nil, mem_flatMap, List.mem_map] at member
  obtain ⟨_, _, _, _, rfl⟩ := member
  rfl

theorem filter_batchesOf (distinct : (requests.map (·.id)).Nodup) (listed : request ∈ requests) :
    ((batchesOf requests key).filter fun owned => owned.owner == request.id) = batchesOf [request] key := by
  induction requests with
  | nil => cases listed
  | cons first rest ih =>
    obtain ⟨new, distinct⟩ := nodup_cons.mp distinct
    have split : batchesOf (first :: rest) key = batchesOf [first] key ++ batchesOf rest key := by
      rw [batchesOf_flatMap, flatMap_cons, ← batchesOf_flatMap]
    rw [split, filter_append]
    have own : ∀ {one : BatchRequest}, one.id = request.id →
        ((batchesOf [one] key).filter fun owned => owned.owner == request.id) = batchesOf [one] key := by
      intro one same
      refine filter_eq_self.mpr fun owned member => ?_
      rw [owner_of_mem_batchesOf member, same]
      exact beq_self_eq_true _
    have none : ∀ {others : List BatchRequest}, (∀ one ∈ others, one.id ≠ request.id) →
        ((batchesOf others key).filter fun owned => owned.owner == request.id) = [] := by
      intro others apart
      refine filter_eq_nil_iff.mpr fun owned member same => ?_
      rw [batchesOf_flatMap] at member
      obtain ⟨one, among, member⟩ := mem_flatMap.mp member
      rw [owner_of_mem_batchesOf member] at same
      exact apart one among (eq_of_beq same)
    rcases mem_cons.mp listed with rfl | later
    · rw [own rfl, none, append_nil]
      intro one among same
      exact new (mem_map.mpr ⟨one, among, same⟩)
    · rw [none, nil_append, ih distinct later]
      intro one among same
      rw [mem_singleton.mp among] at same
      exact new (mem_map.mpr ⟨request, later, same.symm⟩)

theorem sameOwner_cons {first : OwnedBatch} {rest : List OwnedBatch} :
    sameOwner (first :: rest) = true ↔ ∀ other ∈ rest, other.owner = first.owner := by
  induction rest generalizing first with
  | nil => simp [sameOwner]
  | cons _ _ ih =>
    rw [sameOwner, Bool.and_eq_true, beq_iff_eq, ih, forall_mem_cons]
    constructor
    · rintro ⟨same, others⟩
      exact ⟨same.symm, fun other listed => (others other listed).trans same.symm⟩
    · rintro ⟨same, others⟩
      exact ⟨same.symm, fun other listed => (others other listed).trans same.symm⟩

theorem owner_of_sameOwner (same : sameOwner batches = true) (listed : owned ∈ batches)
    (member : other ∈ batches) : other.owner = owned.owner := by
  cases batches with
  | nil => cases listed
  | cons first rest =>
    have each : ∀ one ∈ first :: rest, one.owner = first.owner :=
      forall_mem_cons.mpr ⟨rfl, sameOwner_cons.mp same⟩
    rw [each other member, each owned listed]

theorem proxied_alone (origin : Origin) (topic : String) (same : sameOwner batches = true) (id : Uuid) :
    origin.proxied topic batches id = origin.verdict topic (batches.map (·.batch)) := by
  rw [Origin.proxied, combine, if_pos same, ExtTreeMap.getElem?_empty]

theorem sameOwner_batchesOf (request : BatchRequest) (key : String × Int32) :
    sameOwner (batchesOf [request] key) = true := by
  cases given : batchesOf [request] key with
  | nil => rfl
  | cons first rest =>
    have own : ∀ owned ∈ first :: rest, owned.owner = request.id := by
      rw [← given]
      exact fun owned => owner_of_mem_batchesOf
    obtain ⟨here, there⟩ := forall_mem_cons.mp own
    exact sameOwner_cons.mpr fun other listed => (there other listed).trans here.symm

/-! The merged batch as a whole. -/

/-- The record's timestamp is one, and not too far from the clock. -/
def Origin.InTime (origin : Origin) (base : Int64) (record : Record) : Prop :=
  ∃ timestamp ∈ checkedAdd64 base record.timestampDelta,
    ¬(timestamp ≠ noTimestamp ∧ (saturatingAdd64 origin.now timestampAfterMaxMs < timestamp ∨
      timestamp < saturatingSub64 origin.now timestampBeforeMaxMs))

instance (origin : Origin) (base : Int64) (record : Record) : Decidable (origin.InTime base record) := by
  unfold Origin.InTime
  infer_instance

theorem exists_maxRecordTimestamp (origin : Origin) (base actualMax : Int64) {index : Nat}
    (few : index + records.length ≤ 2 ^ 31) (inTime : ∀ record ∈ records, origin.InTime base record) :
    ∃ greatest, maxRecordTimestamp base (saturatingSub64 origin.now timestampBeforeMaxMs)
      (saturatingAdd64 origin.now timestampAfterMaxMs) origin.now actualMax index records = .ok (.ok greatest) := by
  induction records generalizing actualMax index with
  | nil => exact ⟨_, rfl⟩
  | cons record rest ih =>
    rw [length_cons] at few
    obtain ⟨⟨timestamp, sum, near⟩, others⟩ := forall_mem_cons.mp inTime
    rw [mem_def] at sum
    rw [maxRecordTimestamp, if_pos (by omega)]
    simp only [sum, if_neg near]
    exact ih _ (by omega) others

theorem sizeInBytes_of_setTimestamps {batch : Deflated.Batch} {timestampType : TimestampType}
    (ok : batch.setTimestamps codec timestampType base greatest = .ok stamped) :
    stamped.sizeInBytes = batch.sizeInBytes := by
  obtain ⟨_, same⟩ := Deflated.Batch.setTimestamps_eq_ok ok
  rw [same]
  rfl

theorem setTimestamps_ok (valid : batch.computedCrc codec = batch.crc)
    (timestampType : TimestampType) (base greatest : Int64) :
    ∃ stamped, Storage.setTimestamps codec batch timestampType base greatest = .ok (.ok stamped) ∧
      stamped.sizeInBytes = batch.sizeInBytes := by
  cases ok : batch.setTimestamps codec timestampType base greatest with
  | error =>
    rw [Deflated.Batch.setTimestamps, if_neg (not_not.mpr valid)] at ok
    cases ok
  | ok stamped =>
    refine ⟨stamped, ?_, sizeInBytes_of_setTimestamps ok⟩
    rw [Storage.setTimestamps, ok]

/-- A batch that was encoded, without compression, from as many records as it has offsets. -/
structure Whole (codec : Codec) (whole : Inflated.Batch) (merged : Deflated.Batch) : Prop where
  crc : merged.computedCrc codec = merged.crc
  data : merged.isControl = false
  plain : Compression.tryFrom whole.attributes = some .none
  create : TimestampType.from merged.attributes = .createTime
  fits : whole.Fits
  carries : merged.Carries whole
  offsets : whole.lastOffsetDelta.toInt + 1 = whole.records.length

theorem whole_of_tryFromInflated {marks : BatchAttribute}
    (attributes : whole.attributes = marks.toI16) (plain : marks.compression = .none)
    (data : marks.control = false) (create : marks.timestamp = .createTime)
    (offsets : whole.lastOffsetDelta.toInt + 1 = whole.records.length)
    (encoded : Deflated.Batch.tryFromInflated codec whole = some merged) : Whole codec whole merged := by
  have known : Compression.tryFrom whole.attributes = some .none := by
    rw [attributes, BatchAttribute.compression_toI16, plain]
  have fits := Deflated.fits_of_tryFromInflated known encoded
  obtain ⟨other, same, carries⟩ : ∃ other, Deflated.Batch.tryFromInflated codec whole = some other ∧
      other.Carries whole := Deflated.tryFromInflated_eq known fits
  rw [encoded] at same
  cases same
  have kept : merged.attributes = marks.toI16 :=
    (congrArg Inflated.Batch.attributes carries.header).symm.trans attributes
  refine ⟨Deflated.Batch.crc_of_tryFromInflated encoded, ?_, known, ?_, fits, carries, offsets⟩
  · rw [Deflated.Batch.isControl, kept, ← data]
    exact marks.control_toI16
  · rw [kept, BatchAttribute.timestamp_toI16, create]

namespace Whole

variable {whole : Inflated.Batch} {merged : Deflated.Batch} {topic : String}

variable {codec : Codec}

theorem few (sealed : Whole codec whole merged) : whole.records.length < 2 ^ 31 := by
  have fits := sealed.fits
  have seven := Deflated.seven_mul_length_le whole.records
  rw [Inflated.Batch.Fits, Inflated.Batch.recordDataSize] at fits
  omega

theorem rejection_eq_none (sealed : Whole codec whole merged) (filled : 0 < whole.records.length)
    (small : whole.records.length * Record.sizeOfRecord ≤ maxDecodedBatchBytes) : rejection codec merged = none := by
  have few := sealed.few
  have known : (BatchAttribute.tryFrom merged.attributes).isNone = false := by
    have same : merged.attributes = whole.attributes :=
      (congrArg Inflated.Batch.attributes sealed.carries.header).symm
    rw [BatchAttribute.tryFrom, same, sealed.plain]
    rfl
  have offsets : checkedAdd32 merged.lastOffsetDelta 1 = some (Int32.ofNat whole.records.length) := by
    have same : merged.lastOffsetDelta = whole.lastOffsetDelta :=
      (congrArg Inflated.Batch.lastOffsetDelta sealed.carries.header).symm
    have one : (1 : Int32).toInt = 1 := by decide
    have sum := sealed.offsets
    rw [same, checkedAdd32_eq (by omega) (by omega)]
    apply congrArg
    apply Int32.toInt_inj.mp
    rw [Int32.toInt_ofNat_of_lt few, Int32.toInt_add, one, sum]
    exact Int.bmod_eq_of_le (by omega) (by omega)
  simp only [rejection, sealed.crc, ne_eq, not_true_eq_false, if_false, sealed.data, Bool.false_eq_true, known,
    sealed.carries.recordCount, offsets, if_neg (Nat.not_le_of_lt few), if_neg (Nat.not_lt_of_le filled),
    Deflated.Batch.exceedsDecodedRecordCountLimit, decide_eq_true_eq, if_neg (Nat.not_lt_of_le small)]

theorem sizeInBytes_eq (sealed : Whole codec whole merged) :
    merged.sizeInBytes = 12 + Deflated.fixedBatchLength + (whole.records.map Record.size).sum := by
  rw [Deflated.Batch.sizeInBytes, sealed.carries.length_recordData]
  rfl

theorem validated (sealed : Whole origin.codec whole merged)
    (decoded : inflateProduced (Inflated.Batch.tryFromRef origin.codec merged) = .ok batch)
    (same : batch.records = whole.records) (inTime : origin.timestampType topic = .createTime →
      ∀ record ∈ whole.records, origin.InTime whole.baseTimestamp record) :
    ∃ stamped, validateTimestamps origin.codec merged (origin.timestampType topic) origin.now = .ok (.ok stamped) ∧
      stamped.sizeInBytes = merged.sizeInBytes := by
  have base : merged.baseTimestamp = whole.baseTimestamp :=
    (congrArg Inflated.Batch.baseTimestamp sealed.carries.header).symm
  have unmarked : Storage.producerLogAppendTime merged (origin.timestampType topic) = none := by
    rw [Storage.producerLogAppendTime, sealed.create, if_neg (by simp)]
  rw [validateTimestamps, decoded]
  simp only [unmarked]
  cases kind : origin.timestampType topic with
  | logAppendTime => exact setTimestamps_ok sealed.crc .logAppendTime merged.baseTimestamp origin.now
  | createTime =>
    obtain ⟨greatest, checked⟩ := exists_maxRecordTimestamp origin whole.baseTimestamp noTimestamp
      (show 0 + whole.records.length ≤ 2 ^ 31 by have := sealed.few; omega) (inTime kind)
    simp only [rewriteCreateTime, base, same, checked]
    split
    · exact ⟨merged, rfl, rfl⟩
    · exact setTimestamps_ok sealed.crc .createTime whole.baseTimestamp greatest

theorem check_eq_none (sealed : Whole origin.codec whole merged) (filled : 0 < whole.records.length)
    (decodedSize : (whole.records.map Record.allocatedSize).sum ≤ maxDecodedBatchBytes)
    (inTime : origin.timestampType topic = .createTime →
      ∀ record ∈ whole.records, origin.InTime whole.baseTimestamp record)
    (encodedSize : merged.sizeInBytes ≤ origin.maxMessageBytes topic) : origin.check topic merged = .none := by
  have least := Deflated.sizeOfRecord_mul_length_le whole.records
  have decoded : merged.tryRecords origin.codec = if (whole.records.map Record.allocatedSize).sum ≤
      maxDecodedBatchBytes then .ok whole.records else .error .messageMaxSizeExceeded :=
    Deflated.Batch.tryRecords_eq sealed.plain sealed.fits sealed.carries
  rw [if_pos decodedSize] at decoded
  have inflated : inflateProduced (Inflated.Batch.tryFromRef origin.codec merged) =
      .ok (merged.withRecords whole.records) := by
    rw [Inflated.Batch.tryFromRef, decoded]
    rfl
  obtain ⟨_, valid, size⟩ := sealed.validated inflated rfl inTime
  rw [Origin.check, sealed.rejection_eq_none filled (least.trans decodedSize)]
  simp only [valid, size]
  exact if_neg (Nat.not_lt_of_le encodedSize)

end Whole

/-! The batches that are joined. -/

/-- The records of the batches, moved behind those of the first one. -/
def joinedRecords : List OwnerBatch → List Record
  | [] => []
  | first :: rest => Inflated.Batch.recordsFrom first.decoded.baseTimestamp 0 ((first :: rest).map (·.decoded))

def joinedBase : List OwnerBatch → Int64
  | [] => 0
  | first :: _ => first.decoded.baseTimestamp

/-- The offsets, the decoded size, the timestamps and the encoded size of the records of all the batches together are
within the limits. -/
structure Agreeable (origin : Origin) (topic : String) (owners : List OwnerBatch) : Prop where
  count : 0 < recordsOf owners ∧ recordsOf owners < 2 ^ 31
  offsets : ∀ own ∈ owners, ∀ record ∈ own.decoded.records, record.offsetDelta.toInt < own.asSent.recordCount.toNat
  decodedSize : ((joinedRecords owners).map Record.allocatedSize).sum ≤ maxDecodedBatchBytes
  timestamps : origin.timestampType topic = .createTime →
    ∀ record ∈ joinedRecords owners, origin.InTime (joinedBase owners) record
  encodedSize : 12 + Deflated.fixedBatchLength + ((joinedRecords owners).map Record.size).sum ≤
    min (origin.maxMessageBytes topic) (2 ^ 31)

theorem length_recordsFrom (base : Int64) (first : Int32) (parts : List Inflated.Batch) :
    (Inflated.Batch.recordsFrom base first parts).length = (parts.map fun part => part.records.length).sum := by
  induction parts generalizing first with
  | nil => rfl
  | cons _ _ ih =>
    rw [Inflated.Batch.recordsFrom, length_append, ih, Inflated.Batch.recordsOnto, length_map, map_cons, sum_cons]

structure Plain (batch : Deflated.Batch) : Prop where
  data : batch.isControl = false
  create : TimestampType.from batch.attributes = .createTime

theorem offsets_of_foldlM (sent : ∀ own ∈ first :: rest, decode codec own.asSent = .ok own.decoded)
    (folded : (rest.map (·.decoded)).foldlM Inflated.Batch.appendRebased first.decoded = .ok whole) :
    whole.records = joinedRecords (first :: rest) ∧ whole.baseTimestamp = first.decoded.baseTimestamp ∧
      whole.attributes = first.decoded.attributes ∧ whole.lastOffsetDelta.toInt + 1 = whole.records.length := by
  have same := Inflated.Batch.foldlM_appendRebased folded
  have records : whole.records = joinedRecords (first :: rest) := by
    rw [same, joinedRecords, map_cons, Storage.recordsFrom_zero]
  refine ⟨records, by rw [same], by rw [same], ?_⟩
  have counted : ((first :: rest).map fun own => own.decoded.records.length).sum = recordsOf (first :: rest) := by
    congr 1
    exact map_congr_left fun own listed => (decodes_of_decode (sent own listed)).counted
  have extent := extent_decoded sent
  have last := Inflated.Batch.lastOffsetDelta_foldlM folded
  rw [map_cons, Inflated.Batch.extent, map_cons, sum_cons, ← Inflated.Batch.extent] at extent
  rw [records, joinedRecords, length_recordsFrom, List.map_map]
  have total : (((first :: rest).map ((fun part : Inflated.Batch => part.records.length) ∘ (·.decoded))).sum) =
      recordsOf (first :: rest) := counted
  omega

theorem whole_of_joined (sent : ∀ own ∈ first :: rest, decode codec own.asSent = .ok own.decoded)
    (plain : Plain first.asSent)
    (folded : (rest.map (·.decoded)).foldlM Inflated.Batch.appendRebased first.decoded = .ok whole)
    (encoded : Deflated.Batch.tryFromInflated codec whole = some merged) : Whole codec whole merged := by
  obtain ⟨_, _, attributes, offsets⟩ := offsets_of_foldlM sent folded
  obtain ⟨_, known, cleared⟩ := (decodes_of_decode (sent first mem_cons_self)).value.marks
  obtain ⟨_, _, same⟩ := map_eq_some_iff.mp known
  refine whole_of_tryFromInflated (attributes.trans cleared) rfl ?_ ?_ offsets encoded
  · rw [← same]
    exact plain.data
  · rw [← same]
    exact plain.create

namespace Merging

theorem foldl_append_eq {owners : List OwnerBatch} (sent : ∀ own ∈ owners, decode codec own.asSent = .ok own.decoded)
    (within : ∀ own ∈ owners, ∀ record ∈ own.decoded.records, record.offsetDelta.toInt < own.asSent.recordCount.toNat)
    {sink : Inflated.Batch} (front : 0 ≤ sink.lastOffsetDelta.toInt + 1)
    (few : sink.lastOffsetDelta.toInt + 1 + recordsOf owners < 2 ^ 31) (merged : List OwnerBatch)
    (rejected : ExtTreeMap Uuid BatchRejection) :
    ∃ whole, (owners.map (·.decoded)).foldlM Inflated.Batch.appendRebased sink = .ok whole ∧
      owners.foldl Merging.append { sink, mergedOwners := merged, rejected } =
        { sink := whole, mergedOwners := merged ++ owners, rejected } := by
  induction owners generalizing sink merged with
  | nil => exact ⟨sink, rfl, by rw [append_nil]; rfl⟩
  | cons own rest ih =>
    obtain ⟨here, there⟩ := forall_mem_cons.mp sent
    obtain ⟨mine, others⟩ := forall_mem_cons.mp within
    have decodes := decodes_of_decode here
    have offsets := decodes.offsets
    rw [recordsOf, map_cons, sum_cons, ← recordsOf, Nat.cast_add] at few
    obtain ⟨next, ok⟩ := Inflated.Batch.exists_appendRebased front (by omega) (by omega)
      fun record member => offsets ▸ mine record member
    have last := (Inflated.Batch.appendRebased_eq_ok ok).last
    have onward : 0 ≤ next.lastOffsetDelta.toInt + 1 := by omega
    obtain ⟨whole, folded, run⟩ := ih there others onward (by omega) (merged ++ [own])
    refine ⟨whole, bind_eq_ok_iff.mpr ⟨next, ok, folded⟩, ?_⟩
    rw [append_cons, ← run, foldl_cons, Merging.append]
    simp only [ok]

theorem run_eq (sent : ∀ own ∈ first :: rest, decode codec own.asSent = .ok own.decoded)
    (agreeable : Agreeable origin topic (first :: rest)) (rejected : ExtTreeMap Uuid BatchRejection) :
    ∃ whole, (rest.map (·.decoded)).foldlM Inflated.Batch.appendRebased first.decoded = .ok whole ∧
      run first rest rejected = { sink := whole, mergedOwners := first :: rest, rejected } := by
  obtain ⟨here, there⟩ := forall_mem_cons.mp sent
  have offsets := (decodes_of_decode here).offsets
  have count := agreeable.count.2
  rw [recordsOf, map_cons, sum_cons, ← recordsOf] at count
  exact foldl_append_eq there (fun own listed => agreeable.offsets own (mem_cons_of_mem _ listed)) (by omega)
    (by omega) [first] rejected

end Merging

theorem length_joinedRecords {owners : List OwnerBatch}
    (sent : ∀ own ∈ owners, decode codec own.asSent = .ok own.decoded) :
    (joinedRecords owners).length = recordsOf owners := by
  cases owners with
  | nil => rfl
  | cons first rest =>
    rw [joinedRecords, length_recordsFrom, List.map_map, recordsOf]
    congr 1
    exact map_congr_left fun own listed => (decodes_of_decode (sent own listed)).counted

section One

variable {batches : List OwnedBatch} {owned : OwnedBatch} {topic : String}

theorem sent_of_decodable {own : OwnerBatch} (joins : own ∈ decodable codec batches) :
    { owner := own.owner, batch := own.asSent } ∈ batches ∧ ¬1 < ownedBy own.owner batches := by
  obtain ⟨owned, listed, decoded⟩ := mem_filterMap.mp joins
  rw [decodeOne] at decoded
  split at decoded
  · cases decoded
  next single =>
    obtain ⟨_, _, rfl⟩ := map_eq_some_iff.mp decoded
    exact ⟨listed, single⟩

/-- The merged batch of all the batches that decode is accepted. -/
theorem proxied_agreeable {own : OwnerBatch} (mixed : sameOwner batches = false)
    (plain : ∀ owned ∈ batches, Plain owned.batch)
    (agreeable : Agreeable origin topic (decodable origin.codec batches)) (joins : own ∈ decodable origin.codec batches)
    (accepted : origin.check topic own.asSent = .none) : origin.proxied topic batches own.owner = .none := by
  have sorted := Decoding.sorted_run origin.codec batches
  have owners := Decoding.owners_run origin.codec batches
  rw [Origin.proxied, combine, if_neg (by rw [mixed]; decide)]
  generalize Decoding.run origin.codec batches = decoding at sorted owners
  rw [← owners] at agreeable joins
  obtain ⟨_ | ⟨first, rest⟩, rejected⟩ := decoding
  · cases joins
  · have sent : ∀ own ∈ first :: rest, decode origin.codec own.asSent = .ok own.decoded :=
      fun own listed => (sorted.sent own listed).2.1
    have kept : rejected[own.owner]? = none := by
      by_contra gone
      exact (sorted.sent own joins).2.2 (ExtTreeMap.mem_iff_isSome_getElem?.mpr (isSome_iff_ne_none.mpr gone))
    obtain ⟨whole, folded, run⟩ := Merging.run_eq sent agreeable rejected
    simp only [merge, run]
    cases rest with
    | nil =>
      obtain rfl := mem_singleton.mp joins
      simp only [length_singleton, if_true, kept]
      exact accepted
    | cons second rest =>
      have known := compression_of_foldlM (sent first mem_cons_self) folded
      obtain ⟨records, base, _, _⟩ := offsets_of_foldlM sent folded
      have fits : whole.Fits := by
        have size := agreeable.encodedSize
        rw [Inflated.Batch.Fits, Inflated.Batch.recordDataSize, records]
        dsimp only at size
        omega
      obtain ⟨merged, encoded, _⟩ : ∃ merged, Deflated.Batch.tryFromInflated origin.codec whole = some merged ∧
          merged.Carries whole := Deflated.tryFromInflated_eq known fits
      have sealed := whole_of_joined sent (plain _ (sorted.sent first mem_cons_self).1) folded encoded
      rw [if_neg (by simp), encoded]
      simp only [kept]
      have size := agreeable.encodedSize
      refine sealed.check_eq_none ?_ ?_ ?_ ?_
      · rw [records, length_joinedRecords sent]
        exact agreeable.count.1
      · rw [records]
        exact agreeable.decodedSize
      · rw [records, base]
        exact agreeable.timestamps
      · rw [sealed.sizeInBytes_eq, records]
        exact size.trans (min_le_left _ _)

/-- An owner with several batches is rejected, as the origin would reject it. -/
theorem proxied_several (mixed : sameOwner batches = false) (listed : owned ∈ batches)
    (many : 1 < ownedBy owned.owner batches) : origin.proxied topic batches owned.owner = .invalidRecord := by
  have accounts := accounts_combine origin.codec mixed
  have gone : owned.owner ∈ (combine origin.codec batches).rejected := by
    refine (accounts.each owned listed).resolve_right ?_
    rintro ⟨_, own, joins, mine, _⟩
    exact accounts.single own joins (mine ▸ many)
  obtain ⟨_, rejected⟩ := isSome_iff_exists.mp (ExtTreeMap.mem_iff_isSome_getElem?.mp gone)
  rw [Origin.proxied, rejected]
  cases accounts.reason _ _ rejected with
  | multiple => rfl
  | undecoded one | unappended one => exact absurd many one
  | unencoded joins mine => exact absurd many (mine ▸ accounts.single _ joins)

end One

theorem plain_of_mergeable (merges : ∀ request ∈ requests, mergeable request.request = true) :
    ∀ owned ∈ batchesOf requests key, Plain owned.batch := by
  intro owned listed
  obtain ⟨_, member, inner⟩ := mem_flatMap.mp listed
  obtain ⟨batch, has, rfl⟩ := mem_map.mp inner
  have given := (mem_filter.mp member).1
  simp only [entries, mem_flatMap, List.mem_map] at given
  obtain ⟨request, sent, topic, named, data, partition, rfl⟩ := given
  have one := all_eq_true.mp (all_eq_true.mp (all_eq_true.mp (merges request sent) topic named) data
    partition) batch has
  simp only [Bool.and_eq_true, Bool.not_eq_true', beq_iff_eq] at one
  exact ⟨one.1.2, one.2⟩

def AnsweredAsAlone (origin : Origin) (requests : List BatchRequest) (request : BatchRequest) (key : String × Int32) :
    Prop :=
  ∀ code, Outcome origin requests request.id key code ↔ Outcome origin [request] request.id key code

/-- No other request has batches for the partition, or this one has several, or its batch passes the checks by itself
and the records of all the batches that decode pass them together. -/
def Unaffected (origin : Origin) (requests : List BatchRequest) (request : BatchRequest) (key : String × Int32) :
    Prop :=
  sameOwner (batchesOf requests key) = true ∨ 1 < (batchesOf [request] key).length ∨
    (∃ own ∈ decodable origin.codec (batchesOf requests key), own.owner = request.id ∧
      origin.check key.1 own.asSent = .none) ∧ Agreeable origin key.1 (decodable origin.codec (batchesOf requests key))

open Storage.ProduceService (plainCodec emptyRecord)

def plainOrigin : Origin where
  codec := plainCodec
  now := 1000
  timestampType _ := .createTime
  maxMessageBytes _ := 1000
  baseOffset _ _ := 0

theorem agreeable_twice : Agreeable plainOrigin "orders"
    (decodable plainCodec (batchesOf [oneRecord 1, oneRecord 2] ("orders", 3))) where
  count := by decide +kernel
  offsets := by decide +kernel
  decodedSize := by decide +kernel
  timestamps := by decide +kernel
  encodedSize := by decide +kernel

def sending (id : Uuid) (batch : Deflated.Batch) : BatchRequest where
  id
  request :=
    { transactionalId := none
      acks := 1
      timeoutMs := 500
      topicData := some [{ name := "orders", partitionData := some [{ index := 3, records := some [batch] }] }] }

def farAhead : Deflated.Batch :=
  { emptyRecord with baseTimestamp := 10000000000, maxTimestamp := 10000000000 }

theorem outcome_sending {requests : List BatchRequest} {id : Uuid} (batch : Deflated.Batch)
    (listed : { owner := id, batch } ∈ batchesOf requests ("orders", 3))
    (proxied : plainOrigin.proxied "orders" (batchesOf requests ("orders", 3)) id = code) :
    Outcome plainOrigin requests id ("orders", 3) code :=
  (outcome_iff listed).mpr proxied.symm

end Nisshi.Proxy
