import Nisshi.Lib.MachineInt
import Nisshi.SansIo.Produced
import Nisshi.SansIo.ProduceMessages

/-! `ProduceService`: it checks each batch of a `Produce` request, sets its timestamps for the topic, and hands
it to storage. -/

namespace Nisshi.Storage

open Nisshi.SansIo Nisshi.Lib Nisshi.Lib.MachineInt List Option

inductive Error where
  | api (errorCode : ErrorCode)
  | sansIo (error : SansIo.Error)
  | messageTooLarge (size limit : Nat)
  | acksZeroProduceFailed (topic : String) (partition : Int32) (errorCode : ErrorCode)
  | other
  deriving DecidableEq

structure Topition where
  topic : String
  partition : Int32
  deriving DecidableEq

def inflateProduced (decoded : Except SansIo.Error Inflated.Batch) : Except Error Inflated.Batch :=
  match decoded with
  | .ok inflated => .ok inflated
  | .error .messageMaxSizeExceeded => .error (.sansIo .messageMaxSizeExceeded)
  | .error _ => .error (.api .invalidRecord)

theorem of_inflateProduced {decoded : Except SansIo.Error Inflated.Batch}
    (ok : inflateProduced decoded = .ok inflated) : decoded = .ok inflated := by
  cases decoded with
  | ok => exact congrArg Except.ok (Except.ok.inj ok)
  | error error => cases error <;> cases ok

def noTimestamp : Int64 :=
  -1

def timestampAfterMaxMs : Int64 :=
  3600000

def timestampBeforeMaxMs : Int64 :=
  Int64.maxValue

def crcMismatch : String :=
  "batch crc does not match its contents"

def invalidTimestamp : String :=
  "One or more records have been rejected due to invalid timestamp"

def rejection (codec : Codec) (batch : Deflated.Batch) : Option (ErrorCode × String) :=
  if batch.computedCrc codec ≠ batch.crc then some (.corruptMessage, crcMismatch)
  else if batch.isControl then some (.invalidRecord, "clients may not write control batches")
  else if (BatchAttribute.tryFrom batch.attributes).isNone then
    some (.invalidRecord, "unknown compression codec")
  else if 2 ^ 31 ≤ batch.recordCount.toNat then some (.invalidRecord, "record_count exceeds i32::MAX")
  else if batch.recordCount.toNat < 1 then some (.invalidRecord, "batch has no records")
  else if checkedAdd32 batch.lastOffsetDelta 1 ≠ some (Int32.ofNat batch.recordCount.toNat) then
    some (.invalidRecord, "last_offset_delta + 1 does not equal record_count")
  else if batch.exceedsDecodedRecordCountLimit then
    some (.messageTooLarge, "record_count exceeds the maximum decoded batch size")
  else none

def storageErrorCode : Error → ErrorCode
  | .api errorCode => errorCode
  | .sansIo .messageMaxSizeExceeded => .messageTooLarge
  | .messageTooLarge _ _ => .messageTooLarge
  | _ => .unknownServerError

structure Rejection where
  errorCode : ErrorCode
  message : String
  recordError : Option BatchIndexAndErrorMessage
  deriving DecidableEq

namespace Rejection

def overflows (index : Int32) (base delta : Int64) : Rejection where
  errorCode := .invalidRecord
  message := "record timestamp overflows i64"
  recordError := some
    { batchIndex := index
      batchIndexErrorMessage := some
        s!"base_timestamp {base.toInt} plus timestamp_delta {delta.toInt} of the record at batch index {index.toInt} overflows" }

def outOfRange (index : Int32) (timestamp lower upper now : Int64) : Rejection where
  errorCode := .invalidTimestamp
  message := invalidTimestamp
  recordError := some
    { batchIndex := index
      batchIndexErrorMessage := some
        s!"Timestamp {timestamp.toInt} of the record at batch index {index.toInt} is out of range. The timestamp should be within [{lower.toInt}, {upper.toInt}], from the broker's clock at {now.toInt}" }

def corruptBatch : Rejection where
  errorCode := .corruptMessage
  message := crcMismatch
  recordError := none

def undecodableBatch (error : Error) : Rejection where
  errorCode := storageErrorCode error
  message :=
    if storageErrorCode error = .messageTooLarge then "batch exceeds the maximum decoded batch size"
    else "batch could not be decoded"
  recordError := none

end Rejection

/-- What a check makes of a batch: it may be stored as it is now, or the client must not store it. -/
abbrev Checked (α : Type) := Except Error (Except Rejection α)

def maxRecordTimestamp (base lower upper now : Int64) (actualMax : Int64) (batchIndex : Nat) :
    List Record → Checked Int64
  | [] => .ok (.ok actualMax)
  | record :: records =>
    if batchIndex < 2 ^ 31 then
      match checkedAdd64 base record.timestampDelta with
      | none => .ok (.error (.overflows (Int32.ofNat batchIndex) base record.timestampDelta))
      | some timestamp =>
        -- A timestamp at a bound is accepted, and so is a record without a timestamp.
        if timestamp ≠ noTimestamp ∧ (upper < timestamp ∨ timestamp < lower) then
          .ok (.error (.outOfRange (Int32.ofNat batchIndex) timestamp lower upper now))
        else maxRecordTimestamp base lower upper now (max actualMax timestamp) (batchIndex + 1) records
    else .error .other

def setTimestamps (codec : Codec) (batch : Deflated.Batch) (timestampType : TimestampType)
    (baseTimestamp maxTimestamp : Int64) : Checked Deflated.Batch :=
  match batch.setTimestamps codec timestampType baseTimestamp maxTimestamp with
  | .ok stamped => .ok (.ok stamped)
  | .error .corruptMessage => .ok (.error .corruptBatch)
  | .error error => .error (.sansIo error)

/-- Validates the timestamp of each record, and rewrites `max_timestamp` when the header claims another one or
claims to be stamped by the broker. -/
def rewriteCreateTime (codec : Codec) (batch : Deflated.Batch) (inflated : Inflated.Batch) (now : Int64) :
    Checked Deflated.Batch :=
  let lower := saturatingSub64 now timestampBeforeMaxMs
  let upper := saturatingAdd64 now timestampAfterMaxMs
  match maxRecordTimestamp batch.baseTimestamp lower upper now noTimestamp 0 inflated.records with
  | .error error => .error error
  | .ok (.error rejection) => .ok (.error rejection)
  | .ok (.ok actualMax) =>
    if actualMax = batch.maxTimestamp ∧ TimestampType.from batch.attributes = .createTime then .ok (.ok batch)
    else setTimestamps codec batch .createTime batch.baseTimestamp actualMax

def stampLogAppendTime (codec : Codec) (batch : Deflated.Batch) (now : Int64) : Checked Deflated.Batch :=
  setTimestamps codec batch .logAppendTime batch.baseTimestamp now

def producerLogAppendTime (batch : Deflated.Batch) (timestampType : TimestampType) : Option Rejection :=
  if TimestampType.from batch.attributes = .logAppendTime ∧
      (timestampType = .logAppendTime ∨ batch.maxTimestamp = noTimestamp) then
    some
      { errorCode := .invalidTimestamp
        message := invalidTimestamp
        recordError := some
          { batchIndex := 0
            batchIndexErrorMessage := some
              "Invalid timestamp type in the record at batch index 0. Producer should not set timestamp type to LogAppendTime." } }
  else none

def validateTimestamps (codec : Codec) (batch : Deflated.Batch) (timestampType : TimestampType) (now : Int64) :
    Checked Deflated.Batch :=
  match inflateProduced (Inflated.Batch.tryFromRef codec batch) with
  | .error error => .ok (.error (.undecodableBatch error))
  | .ok inflated =>
    match producerLogAppendTime batch timestampType with
    | some rejection => .ok (.error rejection)
    | none =>
      match timestampType with
      | .createTime => rewriteCreateTime codec batch inflated now
      | .logAppendTime => stampLogAppendTime codec batch now

structure Handed where
  transactionId : Option String
  topition : Topition
  batch : Deflated.Batch
  deriving DecidableEq

/-- What the service sees of the rest of the broker: the clock, and the answers of storage, which may depend on
everything that was handed to it before. -/
structure Broker where
  codec : Codec
  /-- The time of a clock reading, by how many there were before. -/
  clock : Nat → Int64
  /-- The topic's `message.timestamp.type`, as `describe_config` answers it. -/
  timestampType : List Handed → String → Except Error TimestampType
  produce : List Handed → Handed → Except Error Int64

/-- How far the service has got: the batches that it handed to storage, the latest first, and its readings of
the clock. -/
structure Served where
  handed : List Handed
  readings : Nat

namespace ProduceService

variable (broker : Broker)

def error (index : Int32) (errorCode : ErrorCode) : PartitionProduceResponse where
  index
  errorCode
  baseOffset := -1
  logAppendTimeMs := some (-1)
  logStartOffset := some 0
  recordErrors := some []
  errorMessage := none

def topicError (topic : TopicProduceData) (errorCode : ErrorCode) : TopicProduceResponse where
  name := topic.name
  partitionResponses := some ((topic.partitionData.getD []).map fun partition => error partition.index errorCode)

def reject (index : Int32) (rejection : Rejection) : PartitionProduceResponse :=
  { error index rejection.errorCode with
    errorMessage := some rejection.message
    recordErrors := some rejection.recordError.toList }

def stored (topition : Topition) (logAppendTimeMs : Int64) : Except Error Int64 → PartitionProduceResponse
  | .ok baseOffset =>
    { index := topition.partition
      errorCode := .none
      baseOffset
      logAppendTimeMs := some logAppendTimeMs
      logStartOffset := some 0
      recordErrors := some []
      errorMessage := none }
  | .error failed =>
    let response := error topition.partition (storageErrorCode failed)
    match failed with
    | .messageTooLarge size limit =>
      { response with
        errorMessage := some
          s!"The record batch size in the append to {topition.topic}-{topition.partition.toInt} is {size} bytes which exceeds the maximum configured value of {limit}." }
    | _ => response

def partition (transactionId : Option String) (name : String) (timestampType : TimestampType)
    (data : PartitionProduceData) (served : Served) : PartitionProduceResponse × Served :=
  match data.records.getD [] with
  | [batch] =>
    match rejection broker.codec batch with
    | some (errorCode, message) =>
      (reject data.index { errorCode, message, recordError := none }, served)
    | none =>
      let now := broker.clock served.readings
      let served := { served with readings := served.readings + 1 }
      match validateTimestamps broker.codec batch timestampType now with
      | .error _ => (error data.index .unknownServerError, served)
      | .ok (.error rejection) => (reject data.index rejection, served)
      | .ok (.ok validated) =>
        let topition : Topition := { topic := name, partition := data.index }
        let handed : Handed := { transactionId, topition, batch := validated }
        let logAppendTimeMs := match timestampType with
          | .createTime => noTimestamp
          | .logAppendTime => now
        (stored topition logAppendTimeMs (broker.produce served.handed handed),
          { served with handed := handed :: served.handed })
  | _ =>
    ({ error data.index .invalidRecord with
        errorMessage := some "a produce request must contain exactly one record batch per partition" }, served)

def partitions (transactionId : Option String) (name : String) (timestampType : TimestampType) :
    List PartitionProduceData → Served → List PartitionProduceResponse × Served
  | [], served => ([], served)
  | data :: rest, served =>
    let (response, served) := partition broker transactionId name timestampType data served
    let (responses, served) := partitions transactionId name timestampType rest served
    (response :: responses, served)

def topic (transactionId : Option String) (data : TopicProduceData) (served : Served) : TopicProduceResponse × Served :=
  match broker.timestampType served.handed data.name with
  | .ok timestampType =>
    let (responses, served) :=
      partitions broker transactionId data.name timestampType (data.partitionData.getD []) served
    ({ name := data.name, partitionResponses := some responses }, served)
  | .error failed => (topicError data (storageErrorCode failed), served)

def topics (transactionId : Option String) : List TopicProduceData → Served → List TopicProduceResponse × Served
  | [], served => ([], served)
  | data :: rest, served =>
    let (response, served) := topic broker transactionId data served
    let (responses, served) := topics transactionId rest served
    (response :: responses, served)

def firstError (responses : List TopicProduceResponse) : Option (String × Int32 × ErrorCode) :=
  responses.findSome? fun topic =>
    ((topic.partitionResponses.getD []).find? (·.errorCode != .none)).map fun partition =>
      (topic.name, partition.index, partition.errorCode)

def serve (request : ProduceRequest) (served : Served) : Except Error ProduceResponse × Served :=
  let data := request.topicData.getD []
  let (responses, served) :=
    if (Ack.tryFrom request.acks).isNone then
      (data.map fun topic => topicError topic .invalidRequiredAcks, served)
    else topics broker request.transactionalId data served
  match if request.acks = Ack.none.toI16 then firstError responses else none with
  | some (topic, partition, errorCode) => (.error (.acksZeroProduceFailed topic partition errorCode), served)
  | none => (.ok { responses := some responses, throttleTimeMs := some 0 }, served)

end ProduceService

/-! What the service hands to storage. -/

def greatestTimestamp (timestampType : TimestampType) (now base : Int64) (records : List Record) : Int64 :=
  match timestampType with
  | .createTime => (records.map fun record => base + record.timestampDelta).foldl max noTimestamp
  | .logAppendTime => now

structure Acceptable (codec : Codec) (batch : Deflated.Batch) : Prop where
  crc : batch.crc = batch.computedCrc codec
  data : batch.isControl = false
  known : (Compression.tryFrom batch.attributes).isSome = true
  counted : 1 ≤ batch.recordCount.toNat
  offsets : batch.lastOffsetDelta.toInt + 1 = batch.recordCount.toNat

/-- A batch that was made of the batch that the client sent, for a topic with the timestamp type at the time
`now`. -/
structure WellFormed (codec : Codec) (sent : Deflated.Batch) (timestampType : TimestampType) (now : Int64)
    (batch : Deflated.Batch) : Prop extends Acceptable codec batch where
  /-- The batch decodes within the limit, and its `max_timestamp` is what its timestamp type asks for. -/
  decodes : ∃ records, batch.records codec = some records ∧ records.length = batch.recordCount.toNat ∧
    batch.maxTimestamp = greatestTimestamp timestampType now batch.baseTimestamp records
  marked : TimestampType.from batch.attributes = timestampType
  /-- Only the bit of the timestamp type, `max_timestamp` and the checksum are not the client's. -/
  kept : batch = { sent with attributes := batch.attributes, maxTimestamp := batch.maxTimestamp, crc := batch.crc }
  bits : ∀ mask, TimestampType.timestampTypeBitmask &&& mask = 0 → batch.attributes &&& mask = sent.attributes &&& mask

variable {codec : Codec} {batch validated : Deflated.Batch} {timestampType : TimestampType} {now : Int64}

theorem acceptable_of_rejection (accepted : rejection codec batch = none) : Acceptable codec batch := by
  rw [rejection] at accepted
  split at accepted
  · cases accepted
  next crc =>
    split at accepted
    · cases accepted
    next data =>
      split at accepted
      · cases accepted
      next known =>
        split at accepted
        · cases accepted
        next small =>
          split at accepted
          · cases accepted
          next filled =>
            split at accepted
            · cases accepted
            next offsets =>
              refine ⟨(not_not.mp crc).symm, by simpa using data, ?_, by omega, ?_⟩
              · simpa [BatchAttribute.tryFrom, isSome_iff_ne_none] using known
              · have sum := toInt_checkedAdd32 (not_not.mp offsets)
                rw [Int32.toInt_ofNat_of_lt (by omega)] at sum
                exact sum.symm

theorem eq_of_maxRecordTimestamp {index : Nat}
    (checked : maxRecordTimestamp base lower upper now actualMax index records = .ok (.ok greatest)) :
    greatest = (records.map fun record => base + record.timestampDelta).foldl max actualMax := by
  induction records generalizing actualMax index with
  | nil =>
    cases checked
    rfl
  | cons _ _ ih =>
    rw [maxRecordTimestamp] at checked
    split at checked
    · split at checked
      · cases checked
      next sum =>
        split at checked
        · cases checked
        · rw [map_cons, ← eq_of_checkedAdd64 sum]
          exact ih checked
    · cases checked

theorem of_setTimestamps (stamped : setTimestamps codec batch timestampType base greatest = .ok (.ok validated)) :
    batch.setTimestamps codec timestampType base greatest = .ok validated := by
  rw [setTimestamps] at stamped
  split at stamped
  next given => rw [given, Except.ok.inj (Except.ok.inj stamped)]
  next => cases stamped
  next => cases stamped

theorem Acceptable.stamped (acceptable : Acceptable codec batch) (decoded : batch.records codec = some records)
    (ok : batch.setTimestamps codec timestampType batch.baseTimestamp greatest = .ok validated)
    (right : greatest = greatestTimestamp timestampType now batch.baseTimestamp records) :
    WellFormed codec batch timestampType now validated := by
  obtain ⟨crc, changed⟩ := Deflated.Batch.setTimestamps_eq_ok ok
  generalize validated.crc = computed at changed
  subst changed
  refine ⟨⟨crc, ?_, ?_, acceptable.counted, acceptable.offsets⟩, ⟨records, ?_, ?_, right⟩, ?_, rfl, ?_⟩
  · rw [Deflated.Batch.isControl_mark]
    exact acceptable.data
  · rw [TimestampType.tryFrom_mark]
    exact acceptable.known
  · rw [Deflated.Batch.records_mark]
    exact decoded
  · change records.length = batch.recordCount.toNat
    exact (Deflated.Batch.count_of_records decoded).1
  · exact TimestampType.from_mark _ _
  · intro mask apart
    exact TimestampType.mark_and apart _

theorem Acceptable.rewritten (acceptable : Acceptable codec batch)
    (decoded : batch.records codec = some inflated.records)
    (rewritten : rewriteCreateTime codec batch inflated now = .ok (.ok validated)) :
    WellFormed codec batch .createTime now validated := by
  simp only [rewriteCreateTime] at rewritten
  split at rewritten
  · cases rewritten
  · cases rewritten
  next checked =>
    have right := eq_of_maxRecordTimestamp checked
    split at rewritten
    next unchanged =>
      cases rewritten
      refine ⟨acceptable, ⟨inflated.records, decoded, (Deflated.Batch.count_of_records decoded).1, ?_⟩, unchanged.2,
        rfl, ?_⟩
      · exact unchanged.1.symm.trans right
      · intro mask _
        rfl
    next => exact acceptable.stamped decoded (of_setTimestamps rewritten) right

theorem Acceptable.wellFormed (acceptable : Acceptable codec batch)
    (valid : validateTimestamps codec batch timestampType now = .ok (.ok validated)) :
    WellFormed codec batch timestampType now validated := by
  rw [validateTimestamps] at valid
  split at valid
  · cases valid
  next inflated decoded =>
    have decodes : batch.records codec = some inflated.records := by
      have ok := of_inflateProduced decoded
      rw [Inflated.Batch.tryFromRef] at ok
      cases read : batch.tryRecords codec with
      | error =>
        rw [read] at ok
        cases ok
      | ok =>
        rw [read] at ok
        cases ok
        exact Deflated.Batch.records_of_tryRecords read
    split at valid
    · cases valid
    · cases timestampType with
      | createTime => exact acceptable.rewritten decodes valid
      | logAppendTime => exact acceptable.stamped decodes (of_setTimestamps valid) rfl

namespace ProduceService

variable {broker : Broker} {transactionId : Option String} {name : String} {served : Served}

/-- The batch was made of the only batch of the partition's data, at the reading of the clock that is made for
the partition. -/
def Hands (broker : Broker) (name : String) (timestampType : TimestampType) (data : PartitionProduceData)
    (served : Served) (handed : Handed) : Prop :=
  handed.topition = { topic := name, partition := data.index } ∧ ∃ sent, data.records = some [sent] ∧
    WellFormed broker.codec sent timestampType (broker.clock served.readings) handed.batch

variable {handed : Handed}

theorem partition_hands (listed : handed ∈ (partition broker transactionId name timestampType data served).2.handed) :
    handed ∈ served.handed ∨ Hands broker name timestampType data served handed := by
  rw [partition] at listed
  split at listed
  next batch one =>
    split at listed
    · exact .inl listed
    next accepted =>
      simp only at listed
      split at listed
      · exact .inl listed
      · exact .inl listed
      next valid =>
        rcases mem_cons.mp listed with rfl | before
        · refine .inr ⟨rfl, batch, ?_, (acceptable_of_rejection accepted).wellFormed valid⟩
          cases given : data.records with
          | none =>
            rw [given] at one
            cases one
          | some =>
            rw [given] at one
            exact congrArg some one
        · exact .inl before
  · exact .inl listed

theorem partitions_hands
    (listed : handed ∈ (partitions broker transactionId name timestampType batches served).2.handed) :
    handed ∈ served.handed ∨ ∃ first data rest, batches = first ++ data :: rest ∧ Hands broker name timestampType data
      (partitions broker transactionId name timestampType first served).2 handed := by
  induction batches generalizing served with
  | nil => exact .inl listed
  | cons data rest ih =>
    rcases ih listed with before | ⟨first, other, rest, rfl, hands⟩
    · rcases partition_hands before with earlier | hands
      · exact .inl earlier
      · exact .inr ⟨[], data, rest, rfl, hands⟩
    · exact .inr ⟨data :: first, other, rest, rfl, hands⟩

/-- The batch was made of a batch of the topic's data, for the timestamp type that the topic has when the service
comes to it. -/
def HandsTopic (broker : Broker) (transactionId : Option String) (topic : TopicProduceData) (served : Served)
    (handed : Handed) : Prop :=
  ∃ timestampType, broker.timestampType served.handed topic.name = .ok timestampType ∧
    ∃ first data rest, topic.partitionData.getD [] = first ++ data :: rest ∧ Hands broker topic.name timestampType
      data (partitions broker transactionId topic.name timestampType first served).2 handed

theorem topic_hands (listed : handed ∈ (topic broker transactionId data served).2.handed) :
    handed ∈ served.handed ∨ HandsTopic broker transactionId data served handed := by
  rw [topic] at listed
  split at listed
  next timestampType found =>
    rcases partitions_hands listed with before | hands
    · exact .inl before
    · exact .inr ⟨timestampType, found, hands⟩
  next => exact .inl listed

theorem topics_hands (listed : handed ∈ (topics broker transactionId data served).2.handed) :
    handed ∈ served.handed ∨ ∃ first topic rest, data = first ++ topic :: rest ∧
      HandsTopic broker transactionId topic (topics broker transactionId first served).2 handed := by
  induction data generalizing served with
  | nil => exact .inl listed
  | cons topic rest ih =>
    rcases ih listed with before | ⟨first, other, rest, rfl, hands⟩
    · rcases topic_hands before with earlier | hands
      · exact .inl earlier
      · exact .inr ⟨[], topic, rest, rfl, hands⟩
    · exact .inr ⟨topic :: first, other, rest, rfl, hands⟩

theorem serve_hands (listed : handed ∈ (serve broker request served).2.handed) :
    handed ∈ served.handed ∨ ∃ first topic rest, request.topicData.getD [] = first ++ topic :: rest ∧
      HandsTopic broker request.transactionalId
        topic (topics broker request.transactionalId first served).2 handed := by
  have same : (serve broker request served).2 = (if (Ack.tryFrom request.acks).isNone then
        ((request.topicData.getD []).map fun topic => topicError topic .invalidRequiredAcks, served)
      else topics broker request.transactionalId (request.topicData.getD []) served).2 := by
    simp only [serve]
    split <;> rfl
  rw [same] at listed
  split at listed
  · exact .inl listed
  · exact topics_hands listed

/-- Every batch that a request hands to storage is well formed. -/
theorem handed_batches_are_well_formed (broker : Broker) (request : ProduceRequest) :
    ∀ handed ∈ (serve broker request { handed := [], readings := 0 }).2.handed,
      ∃ first topic rest, request.topicData.getD [] = first ++ topic :: rest ∧ HandsTopic broker request.transactionalId
        topic (topics broker request.transactionalId first { handed := [], readings := 0 }).2 handed := by
  intro handed listed
  rcases serve_hands listed with before | hands
  · cases before
  · exact hands

def plainCodec : Codec where
  compress _ bytes := some bytes
  inflate _ bytes := some bytes
  crc32c bytes := UInt32.ofNat bytes.length

def stampingBroker : Broker where
  codec := plainCodec
  clock reading := 1000 + Int64.ofNat reading
  timestampType _ name := if name = "orders" then .ok .logAppendTime else .error (.api .unknownTopicOrPartition)
  produce before _ := .ok (Int64.ofNat before.length)

def emptyRecord : Deflated.Batch where
  baseOffset := 0
  batchLength := 56
  partitionLeaderEpoch := -1
  magic := 2
  crc := 47
  attributes := 0
  lastOffsetDelta := 0
  baseTimestamp := 900
  maxTimestamp := 900
  producerId := -1
  producerEpoch := -1
  baseSequence := -1
  recordCount := 1
  recordData := [12, 0, 0, 0, 1, 1, 0]
  measured := by decide

def ordersRequest : ProduceRequest where
  transactionalId := none
  acks := 1
  timeoutMs := 500
  topicData := some [{ name := "orders", partitionData := some [{ index := 3, records := some [emptyRecord] }] }]

theorem handed_batches_are_well_formed_orders :
    ∃ handed ∈ (serve stampingBroker ordersRequest { handed := [], readings := 0 }).2.handed,
      ∃ first topic rest, ordersRequest.topicData.getD [] = first ++ topic :: rest ∧ HandsTopic stampingBroker none
        topic (topics stampingBroker none first { handed := [], readings := 0 }).2 handed := by
  have listed : ({ transactionId := none
                   topition := { topic := "orders", partition := 3 }
                   batch := { emptyRecord with attributes := 8, maxTimestamp := 1000 } }) ∈
      (serve stampingBroker ordersRequest { handed := [], readings := 0 }).2.handed := by
    decide +kernel
  exact ⟨_, listed, handed_batches_are_well_formed stampingBroker ordersRequest _ listed⟩

end ProduceService

end Nisshi.Storage
