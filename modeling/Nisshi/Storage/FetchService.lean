import Nisshi.Lib.Program
import Nisshi.Lib.Spending
import Nisshi.SansIo.FetchMessages
import Nisshi.Storage.Group
import Nisshi.Storage.OffsetStage
import Nisshi.Storage.ProduceService

/-! `FetchService`: it reads the partitions of a `Fetch` from storage, round after round, until it has
`min_bytes` or `max_wait` has passed. A round spends `max_bytes` over its partitions, and the reads of a
partition spend what the round gives it. -/

namespace Nisshi.Storage

open Nisshi.SansIo Nisshi.Lib

abbrev Instant := Nat

inductive TopicId where
  | name (name : String)
  | id (id : TopicIdBytes)
  deriving DecidableEq

def TopicId.ofFetchTopic (value : FetchTopic) : TopicId :=
  match value.topic, value.topicId with
  | some topic, _ => .name topic
  | none, some bytes => .id bytes
  | none, none => .id nullTopicId

def IsolationLevel.tryFrom (value : Int8) : Option IsolationLevel :=
  if value = 0 then some .readUncommitted
  else if value = 1 then some .readCommitted
  else none

structure MetadataResponseTopic where
  errorCode : ErrorCode
  name : Option String
  topicId : Option TopicIdBytes
  partitions : Option (List Int32)
  deriving DecidableEq

/-- What a `Fetch` calls: the clock and the storage, which share a state that each call can change. A read is
given its deadline, and answers `none` if it was abandoned there. -/
structure FetchStorage (σ : Type) where
  now : σ → Instant × σ
  sleep : Duration → σ → Unit × σ
  /-- The first topic of the answer of `metadata`. -/
  metadata : TopicId → σ → Except Error (Option MetadataResponseTopic) × σ
  offsetStage : Instant → Topition → σ → Option (Except Error OffsetStage) × σ
  fetch : Instant → Topition → (offset : Int) → (minBytes maxBytes : Nat) → IsolationLevel → Duration → σ →
    Option (Except Error (List Deflated.Batch)) × σ

abbrev Fetching (σ : Type) := Program σ Error

def fetchDeadlineOverhead : Duration :=
  fromMillis 5000

def minStopMargin : Duration :=
  fromMillis 50

def defaultMaxBytes : Nat :=
  5 * 1024 * 1024

def fetchDeadline (startedAt : Instant) (maxWait : Duration) : Instant :=
  startedAt + maxWait + fetchDeadlineOverhead

def stopMargin (timeLeft : Duration) : Duration :=
  min (max (timeLeft / 4) minStopMargin) timeLeft

def byteSize (batches : List Deflated.Batch) : Nat :=
  Spending.total (fun batch => batch.recordData.length) batches

def u32TryFrom {σ : Type} (value : Nat) : Fetching σ Nat :=
  if value < 2 ^ 32 then pure value else throw .other

def maxOffset (batch : Deflated.Batch) : Int :=
  batch.baseOffset.toInt + batch.lastOffsetDelta.toInt

structure ValidatedFetchRequest where
  isolationLevel : IsolationLevel
  maxWait : Duration
  minBytes : UInt32
  maxBytes : UInt32
  topics : List FetchTopic
  deriving DecidableEq

structure MalformedFetchRequest where
  field : String
  value : Int
  topics : List FetchTopic
  deriving DecidableEq

namespace FetchService

def partitionData (partitionIndex : Int32) (offsetStage : OffsetStage) (batches : List Deflated.Batch) :
    PartitionData where
  partitionIndex := partitionIndex
  errorCode := .none
  highWatermark := offsetStage.highWatermark
  lastStableOffset := some offsetStage.lastStable
  logStartOffset := some offsetStage.logStart
  divergingEpoch := none
  snapshotId := none
  preferredReadReplica := some (-1)
  records := if batches.isEmpty then none else some batches

def unknownOffsets (partitionIndex : Int32) (errorCode : ErrorCode) : PartitionData where
  partitionIndex := partitionIndex
  errorCode := errorCode
  highWatermark := -1
  lastStableOffset := some (-1)
  logStartOffset := some (-1)
  divergingEpoch := none
  snapshotId := none
  preferredReadReplica := some (-1)
  records := none

def offsetOutOfRange (partitionIndex : Int32) : PartitionData :=
  unknownOffsets partitionIndex .offsetOutOfRange

def partitionError (partitionIndex : Int32) (errorCode : ErrorCode) : PartitionData where
  partitionIndex := partitionIndex
  errorCode := errorCode
  highWatermark := 0
  lastStableOffset := some 0
  logStartOffset := some (-1)
  divergingEpoch := some { epoch := -1, endOffset := -1 }
  snapshotId := some { endOffset := -1, epoch := -1 }
  preferredReadReplica := some (-1)
  records := none

def unknownPartition (partitionIndex : Int32) : PartitionData :=
  partitionError partitionIndex .unknownTopicOrPartition

def unknownToStorage (tp : Topition) : PartitionData :=
  unknownPartition tp.partition

def topicErrorResponse (fetch : FetchTopic) (errorCode : ErrorCode) : FetchableTopicResponse where
  topic := fetch.topic
  topicId := fetch.topicId
  partitions := fetch.partitions.map fun partitions =>
    partitions.map fun partition => partitionError partition.partition errorCode

def unknownTopicResponse (fetch : FetchTopic) : FetchableTopicResponse where
  topic := fetch.topic
  topicId := fetch.topicId
  partitions := fetch.partitions.map fun partitions =>
    partitions.map fun partition => unknownPartition partition.partition

def covering (offsetStage : OffsetStage) (next : Int) (isolation : IsolationLevel) : OffsetStage where
  highWatermark := max offsetStage.highWatermark next
  lastStable := match isolation with
    | .readCommitted => max offsetStage.lastStable next
    | .readUncommitted => offsetStage.lastStable
  logStart := offsetStage.logStart

def coveredTo (offsetStage : OffsetStage) : IsolationLevel → Int
  | .readCommitted => offsetStage.lastStable
  | .readUncommitted => offsetStage.highWatermark

structure Reading where
  batches : List Deflated.Batch
  offset : Int
  maxBytes : Nat
  deriving DecidableEq

inductive Read where
  | unknown
  | ended (reading : Reading) (stalled : Bool)
  deriving DecidableEq

structure Round where
  left : Nat
  maxBytes : Nat
  isFirstNonEmpty : Bool
  deriving DecidableEq

variable {σ : Type} (storage : FetchStorage σ)

def nextPartitionDeadline (fetchDeadline : Instant) (left : Nat) : Fetching σ Instant :=
  if left ≤ 1 then pure fetchDeadline
  else do
    let now ← Program.call storage.now
    pure (now + (fetchDeadline - now) / 2)

def read (partitionDeadline stopAt : Instant) (tp : Topition) (minBytes : Nat) (isolation : IsolationLevel)
    (reading : Reading) : Fetching σ (Reading ⊕ Read) :=
  if reading.maxBytes = 0 then pure (.inr (.ended reading false))
  else do
    let now ← Program.call storage.now
    let fetched ← Program.call
      (storage.fetch partitionDeadline tp reading.offset minBytes reading.maxBytes isolation (stopAt - now))
    match fetched with
    | none => pure (.inr (.ended reading true))
    | some (.error (.api .unknownTopicOrPartition)) => pure (.inr .unknown)
    | some (.error error) => throw error
    | some (.ok fetched) =>
      let bytes ← u32TryFrom (byteSize fetched)
      let maxBytes := reading.maxBytes - bytes
      if fetched.head?.all fun batch => batch.recordCount = 0 then
        pure (.inr (.ended { reading with maxBytes := maxBytes } false))
      else
        let reading :=
          { batches := reading.batches ++ fetched
            -- A batch can have gaps, so the next offset is not the record count.
            offset := (fetched.map fun batch => maxOffset batch + 1).max?.getD reading.offset
            maxBytes := maxBytes }
        let now ← Program.call storage.now
        if stopAt ≤ now then pure (.inr (.ended reading false)) else pure (.inl reading)

def answeringStage (fetchDeadline : Instant) (left : Nat) (isolation : IsolationLevel) (tp : Topition)
    (offsetStage : OffsetStage) (reading : Reading) (stalled : Bool) : Fetching σ (Option OffsetStage) :=
  if reading.batches.isEmpty ∨ reading.offset ≤ coveredTo offsetStage isolation then pure (some offsetStage)
  else if stalled then pure (some (covering offsetStage reading.offset isolation))
  else do
    let deadline ← nextPartitionDeadline storage fetchDeadline left
    match ← Program.call (storage.offsetStage deadline tp) with
    | none => pure (some (covering offsetStage reading.offset isolation))
    | some (.error (.api .unknownTopicOrPartition)) => pure none
    | some (.error error) => throw error
    | some (.ok offsetStage) => pure (some offsetStage)

def readPartition (fuel : Nat) (fetchDeadline partitionDeadline : Instant) (left minBytes maxBytes : Nat)
    (isolation : IsolationLevel) (tp : Topition) (fetchOffset : Int) (offsetStage : OffsetStage) :
    Fetching σ PartitionData := do
  let now ← Program.call storage.now
  let stopAt := partitionDeadline - stopMargin (partitionDeadline - now)
  let ended ← Program.loop (read storage partitionDeadline stopAt tp minBytes isolation) fuel
    { batches := [], offset := fetchOffset, maxBytes := maxBytes }
  match ended with
  | .unknown => pure (unknownToStorage tp)
  | .ended reading stalled =>
    match ← answeringStage storage fetchDeadline left isolation tp offsetStage reading stalled with
    | none => pure (unknownToStorage tp)
    | some offsetStage => pure (partitionData tp.partition offsetStage reading.batches)

def fetchPartition (fuel : Nat) (fetchDeadline : Instant) (left minBytes maxBytes : Nat)
    (isolation : IsolationLevel) (topic : String) (partition : FetchPartition) : Fetching σ PartitionData := do
  let partitionDeadline ← nextPartitionDeadline storage fetchDeadline left
  let tp : Topition := { topic := topic, partition := partition.partition }
  match ← Program.call (storage.offsetStage partitionDeadline tp) with
  | none => pure (unknownOffsets partition.partition .none)
  | some (.error (.api .unknownTopicOrPartition)) => pure (unknownToStorage tp)
  | some (.error error) => throw error
  | some (.ok offsetStage) =>
    if partition.fetchOffset < offsetStage.logStart then pure (offsetOutOfRange partition.partition)
    else if partition.fetchOffset > offsetStage.highWatermark then
      pure (partitionData partition.partition offsetStage [])
    else
      readPartition storage fuel fetchDeadline partitionDeadline left minBytes maxBytes isolation tp
        partition.fetchOffset offsetStage

def inTopic (partitionCount : Nat) (partition : FetchPartition) : Bool :=
  0 ≤ partition.partition.toInt && partition.partition.toInt < partitionCount

def partitionMaxBytes (round : Round) (partition : FetchPartition) : Nat :=
  if round.isFirstNonEmpty then round.maxBytes
  else min partition.partitionMaxBytes.toUInt32.toNat round.maxBytes

def partition (fuel : Nat) (fetchDeadline : Instant) (minBytes : Nat) (isolation : IsolationLevel)
    (name : String) (partitionCount : Nat) (round : Round) (partition : FetchPartition) :
    Fetching σ (PartitionData × Round) :=
  if inTopic partitionCount partition then do
    let data ← fetchPartition storage fuel fetchDeadline round.left minBytes (partitionMaxBytes round partition)
      isolation name partition
    let bytes ← u32TryFrom (byteSize data.batches)
    pure (data,
      { left := round.left - 1
        maxBytes := round.maxBytes - bytes
        isFirstNonEmpty := round.isFirstNonEmpty && data.records.any List.isEmpty })
  else pure (unknownPartition partition.partition, { round with left := round.left - 1 })

def fetchTopic (fuel : Nat) (fetchDeadline : Instant) (minBytes : Nat) (isolation : IsolationLevel)
    (round : Round) (fetch : FetchTopic) : Fetching σ (FetchableTopicResponse × Round) := do
  match ← Program.call (storage.metadata (TopicId.ofFetchTopic fetch)) with
  | .error error => throw error
  | .ok (some ⟨.none, some name, topicId, topicPartitions⟩) =>
    let partitionCount := (topicPartitions.map List.length).getD 0
    let (partitions, round) ← Program.mapAccum
      (partition storage fuel fetchDeadline minBytes isolation name partitionCount) round
      (fetch.partitions.getD [])
    pure ({ topic := fetch.topic, topicId := topicId, partitions := some partitions }, round)
  | .ok _ =>
    pure (unknownTopicResponse fetch, { round with left := round.left - (fetch.partitions.map List.length).getD 0 })

def partitionCount (topics : List FetchTopic) : Nat :=
  (topics.map fun topic => (topic.partitions.map List.length).getD 0).sum

def answersWithoutWaiting (responses : List FetchableTopicResponse) : Bool :=
  let errorCodes := responses.flatMap fun topic => (topic.partitions.getD []).map PartitionData.errorCode
  !errorCodes.isEmpty && (errorCodes.any (fun code => code ≠ .none ∧ code ≠ .unknownTopicOrPartition) ||
      errorCodes.all (· ≠ .none))

def fetchRound (fuel : Nat) (startedAt : Instant) (request : ValidatedFetchRequest) :
    Fetching σ (Unit ⊕ List FetchableTopicResponse) := do
  let fetchStartedAt ← Program.call storage.now
  let (responses, _) ← Program.mapAccum
    (fetchTopic storage fuel (fetchDeadline startedAt request.maxWait) request.minBytes.toNat
      request.isolationLevel)
    { left := partitionCount request.topics, maxBytes := request.maxBytes.toNat, isFirstNonEmpty := true }
    request.topics
  let bytes ← u32TryFrom (byteSize (responses.flatMap FetchableTopicResponse.batches))
  let now ← Program.call storage.now
  let remaining := request.maxWait - (now - startedAt)
  if remaining = 0 then pure (.inr responses)
  else if request.minBytes.toNat ≤ bytes then pure (.inr responses)
  else if answersWithoutWaiting responses then pure (.inr responses)
  else do
    let now ← Program.call storage.now
    if !responses.isEmpty && remaining < now - fetchStartedAt then pure (.inr responses)
    else do
      Program.call (storage.sleep (remaining / 2))
      pure (.inl ())

def fetch (fuel : Nat) (request : ValidatedFetchRequest) : Fetching σ (List FetchableTopicResponse) :=
  if request.topics.isEmpty then pure []
  else do
    let startedAt ← Program.call storage.now
    Program.loop (fun _ => fetchRound storage fuel startedAt request) fuel ()

def serve (fuel : Nat) (request : ValidatedFetchRequest) : Fetching σ FetchResponse := do
  let responses ← fetch storage fuel request
  pure { throttleTimeMs := some 0, errorCode := some .none, sessionId := some 0, responses := some responses }

end FetchService

def MalformedFetchRequest.intoResponse (malformed : MalformedFetchRequest) : FetchResponse where
  throttleTimeMs := some 0
  errorCode := some .invalidRequest
  sessionId := some 0
  responses := some (malformed.topics.map fun topic => FetchService.topicErrorResponse topic .invalidRequest)

namespace ValidatedFetchRequest

def field (topics : List FetchTopic) (field : String) (value : Int32) : Except MalformedFetchRequest Nat :=
  if 0 ≤ value.toInt then .ok value.toInt.toNat else .error ⟨field, value.toInt, topics⟩

def isolation (topics : List FetchTopic) : Option Int8 → Except MalformedFetchRequest IsolationLevel
  | none => .ok .readUncommitted
  | some value =>
    match IsolationLevel.tryFrom value with
    | some isolationLevel => .ok isolationLevel
    | none => .error ⟨"isolation_level", value.toInt, topics⟩

def limit (topics : List FetchTopic) : Option Int32 → Except MalformedFetchRequest Nat
  | none => .ok defaultMaxBytes
  | some maxBytes => (field topics "max_bytes" maxBytes).map (min · defaultMaxBytes)

def tryFrom (request : FetchRequest) : Except MalformedFetchRequest ValidatedFetchRequest :=
  match request.topics with
  | none =>
    .ok
      { isolationLevel := .readUncommitted, maxWait := 0, minBytes := 0, maxBytes := 0, topics := [] }
  | some topics => do
    let isolationLevel ← isolation topics request.isolationLevel
    let maxWait ← field topics "max_wait_ms" request.maxWaitMs
    let minBytes ← field topics "min_bytes" request.minBytes
    let maxBytes ← limit topics request.maxBytes
    .ok
      { isolationLevel := isolationLevel
        maxWait := fromMillis maxWait
        minBytes := UInt32.ofNat (min minBytes maxBytes)
        maxBytes := UInt32.ofNat maxBytes
        topics := topics }

end ValidatedFetchRequest

def FetchService.serveRequest {σ : Type} (storage : FetchStorage σ) (fuel : Nat) (request : FetchRequest) :
    Fetching σ FetchResponse :=
  match ValidatedFetchRequest.tryFrom request with
  | .ok validated => FetchService.serve storage fuel validated
  | .error malformed => pure malformed.intoResponse

end Nisshi.Storage
