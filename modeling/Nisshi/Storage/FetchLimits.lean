import Nisshi.Storage.FetchService

/-! How many bytes of record data a `Fetch` answers with, over a storage whose reads go over their limit by at
most one batch: the answer as a whole, and each of its partitions. -/

namespace Nisshi.Storage

open Nisshi.SansIo Nisshi.Lib Nisshi.Lib.Spending Nisshi.Lib.Program Option

variable {σ : Type} {storage : FetchStorage σ}

/-- All batches of a read but its last one are within the limit of the read. -/
def FetchStorage.Bounded (storage : FetchStorage σ) : Prop :=
  ∀ {deadline tp offset minBytes maxBytes isolation wait s batches},
    (storage.fetch deadline tp offset minBytes maxBytes isolation wait s).1 = some (.ok batches) →
      byteSize batches.dropLast ≤ maxBytes

namespace FetchService

theorem returns_u32TryFrom (value : Nat) :
    Returns (u32TryFrom value : Fetching σ Nat) fun converted => converted = value ∧ value < 2 ^ 32 := by
  rw [u32TryFrom]
  split
  next fits => exact returns_pure ⟨rfl, fits⟩
  next => exact returns_throw

@[simp] theorem batches_partitionData (index : Int32) (stage : OffsetStage) (batches : List Deflated.Batch) :
    (partitionData index stage batches).batches = batches := by
  cases batches <;> rfl

/-- What was bought of `limit`: nothing if there was nothing to spend. -/
structure Bought (limit : Nat) (batches : List Deflated.Batch) : Prop where
  bounded : byteSize batches.dropLast ≤ limit
  stopped : limit = 0 → batches = []

theorem Bought.nothing (limit : Nat) : Bought limit [] where
  bounded := Nat.zero_le _
  stopped := fun _ => rfl

variable {limit minBytes fuel maxBytes : Nat} {batches : List Deflated.Batch} {isolation : IsolationLevel}
  {data : PartitionData} {round : Round} {entry : FetchPartition} {topic : FetchTopic}
  {request : ValidatedFetchRequest}

theorem Bought.mono (bought : Bought limit batches) (le : limit ≤ more) : Bought more batches where
  bounded := bought.bounded.trans le
  stopped := fun none => bought.stopped (by omega)

structure Reading.Within (limit : Nat) (reading : Reading) : Prop where
  spent : Spent (fun batch => batch.recordData.length) limit reading.maxBytes reading.batches
  stopped : limit = 0 → reading.batches = []
  left : reading.maxBytes ≤ limit

theorem Reading.Within.bought {reading : Reading} (within : reading.Within limit) : Bought limit reading.batches where
  bounded := within.spent.dropLast_le
  stopped := within.stopped

def Read.Within (limit : Nat) : Read → Prop
  | .unknown => True
  | .ended reading _ => reading.Within limit

theorem returns_read (bounded : storage.Bounded) {tp : Topition} (within : reading.Within limit) :
    Returns (read storage partitionDeadline stopAt tp minBytes isolation reading)
      (Sum.elim (Reading.Within limit) (Read.Within limit)) := by
  rw [read]
  split
  next => exact returns_pure within
  next unspent =>
    have positive : limit ≠ 0 := by
      have := within.left
      omega
    refine returns_bind fun now => ?_
    have fetches : Returns (call (storage.fetch partitionDeadline tp reading.offset minBytes reading.maxBytes
        isolation (stopAt - now)) : Fetching σ _)
        fun fetched => ∀ batches, fetched = some (.ok batches) → byteSize batches.dropLast ≤ reading.maxBytes :=
      returns_call fun s batches answered => bounded answered
    refine fetches.bind fun fetched reads => ?_
    match fetched with
    | none => exact returns_pure within
    | some (.error error) =>
      cases error with
      | api code => cases code <;> first | exact returns_pure True.intro | exact returns_throw
      | _ => exact returns_throw
    | some (.ok batches) =>
      refine Returns.bind (returns_u32TryFrom _) fun bytes converted => ?_
      obtain ⟨rfl, -⟩ := converted
      have less : reading.maxBytes - byteSize batches ≤ limit := by
        have := within.left
        omega
      have next : Reading.Within limit
          { batches := reading.batches ++ batches
            offset := (batches.map fun batch => maxOffset batch + 1).max?.getD reading.offset
            maxBytes := reading.maxBytes - byteSize batches } :=
        { spent := within.spent.append (reads batches rfl) fun none => absurd none unspent
          stopped := fun none => absurd none positive
          left := less }
      split
      next =>
        -- The batches that end the reads are not returned.
        exact returns_pure
          { spent := within.spent.anti (Nat.sub_le _ _), stopped := within.stopped, left := less }
      next =>
        refine returns_bind fun now => ?_
        split
        next => exact returns_pure next
        next => exact returns_pure next

/-- What answers a partition that may spend `limit` bytes: it has records, or says that it has none. -/
structure Answers (limit : Nat) (data : PartitionData) : Prop where
  bought : Bought limit data.batches
  records : data.records.any List.isEmpty = false

theorem answers_none (none : data.records = none) : Answers limit data where
  bought := by
    rw [PartitionData.batches, none]
    exact .nothing limit
  records := by
    rw [none]
    rfl

theorem answers_partitionData {index : Int32} (bought : Bought limit batches) :
    Answers limit (partitionData index stage batches) where
  bought := by rwa [batches_partitionData]
  records := by cases batches <;> rfl

theorem returns_readPartition (bounded : storage.Bounded) {fetchDeadline : Instant} {fetchOffset : Int} :
    Returns (readPartition storage fuel fetchDeadline partitionDeadline left minBytes maxBytes isolation tp
      fetchOffset offsetStage) (Answers maxBytes) := by
  refine returns_bind fun now => ?_
  have start : Reading.Within maxBytes { batches := [], offset := fetchOffset, maxBytes := maxBytes } :=
    { spent := .nothing, stopped := fun _ => rfl, left := le_rfl }
  refine Returns.bind (returns_loop (Reading.Within maxBytes) (fun _ => returns_read bounded) start) ?_
  intro ended within
  cases ended with
  | unknown => exact returns_pure (answers_none rfl)
  | ended =>
    refine returns_bind fun stage => ?_
    cases stage with
    | none => exact returns_pure (answers_none rfl)
    | some => exact returns_pure (answers_partitionData within.bought)

theorem returns_fetchPartition (bounded : storage.Bounded) {fetchDeadline : Instant} {topic : String}
    {partition : FetchPartition} :
    Returns (fetchPartition storage fuel fetchDeadline left minBytes maxBytes isolation topic partition)
      (Answers maxBytes) := by
  refine returns_bind fun deadline => returns_bind fun stage => ?_
  match stage with
  | none => exact returns_pure (answers_none rfl)
  | some (.error error) =>
    cases error with
    | api code => cases code <;> first | exact returns_pure (answers_none rfl) | exact returns_throw
    | _ => exact returns_throw
  | some (.ok stage) =>
    change Returns (ite ..) _
    split
    next => exact returns_pure (answers_none rfl)
    next =>
      split
      next => exact returns_pure (answers_partitionData (.nothing _))
      next => exact returns_readPartition bounded

/-- What a partition takes of a round. Only the first partition that the topics have finds the flag set. -/
structure Takes (partitionCount : Nat) (round : Round) (partition : FetchPartition) (data : PartitionData)
    (next : Round) : Prop where
  bought : Bought (partitionMaxBytes round partition) data.batches
  spends : next.maxBytes = round.maxBytes - byteSize data.batches
  first : next.isFirstNonEmpty = (round.isFirstNonEmpty && !inTopic partitionCount partition)
  outside : inTopic partitionCount partition = false → data = unknownPartition partition.partition

theorem partitionMaxBytes_le (round : Round) (partition : FetchPartition) :
    partitionMaxBytes round partition ≤ round.maxBytes := by
  rw [partitionMaxBytes]
  split
  next => exact le_rfl
  next => exact min_le_right _ _

theorem returns_partition (bounded : storage.Bounded) {partitionCount : Nat} {fetchDeadline : Instant} :
    Returns (partition storage fuel fetchDeadline minBytes isolation name partitionCount round entry)
      fun (data, next) => Takes partitionCount round entry data next := by
  rw [partition]
  split
  next inside =>
    refine (returns_fetchPartition bounded).bind fun data answers => ?_
    refine Returns.bind (returns_u32TryFrom _) fun bytes converted => ?_
    obtain ⟨rfl, -⟩ := converted
    exact returns_pure
      { bought := answers.bought
        spends := rfl
        first := by simp only [answers.records, inside, Bool.not_true]
        outside := fun outside => absurd (inside.symm.trans outside) (by decide) }
  next outside =>
    exact returns_pure
      { bought := .nothing _
        spends := rfl
        first := by simp only [outside, Bool.not_false, Bool.and_true]
        outside := fun _ => rfl }

theorem Takes.spent {partitionCount : Nat} (takes : Takes partitionCount round entry data next)
    (spent : Spent (fun batch => batch.recordData.length) limit round.maxBytes batches) :
    Spent (fun batch => batch.recordData.length) limit next.maxBytes (batches ++ data.batches) := by
  have bought := takes.bought.mono (partitionMaxBytes_le round entry)
  rw [takes.spends]
  exact spent.append bought.bounded bought.stopped

theorem batches_topicErrorResponse (topic : FetchTopic) (errorCode : ErrorCode) :
    (topicErrorResponse topic errorCode).batches = [] := by
  rw [FetchableTopicResponse.batches, topicErrorResponse]
  cases topic.partitions with
  | none => rfl
  | some partitions =>
    rw [List.flatMap_eq_nil_iff]
    intro data member
    obtain ⟨_, -, rfl⟩ := List.mem_map.mp member
    rfl

@[simp] theorem batches_unknownTopicResponse (topic : FetchTopic) : (unknownTopicResponse topic).batches = [] :=
  batches_topicErrorResponse topic .unknownTopicOrPartition

theorem returns_fetchTopic {fetchDeadline : Instant}
    (unknown : ∀ left, post (unknownTopicResponse topic, { round with left := left })) (known : ∀ name partitionCount,
      Returns (mapAccum (partition storage fuel fetchDeadline minBytes isolation name partitionCount) round
        (topic.partitions.getD [])) fun (partitions, next) =>
          ∀ name topicId, post (⟨name, topicId, some partitions⟩, next)) :
    Returns (fetchTopic storage fuel fetchDeadline minBytes isolation round topic) post := by
  refine returns_bind fun metadata => ?_
  match metadata with
  | .error error => exact returns_throw
  | .ok none => exact returns_pure (unknown _)
  | .ok (some ⟨code, none, topicId, partitions⟩) => cases code <;> exact returns_pure (unknown _)
  | .ok (some ⟨code, some name, topicId, partitions⟩) =>
    cases code
    case none => exact (known name _).bind fun answered after => returns_pure (after _ _)
    all_goals exact returns_pure (unknown _)

abbrev Within (limit : Nat) (round : Round) (batches : List Deflated.Batch) : Prop :=
  Spent (fun batch => batch.recordData.length) limit round.maxBytes batches

theorem returns_fetchTopic_within (bounded : storage.Bounded) {fetchDeadline : Instant}
    (within : Within limit round batches) :
    Returns (fetchTopic storage fuel fetchDeadline minBytes isolation round topic) fun (response, next) =>
      Within limit next (batches ++ response.batches) := by
  refine returns_fetchTopic ?_ fun name partitionCount => ?_
  · intro left
    simpa using within
  · refine (returns_mapAccum (fun _ results round =>
      Within limit round (batches ++ results.flatMap PartitionData.batches)) ?_ ?_).mono ?_
    · intro done results round item rest _ before
      refine (returns_partition bounded).mono ?_
      rintro ⟨_, _⟩ takes
      simpa using takes.spent before
    · simpa using within
    · rintro ⟨_, _⟩ after _ _
      exact after

def Round.start (request : ValidatedFetchRequest) : Round where
  left := partitionCount request.topics
  maxBytes := request.maxBytes.toNat
  isFirstNonEmpty := true

theorem returns_fetch (empty : request.topics = [] → post []) (answered : ∀ fetchDeadline,
      Returns (mapAccum (fetchTopic storage fuel fetchDeadline request.minBytes.toNat request.isolationLevel)
        (Round.start request) request.topics) fun (responses, _) => post responses) :
    Returns (fetch storage fuel request) post := by
  rw [fetch]
  split
  next none => exact returns_pure (empty (List.isEmpty_iff.mp none))
  next =>
    refine returns_bind fun startedAt => returns_loop (fun _ => True) (fun _ _ => ?_) True.intro
    refine returns_bind fun fetchStartedAt => (answered _).bind ?_
    rintro ⟨_, _⟩ meets
    refine returns_bind fun bytes => returns_bind fun now => ?_
    dsimp only
    split
    next => exact returns_pure meets
    next =>
      split
      next => exact returns_pure meets
      next =>
        split
        next => exact returns_pure meets
        next =>
          refine returns_bind fun now => ?_
          split
          next => exact returns_pure meets
          next => exact returns_bind fun _ => returns_pure True.intro

theorem returns_serve_within (bounded : storage.Bounded) : Returns (serve storage fuel request) fun response =>
      byteSize response.batches.dropLast ≤ request.maxBytes.toNat := by
  have answered : Returns (fetch storage fuel request) fun responses =>
      byteSize (responses.flatMap FetchableTopicResponse.batches).dropLast ≤ request.maxBytes.toNat := by
    refine returns_fetch (fun _ => Nat.zero_le _) fun fetchDeadline => ?_
    refine (returns_mapAccum (fun _ results round =>
      Within request.maxBytes.toNat round (results.flatMap FetchableTopicResponse.batches)) ?_ .nothing).mono ?_
    · intro done results round item rest _ before
      refine (returns_fetchTopic_within bounded before).mono ?_
      simp
    · rintro ⟨_, _⟩ within
      exact within.dropLast_le
  exact answered.bind fun responses meets => returns_pure meets

def limitOf (request : FetchRequest) : Nat :=
  (request.maxBytes.map fun maxBytes => maxBytes.toInt.toNat).getD defaultMaxBytes

theorem limit_le {request : FetchRequest}
    (limited : ValidatedFetchRequest.limit topics request.maxBytes = .ok maxBytes) : maxBytes ≤ limitOf request := by
  rw [limitOf]
  cases requested : request.maxBytes with
  | none =>
    rw [requested] at limited
    cases limited
    exact le_rfl
  | some =>
    rw [requested, ValidatedFetchRequest.limit, ValidatedFetchRequest.field] at limited
    split at limited
    next =>
      cases limited
      exact min_le_left _ _
    next => cases limited

theorem maxBytes_le_of_tryFrom {request : FetchRequest} (ok : ValidatedFetchRequest.tryFrom request = .ok validated) :
    validated.maxBytes.toNat ≤ limitOf request := by
  rw [ValidatedFetchRequest.tryFrom] at ok
  split at ok
  next =>
    cases ok
    exact Nat.zero_le _
  next =>
    obtain ⟨_, -, ok⟩ := bind_eq_ok_iff.mp ok
    obtain ⟨_, -, ok⟩ := bind_eq_ok_iff.mp ok
    obtain ⟨_, -, ok⟩ := bind_eq_ok_iff.mp ok
    obtain ⟨_, limited, ok⟩ := bind_eq_ok_iff.mp ok
    cases ok
    exact (Nat.mod_le _ _).trans (limit_le limited)

def oneByte : Deflated.Batch where
  baseOffset := 0
  batchLength := 50
  partitionLeaderEpoch := -1
  magic := 2
  crc := 0
  attributes := 0
  lastOffsetDelta := 0
  baseTimestamp := 0
  maxTimestamp := 0
  producerId := -1
  producerEpoch := 0
  baseSequence := 0
  recordCount := 1
  recordData := [0]
  measured := by decide

def threeBatches : FetchStorage Unit where
  now := fun s => (0, s)
  sleep := fun _ s => ((), s)
  metadata := fun _ s => (.ok (some ⟨.none, some "orders", none, some [0]⟩), s)
  offsetStage := fun _ _ s => (some (.ok ⟨3, 3, 0⟩), s)
  fetch := fun _ _ offset _ maxBytes _ _ s =>
    (some (.ok (([{ oneByte with baseOffset := 0 }, { oneByte with baseOffset := 1 },
      { oneByte with baseOffset := 2 }].drop offset.toNat).take (maxBytes + 1))), s)

theorem byteSize_of_each (each : ∀ batch ∈ batches, batch.recordData.length = 1) :
    byteSize batches = batches.length := by
  rw [byteSize, total, List.map_congr_left each, List.map_const', List.sum_replicate]
  exact Nat.mul_one _

theorem bounded_threeBatches : threeBatches.Bounded := by
  intro _ _ offset _ maxBytes _ _ _ batches answered
  have fetched : ([{ oneByte with baseOffset := 0 }, { oneByte with baseOffset := 1 },
      { oneByte with baseOffset := 2 }].drop offset.toNat).take (maxBytes + 1) = batches :=
    Except.ok.inj (some.inj answered)
  have each : ∀ batch ∈ batches.dropLast, batch.recordData.length = 1 := by
    intro batch member
    have listed := List.mem_of_mem_drop (List.mem_of_mem_take (fetched ▸ List.dropLast_subset _ member))
    simp only [List.mem_cons, List.not_mem_nil, or_false] at listed
    rcases listed with rfl | rfl | rfl <;> rfl
  have most : batches.length ≤ maxBytes + 1 := fetched ▸ List.length_take_le _ _
  rw [byteSize_of_each each, List.length_dropLast]
  omega

/-- The record data of all partitions that a `Fetch` answers, without the last batch, is at most what the
request allows. -/
theorem response_is_within_max_bytes (storage : FetchStorage σ) (bounded : storage.Bounded) (fuel : Nat)
    (request : FetchRequest) :
    Returns (serveRequest storage fuel request) fun response =>
      byteSize response.batches.dropLast ≤ limitOf request := by
  rw [serveRequest]
  split
  next ok =>
    exact (returns_serve_within bounded).mono fun response within => within.trans (maxBytes_le_of_tryFrom ok)
  next malformed _ =>
    refine returns_pure ?_
    have none : malformed.intoResponse.batches = [] := by
      change (malformed.topics.map _).flatMap _ = []
      rw [List.flatMap_eq_nil_iff]
      intro response member
      obtain ⟨topic, -, rfl⟩ := List.mem_map.mp member
      exact batches_topicErrorResponse topic _
    rw [none]
    exact Nat.zero_le _

def oneByteRequest : FetchRequest where
  maxWaitMs := 0
  minBytes := 1
  maxBytes := some 1
  isolationLevel := none
  topics := some [⟨some "orders", none, some [⟨0, 0, 1⟩, ⟨0, 1, 1⟩]⟩]

theorem response_is_within_max_bytes_of_one :
    ∃ response, Gives (serveRequest threeBatches 3 oneByteRequest) () response () ∧
      byteSize response.batches = 2 ∧ byteSize response.batches.dropLast ≤ limitOf oneByteRequest :=
  ⟨_, rfl, rfl, @response_is_within_max_bytes Unit threeBatches bounded_threeBatches 3 oneByteRequest () _ () rfl⟩

def KeepsLimit (partition : FetchPartition) (data : PartitionData) : Prop :=
  (byteSize data.batches.dropLast : Int) ≤ partition.partitionMaxBytes.toInt

instance (partition : FetchPartition) (data : PartitionData) : Decidable (KeepsLimit partition data) :=
  inferInstanceAs (Decidable ((byteSize data.batches.dropLast : Int) ≤ partition.partitionMaxBytes.toInt))

def TopicKeepsLimits (topic : FetchTopic) (response : FetchableTopicResponse) : Prop :=
  List.Forall₂ KeepsLimit (topic.partitions.getD []) (response.partitions.getD [])

def KeepsLimits (topics : List FetchTopic) (response : FetchResponse) : Prop :=
  List.Forall₂ TopicKeepsLimits topics (response.responses.getD [])

theorem toNat_toUInt32 {limit : Int32} (nonneg : 0 ≤ limit.toInt) : (limit.toUInt32.toNat : Int) = limit.toInt := by
  rw [← Int32.toInt_toBitVec, BitVec.toInt_eq_toNat_cond] at nonneg ⊢
  split at nonneg
  next small => rw [if_pos small]; rfl
  next =>
    omega

/-- The partitions that a request lists, topic by topic, each with its answer. -/
structure Answered (topics : List FetchTopic) (responses : List FetchableTopicResponse)
    (answers : List (List (FetchPartition × PartitionData))) : Prop where
  listed : answers.map (List.map Prod.fst) = topics.map fun topic => topic.partitions.getD []
  answered : answers.map (List.map Prod.snd) = responses.map fun response => response.partitions.getD []

/-- The answer to a partition that the topics do not have. -/
def Unknown (answer : FetchPartition × PartitionData) : Prop :=
  answer.2 = unknownPartition answer.1.partition

/-- Every partition keeps its limit but the first one that the topics have, which keeps `maxBytes`. -/
def KeepLimitsButFirst (maxBytes : Nat) (answers : List (FetchPartition × PartitionData)) : Prop :=
  ∃ outside rest, answers = outside ++ rest ∧ (∀ answer ∈ outside, Unknown answer) ∧
    ∀ first others, rest = first :: others → byteSize first.2.batches.dropLast ≤ maxBytes ∧
      ∀ answer ∈ others, 0 ≤ answer.1.partitionMaxBytes.toInt → KeepsLimit answer.1 answer.2

/-- What holds between two partitions of a round. -/
structure Kept (maxBytes : Nat) (answers : List (FetchPartition × PartitionData)) (round : Round) : Prop where
  left : round.maxBytes ≤ maxBytes
  keep : KeepLimitsButFirst maxBytes answers
  unknown : round.isFirstNonEmpty = true → ∀ answer ∈ answers, Unknown answer

section Kept

variable {answers : List (FetchPartition × PartitionData)} {answer : FetchPartition × PartitionData} {next : Round}

theorem batches_of_unknown (unknown : Unknown answer) : answer.2.batches = [] := by
  rw [unknown]
  rfl

theorem keepLimitsButFirst_of_unknown (unknown : ∀ answer ∈ answers, Unknown answer) :
    KeepLimitsButFirst maxBytes answers := by
  refine ⟨answers, [], (List.append_nil _).symm, unknown, fun first others none => ?_⟩
  exact absurd none.symm (List.cons_ne_nil first others)

theorem KeepLimitsButFirst.concat (keep : KeepLimitsButFirst maxBytes answers)
    (within : byteSize answer.2.batches.dropLast ≤ maxBytes)
    (limited : 0 ≤ answer.1.partitionMaxBytes.toInt → KeepsLimit answer.1 answer.2) :
    KeepLimitsButFirst maxBytes (answers ++ [answer]) := by
  obtain ⟨outside, rest, rfl, unknown, kept⟩ := keep
  refine ⟨outside, rest ++ [answer], List.append_assoc .., unknown, ?_⟩
  cases rest with
  | nil =>
    rintro _ _ ⟨⟩
    exact ⟨within, fun _ none => absurd none List.not_mem_nil⟩
  | cons first others =>
    rintro _ _ ⟨⟩
    obtain ⟨bounded, each⟩ := kept first others rfl
    refine ⟨bounded, fun other member => ?_⟩
    rcases Log.mem_concat.mp member with earlier | rfl
    · exact each other earlier
    · exact limited

theorem Kept.concat_unknown (kept : Kept maxBytes answers round) (unknown : Unknown answer)
    (same : next.maxBytes = round.maxBytes ∧ next.isFirstNonEmpty = round.isFirstNonEmpty) :
    Kept maxBytes (answers ++ [answer]) next where
  left := same.1.trans_le kept.left
  keep := by
    have empty := batches_of_unknown unknown
    refine kept.keep.concat ?_ fun nonneg => ?_
    · rw [empty]
      exact Nat.zero_le _
    · rw [KeepsLimit, empty]
      exact nonneg
  unknown flag other member := by
    rcases Log.mem_concat.mp member with earlier | rfl
    · exact kept.unknown (same.2.symm.trans flag) other earlier
    · exact unknown

theorem Kept.append_unknown (kept : Kept maxBytes answers round) {others : List (FetchPartition × PartitionData)}
    (unknown : ∀ answer ∈ others, Unknown answer)
    (same : next.maxBytes = round.maxBytes ∧ next.isFirstNonEmpty = round.isFirstNonEmpty) :
    Kept maxBytes (answers ++ others) next := by
  induction others generalizing answers round with
  | nil =>
    rw [List.append_nil]
    exact ⟨same.1.trans_le kept.left, kept.keep, fun flag => kept.unknown (same.2.symm.trans flag)⟩
  | cons other others ih =>
    rw [List.append_cons]
    exact ih (kept.concat_unknown (unknown other List.mem_cons_self) ⟨rfl, rfl⟩)
      (fun answer member => unknown answer (List.mem_cons_of_mem _ member)) same

/-- What a partition may spend is within its limit, unless it is the first that the topics have. -/
theorem Takes.kept {partitionCount : Nat} (takes : Takes partitionCount round entry data next)
    (kept : Kept maxBytes answers round) : Kept maxBytes (answers ++ [(entry, data)]) next := by
  have spends := takes.spends
  cases inside : inTopic partitionCount entry with
  | false =>
    have unknown : Unknown (entry, data) := takes.outside inside
    refine kept.concat_unknown unknown ⟨?_, ?_⟩
    · rw [spends, batches_of_unknown unknown]
      rfl
    · rw [takes.first, inside, Bool.not_false, Bool.and_true]
  | true =>
    have bounded := takes.bought.bounded
    have within := bounded.trans ((partitionMaxBytes_le round entry).trans kept.left)
    refine ⟨(spends.trans_le (Nat.sub_le _ _)).trans kept.left, ?_, fun flag => ?_⟩
    · cases flag : round.isFirstNonEmpty with
      | true =>
        refine ⟨answers, [(entry, data)], rfl, kept.unknown flag, ?_⟩
        rintro _ _ ⟨⟩
        exact ⟨within, fun _ none => absurd none List.not_mem_nil⟩
      | false =>
        refine kept.keep.concat within fun nonneg => ?_
        have cast := toNat_toUInt32 nonneg
        rw [partitionMaxBytes, flag] at bounded
        rw [KeepsLimit]
        dsimp only at cast ⊢
        simp only [Bool.false_eq_true, if_false] at bounded
        omega
    · rw [takes.first, inside, Bool.not_true, Bool.and_false] at flag
      cases flag

theorem returns_fetchTopic_kept (bounded : storage.Bounded) {fetchDeadline : Instant}
    (kept : Kept maxBytes answers round) :
    Returns (fetchTopic storage fuel fetchDeadline minBytes isolation round topic) fun (response, next) =>
      ∃ own : List (FetchPartition × PartitionData), own.map Prod.fst = topic.partitions.getD [] ∧
        own.map Prod.snd = response.partitions.getD [] ∧ Kept maxBytes (answers ++ own) next := by
  refine returns_fetchTopic ?_ fun name partitionCount => ?_
  · intro left
    refine ⟨(topic.partitions.getD []).map fun partition => (partition, unknownPartition partition.partition),
      ?_, ?_, kept.append_unknown ?_ ⟨rfl, rfl⟩⟩
    · rw [List.map_map]
      exact List.map_id _
    · rw [List.map_map, unknownTopicResponse]
      cases topic.partitions <;> rfl
    · intro answer member
      obtain ⟨_, -, rfl⟩ := List.mem_map.mp member
      rfl
  · refine (returns_mapAccum (fun done results round => ∃ own : List (FetchPartition × PartitionData),
      own.map Prod.fst = done ∧ own.map Prod.snd = results ∧ Kept maxBytes (answers ++ own) round) ?_ ?_).mono ?_
    · rintro _ _ round item _ - ⟨own, rfl, rfl, kept⟩
      refine (returns_partition bounded).mono ?_
      rintro ⟨data, next⟩ takes
      refine ⟨own ++ [(item, data)], List.map_append, List.map_append, ?_⟩
      rw [← List.append_assoc]
      exact takes.kept kept
    · exact ⟨[], rfl, rfl, by rwa [List.append_nil]⟩
    · rintro ⟨_, _⟩ ⟨own, listed, answered, kept⟩ _ _
      exact ⟨own, listed, answered, kept⟩

end Kept

/-- Every listed partition keeps its own limit but the first one that the topics have, which keeps that of the
request. -/
theorem partitions_but_first_keep_their_limits (storage : FetchStorage σ) (bounded : storage.Bounded) (fuel : Nat)
    (request : ValidatedFetchRequest) : Returns (serve storage fuel request) fun response =>
      ∃ answers, Answered request.topics (response.responses.getD []) answers ∧
        KeepLimitsButFirst request.maxBytes.toNat answers.flatten := by
  have served : Returns (fetch storage fuel request) fun responses =>
      ∃ answers, Answered request.topics responses answers ∧
        KeepLimitsButFirst request.maxBytes.toNat answers.flatten := by
    have nothing : KeepLimitsButFirst request.maxBytes.toNat [] :=
      keepLimitsButFirst_of_unknown fun _ none => absurd none List.not_mem_nil
    refine returns_fetch (fun none => ⟨[], ⟨none ▸ rfl, rfl⟩, nothing⟩) fun fetchDeadline => ?_
    refine (returns_mapAccum (fun done results round => ∃ answers, Answered done results answers ∧
      Kept request.maxBytes.toNat answers.flatten round) ?_ ?_).mono ?_
    · rintro _ _ _ topic _ - ⟨answers, ⟨listed, answered⟩, kept⟩
      refine (returns_fetchTopic_kept bounded kept).mono ?_
      rintro ⟨response, _⟩ ⟨own, partitions, data, kept⟩
      refine ⟨answers ++ [own], ⟨?_, ?_⟩, ?_⟩
      · rw [List.map_append, List.map_append, listed]
        exact congrArg _ (congrArg ([·]) partitions)
      · rw [List.map_append, List.map_append, answered]
        exact congrArg _ (congrArg ([·]) data)
      · rwa [List.flatten_concat]
    · exact ⟨[], ⟨rfl, rfl⟩, le_rfl, nothing, fun _ _ none => absurd none List.not_mem_nil⟩
    · rintro ⟨_, _⟩ ⟨answers, answered, kept⟩
      exact ⟨answers, answered, kept.keep⟩
  exact served.bind fun responses kept => returns_pure kept

def oneByteOfTen : ValidatedFetchRequest where
  isolationLevel := .readUncommitted
  maxWait := 0
  minBytes := 1
  maxBytes := 10
  topics := [⟨some "orders", none, some [⟨0, 0, 1⟩]⟩]

/-- A partition that the topic does not have, and then the same one twice. -/
def threeOfTen : ValidatedFetchRequest :=
  { oneByteOfTen with topics := [⟨some "orders", none, some [⟨7, 0, 1⟩, ⟨0, 0, 1⟩, ⟨0, 0, 1⟩]⟩] }

theorem partitions_but_first_keep_their_limits_ten :
    ∃ response, Gives (serve threeBatches 3 threeOfTen) () response () ∧
      response.responses.map (List.flatMap fun topic => (topic.partitions.getD []).map fun data =>
        byteSize data.batches) = some [0, 3, 2] ∧
      ∃ answers, Answered threeOfTen.topics (response.responses.getD []) answers ∧
        KeepLimitsButFirst 10 answers.flatten :=
  ⟨_, rfl, rfl, @partitions_but_first_keep_their_limits Unit threeBatches bounded_threeBatches 3 threeOfTen () _ () rfl⟩

/-- The only partition is answered with three batches, of which the first two pass its limit. -/
theorem first_partition_passes_its_limit :
    threeBatches.Bounded ∧ ∃ response, Gives (serve threeBatches 3 oneByteOfTen) () response () ∧
      byteSize response.batches.dropLast = 2 ∧ ¬KeepsLimits oneByteOfTen.topics response := by
  refine ⟨bounded_threeBatches, _, rfl, rfl, ?_⟩
  intro keeps
  have topic := (List.forall₂_cons.mp keeps).1
  have limited := (List.forall₂_cons.mp topic).1
  exact absurd limited (by decide)

end FetchService

end Nisshi.Storage
