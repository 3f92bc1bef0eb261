import Nisshi.SansIo.Merge
import Nisshi.Storage.ProduceService

/-! `combine`: the batches that wait for one partition become one batch, with the first batch's compression. -/

namespace Nisshi.Storage

open Nisshi.SansIo Nisshi.Lib Nisshi.Lib.MachineInt Option

def appendEach (codec : Codec) (sink : Inflated.Batch) : List Deflated.Batch → Except Error Inflated.Batch
  | [] => .ok sink
  | batch :: rest => do
    let batch ← inflateProduced (Inflated.Batch.tryFromValue codec batch)
    let sink ← (sink.appendRebased batch).mapError .sansIo
    appendEach codec sink rest

def combine (codec : Codec) : List Deflated.Batch → Except Error (Option Deflated.Batch)
  | [] => .ok none
  | first :: rest =>
    match BatchAttribute.tryFrom first.attributes with
    | none => .error (.sansIo .unknownCompressionType)
    | some { compression, .. } => do
      let sink ← inflateProduced (Inflated.Batch.tryFromValue codec first)
      let sink ← appendEach codec sink rest
      match BatchAttribute.tryFrom sink.attributes with
      | none => .error (.sansIo .unknownCompressionType)
      | some attributes =>
        -- Inflating cleared the codec.
        match Deflated.Batch.tryFromInflated codec
            { sink with attributes := { attributes with compression }.toI16 } with
        | none => .error (.sansIo .overflow)
        | some merged => .ok (some merged)

/-- A batch with an unknown codec is skipped, so that `combine` rejects it. -/
def sharesOneCodec (batches : List Deflated.Batch) : Bool :=
  match batches.filterMap fun batch => (BatchAttribute.tryFrom batch.attributes).map (·.compression) with
  | [] => true
  | first :: codecs => codecs.all (· == first)

def logAppendTime (batch : Deflated.Batch) : Option Int64 :=
  match TimestampType.from batch.attributes with
  | .createTime => none
  | .logAppendTime => some batch.maxTimestamp

def sharesOneLogAppendTime (batches : List Deflated.Batch) : Bool :=
  match batches.map logAppendTime with
  | [] => true
  | first :: times => times.all (· == first)

def merges (batches : List Deflated.Batch) : Bool :=
  sharesOneCodec batches && sharesOneLogAppendTime batches && !batches.any (·.isIdempotent)

variable {codec : Codec} {batch merged : Deflated.Batch} {queue : List Deflated.Batch} {part : Inflated.Batch}

theorem appendEach_eq_ok (ok : appendEach codec sink queue = .ok whole) :
    ∃ parts, List.Forall₂ (fun batch part => Inflated.Batch.tryFromValue codec batch = .ok part) queue parts ∧
      parts.foldlM Inflated.Batch.appendRebased sink = .ok whole := by
  induction queue generalizing sink with
  | nil =>
    cases ok
    exact ⟨[], .nil, rfl⟩
  | cons _ _ ih =>
    obtain ⟨part, inflated, ok⟩ := bind_eq_ok_iff.mp ok
    obtain ⟨_, appended, ok⟩ := bind_eq_ok_iff.mp ok
    obtain ⟨parts, each, folded⟩ := ih ok
    refine ⟨part :: parts, .cons (of_inflateProduced inflated) each, ?_⟩
    cases here : sink.appendRebased part with
    | error =>
      rw [here] at appended
      cases appended
    | ok =>
      rw [here] at appended
      cases appended
      rw [List.foldlM_cons, here]
      exact folded

def whole (attributes : Int16) (first : Inflated.Batch) (parts : List Inflated.Batch) : Inflated.Batch :=
  { first with
    attributes
    records := Inflated.Batch.recordsFrom first.baseTimestamp 0 (first :: parts)
    lastOffsetDelta := Inflated.Batch.lastFrom first.lastOffsetDelta parts
    maxTimestamp := Inflated.Batch.maxTimestampFrom first.maxTimestamp parts }

/-- How a batch that `combine` makes came about. -/
structure Combines (codec : Codec) (queue : List Deflated.Batch) (merged : Deflated.Batch)
    (marks : BatchAttribute) (part : Inflated.Batch) (parts : List Inflated.Batch) : Prop where
  known : queue.head?.bind (fun first => BatchAttribute.tryFrom first.attributes) = some marks
  inflated : List.Forall₂ (fun batch part => Inflated.Batch.tryFromValue codec batch = .ok part) queue
    (part :: parts)
  folded : parts.foldlM Inflated.Batch.appendRebased part = .ok (whole part.attributes part parts)
  encoded : Deflated.Batch.tryFromInflated codec (whole marks.toI16 part parts) = some merged

section FromValue

variable (value : Inflated.Batch.FromValue codec batch part)

include value

theorem timestamp_of_fromValue : TimestampType.from part.attributes = TimestampType.from batch.attributes := by
  obtain ⟨_, known, cleared⟩ := value.marks
  rw [cleared, BatchAttribute.timestamp_toI16, ← BatchAttribute.timestamp_of_tryFrom known]

theorem consumerRecords_of_fromValue : batch.consumerRecords codec = some part.consumerRecords := by
  rw [Deflated.Batch.consumerRecords, Inflated.Batch.tryFrom, Deflated.Batch.records_of_tryRecords value.records]
  have same := Inflated.Batch.consumerRecords_attributes (batch.withRecords part.records) (timestamp_of_fromValue value)
  exact congrArg some (same.symm.trans (congrArg Inflated.Batch.consumerRecords value.header.symm))

end FromValue

theorem recordsFrom_zero (part : Inflated.Batch) (parts : List Inflated.Batch) :
    Inflated.Batch.recordsFrom part.baseTimestamp 0 (part :: parts) =
      part.records ++ Inflated.Batch.recordsFrom part.baseTimestamp (part.lastOffsetDelta + 1) parts := by
  rw [Inflated.Batch.recordsFrom, Inflated.Batch.recordsOnto, Int64.sub_self, Int32.zero_add]
  simp only [Record.rebased_zero, List.map_id']

theorem combine_eq_some (ok : combine codec queue = .ok (some merged)) :
    ∃ marks part parts, Combines codec queue merged marks part parts := by
  cases queue with
  | nil => cases ok
  | cons =>
    rw [combine] at ok
    split at ok
    · cases ok
    next known =>
      obtain ⟨part, inflated, ok⟩ := bind_eq_ok_iff.mp ok
      obtain ⟨sink, appended, ok⟩ := bind_eq_ok_iff.mp ok
      obtain ⟨parts, each, folded⟩ := appendEach_eq_ok appended
      have same : sink = whole part.attributes part parts := by
        rw [whole, recordsFrom_zero]
        exact Inflated.Batch.foldlM_appendRebased folded
      obtain ⟨_, again, cleared⟩ := (Inflated.Batch.of_tryFromValue (of_inflateProduced inflated)).marks
      cases known.symm.trans again
      have attributes : sink.attributes = part.attributes := by
        rw [same]
        rfl
      rw [attributes, cleared, BatchAttribute.tryFrom_toI16] at ok
      simp only at ok
      split at ok
      · cases ok
      next encoded =>
        cases ok
        rw [same] at encoded folded
        exact ⟨_, part, parts, known, .cons (of_inflateProduced inflated) each, folded, encoded⟩

theorem logAppendTime_inj (same : logAppendTime batch = logAppendTime other) :
    TimestampType.from batch.attributes = TimestampType.from other.attributes ∧
      (TimestampType.from other.attributes = .logAppendTime → batch.maxTimestamp = other.maxTimestamp) := by
  rw [logAppendTime, logAppendTime] at same
  cases here : TimestampType.from batch.attributes <;> cases there : TimestampType.from other.attributes <;>
    simp_all

theorem logAppendTime_of_shares {first : Deflated.Batch} (shares : sharesOneLogAppendTime (first :: rest) = true) :
    ∀ batch ∈ first :: rest, logAppendTime batch = logAppendTime first := by
  refine List.forall_mem_cons.mpr ⟨rfl, fun batch member => ?_⟩
  have each := List.all_eq_true.mp shares _ (List.mem_map_of_mem member)
  exact eq_of_beq each

variable {parts : List Inflated.Batch} {count : Nat}

theorem maxTimestampFrom_eq (same : ∀ part ∈ parts, part.maxTimestamp = greatest) :
    Inflated.Batch.maxTimestampFrom greatest parts = greatest := by
  induction parts with
  | nil => rfl
  | cons part _ ih =>
    obtain ⟨here, there⟩ := List.forall_mem_cons.mp same
    have idem : max greatest part.maxTimestamp = greatest := by
      rw [here]
      exact ite_self greatest
    rw [Inflated.Batch.maxTimestampFrom, List.foldl_cons, idem]
    exact ih there

namespace Combines

variable {marks : BatchAttribute} {parts : List Inflated.Batch}

theorem sameTimes (combines : Combines codec queue merged marks part parts)
    (shares : sharesOneLogAppendTime queue = true) :
    ∀ one ∈ part :: parts, one.SameTimes (whole marks.toI16 part parts) := by
  obtain ⟨known, inflated, _, _⟩ := combines
  cases queue with
  | nil => cases known
  | cons first =>
    have times := logAppendTime_of_shares shares
    have kind : marks.timestamp = TimestampType.from first.attributes := BatchAttribute.timestamp_of_tryFrom known
    have alike : ∀ one ∈ part :: parts, TimestampType.from one.attributes = TimestampType.from first.attributes ∧
        (TimestampType.from first.attributes = .logAppendTime → one.maxTimestamp = first.maxTimestamp) := by
      refine forall_mem_of_forall₂ inflated fun batch member one ok => ?_
      have value := Inflated.Batch.of_tryFromValue ok
      have alike := logAppendTime_inj (times batch member)
      rw [timestamp_of_fromValue value, value.header]
      exact alike
    intro one member
    refine ⟨?_, fun stamped => ?_⟩
    · rw [(alike one member).1, ← kind]
      exact BatchAttribute.timestamp_toI16 marks
    · rw [(alike one member).1] at stamped
      have same : ∀ other ∈ part :: parts, other.maxTimestamp = part.maxTimestamp := by
        intro other listed
        rw [(alike other listed).2 stamped, (alike part List.mem_cons_self).2 stamped]
      rw [same one member]
      exact maxTimestampFrom_eq fun other listed => same other (List.mem_cons_of_mem _ listed)

theorem consumerRecords_whole (combines : Combines codec queue merged marks part parts)
    (shares : sharesOneLogAppendTime queue = true) :
    (whole marks.toI16 part parts).consumerRecords = ((part :: parts).map Inflated.Batch.consumerRecords).flatten :=
  Inflated.Batch.map_consumerRecord_recordsFrom 0 (combines.sameTimes shares)

end Combines

def extent (batches : List Deflated.Batch) : Int :=
  (batches.map fun batch => batch.lastOffsetDelta.toInt + 1).sum

theorem extent_of_tryFromValue
    (inflated : List.Forall₂ (fun batch part => Inflated.Batch.tryFromValue codec batch = .ok part) batches parts) :
    Inflated.Batch.extent parts = extent batches := by
  induction inflated with
  | nil => rfl
  | cons here _ ih =>
    rw [Inflated.Batch.extent] at ih
    rw [Inflated.Batch.extent, List.map_cons, List.sum_cons, ih, (Inflated.Batch.of_tryFromValue here).lastOffsetDelta]
    rfl

/-- Storage that has the stored batch at the base has the records of the batch from the offset on: it has the
batch itself, or one that was encoded with the batch's records, each at the offset plus its own delta. -/
def StoredAt (codec : Codec) (stored : Deflated.Batch) (base : Int) (batch : Deflated.Batch) (offset : Int) : Prop :=
  stored = batch ∧ base = offset ∨ ∃ whole part, Deflated.Batch.tryFromInflated codec whole = some stored ∧
      Inflated.Batch.tryFromValue codec batch = .ok part ∧ whole.Places part.records (offset - base)

theorem storedAt_of_combine (ok : combine codec (before ++ batch :: after) = .ok (some merged)) (base : Int) :
    StoredAt codec merged base batch (base + extent before) := by
  obtain ⟨marks, part, parts, combines⟩ := combine_eq_some ok
  have folded := combines.folded
  cases before with
  | nil =>
    cases combines.inflated with
    | cons here =>
      refine .inr ⟨_, part, combines.encoded, here, ?_⟩
      have places := Inflated.Batch.places_sink folded
      rw [show base + extent [] - base = 0 by simp [extent]]
      exact places
  | cons first before =>
    cases combines.inflated with
    | cons here rest =>
      obtain ⟨left, right, rfl, earlier, later⟩ := forall₂_append_left rest
      cases later with
      | @cons _ own _ more mine _ =>
        have places := Inflated.Batch.places_of_foldlM folded
        rw [extent_of_tryFromValue earlier, (Inflated.Batch.of_tryFromValue here).lastOffsetDelta] at places
        refine .inr ⟨_, own, combines.encoded, mine, ?_⟩
        have shift : base + extent (first :: before) - base = first.lastOffsetDelta.toInt + 1 + extent before := by
          rw [extent, extent, List.map_cons, List.sum_cons]
          omega
        rw [shift]
        exact places

/-- What decoding the batch that a queue is merged into charges to the budget: each record of each batch, at the
place where the merged batch has it, with the first batch's compression. -/
def mergedSize (codec : Codec) (queue : List Deflated.Batch) : Nat :=
  match queue, queue.mapM (Inflated.Batch.tryFromValue codec) with
  | first :: _, .ok parts =>
    ((Inflated.Batch.recordsFrom first.baseTimestamp 0 parts).map
      (Record.decodedSize ((Compression.tryFrom first.attributes).getD .none))).sum
  | _, _ => 0

/-- A consumer of the merged batch reads the records of the queue, one batch after another. -/
def ReadAsSent (codec : Codec) (queue : List Deflated.Batch) (merged : Deflated.Batch) : Prop :=
  ∃ reads, queue.mapM (Deflated.Batch.consumerRecords codec) = some reads ∧
    merged.consumerRecords codec = some reads.flatten

theorem mergedSize_eq (combines : Combines codec queue merged marks part parts) : mergedSize codec queue =
      ((whole marks.toI16 part parts).records.map (Record.decodedSize marks.compression)).sum := by
  obtain ⟨known, inflated, _, _⟩ := combines
  cases queue with
  | nil => cases known
  | cons first =>
    obtain ⟨_, codec_, rfl⟩ := map_eq_some_iff.mp known
    have base : part.baseTimestamp = first.baseTimestamp := by
      cases inflated with
      | cons here => exact congrArg Inflated.Batch.baseTimestamp (Inflated.Batch.of_tryFromValue here).header
    simp only [mergedSize, mapM_of_forall₂ inflated, codec_, ← base]
    rfl

theorem tryFrom_of_combines (lossless : codec.Lossless) (combines : Combines codec queue merged marks part parts) :
    Inflated.Batch.tryFrom codec merged =
      if mergedSize codec queue ≤ maxDecodedBatchBytes then some (whole marks.toI16 part parts) else none := by
  have known : Compression.tryFrom (whole marks.toI16 part parts).attributes = some marks.compression := by
    exact BatchAttribute.compression_toI16 marks
  rw [mergedSize_eq combines]
  exact Inflated.Batch.tryFrom_of_tryFromInflated lossless known combines.encoded

/-- A queue that is merged is read as it was sent exactly when the merged batch is within the decoder's limit. -/
theorem merged_batch_is_read_as_sent (lossless : codec.Lossless) (merging : merges queue = true)
    (ok : combine codec queue = .ok (some merged)) :
    ReadAsSent codec queue merged ↔ mergedSize codec queue ≤ maxDecodedBatchBytes := by
  obtain ⟨_, part, parts, combines⟩ := combine_eq_some ok
  have shares : sharesOneLogAppendTime queue = true := by
    simp only [merges, Bool.and_eq_true] at merging
    exact merging.1.2
  have decoded := tryFrom_of_combines lossless combines
  have reads : queue.mapM (Deflated.Batch.consumerRecords codec) =
      some ((part :: parts).map Inflated.Batch.consumerRecords) := by
    rw [mapM_eq_some_iff, List.forall₂_map_right_iff]
    exact combines.inflated.imp fun batch one inflated =>
      consumerRecords_of_fromValue (Inflated.Batch.of_tryFromValue inflated)
  constructor
  · rintro ⟨_, _, read⟩
    by_contra above
    rw [Deflated.Batch.consumerRecords, decoded, if_neg above] at read
    cases read
  · intro within
    refine ⟨_, reads, ?_⟩
    rw [Deflated.Batch.consumerRecords, decoded, if_pos within, map_some, combines.consumerRecords_whole shares]

theorem lossless_plainCodec : ProduceService.plainCodec.Lossless := by
  intro compression bytes compressed same
  cases same
  rfl

def twoRecords : Deflated.Batch where
  baseOffset := 0
  batchLength := 63
  partitionLeaderEpoch := -1
  magic := 2
  crc := 54
  attributes := 0
  lastOffsetDelta := 1
  baseTimestamp := 900
  maxTimestamp := 900
  producerId := -1
  producerEpoch := -1
  baseSequence := -1
  recordCount := 2
  recordData := [12, 0, 0, 0, 1, 1, 0, 12, 0, 0, 2, 1, 1, 0]
  measured := by decide

open ProduceService in
theorem combine_emptyRecord : combine plainCodec [emptyRecord, emptyRecord] = .ok (some twoRecords) := by
  decide +kernel

open ProduceService in
theorem merged_batch_is_read_as_sent_twice : combine plainCodec [emptyRecord, emptyRecord] = .ok (some twoRecords) ∧
      (ReadAsSent plainCodec [emptyRecord, emptyRecord] twoRecords ↔
        mergedSize plainCodec [emptyRecord, emptyRecord] ≤ maxDecodedBatchBytes) :=
  ⟨combine_emptyRecord, merged_batch_is_read_as_sent lossless_plainCodec (by decide) combine_emptyRecord⟩

/-! A queue that the broker merges into a batch over the limit: two records with many headers. -/

def HandedOver (codec : Codec) (batch : Deflated.Batch) : Prop :=
  ∃ sent timestampType now, rejection codec sent = none ∧
    validateTimestamps codec sent timestampType now = .ok (.ok batch)

def emptyHeader : Header where
  key := some []
  value := none

def headersRecord (count : Nat) : Record where
  attributes := 0
  timestampDelta := 0
  offsetDelta := 0
  key := none
  value := none
  headers := List.replicate count emptyHeader

def headersBatch (lastOffsetDelta : Int32) (records : List Record) : Inflated.Batch where
  baseOffset := 0
  partitionLeaderEpoch := -1
  magic := 2
  attributes := 0
  lastOffsetDelta
  baseTimestamp := 0
  maxTimestamp := 0
  producerId := -1
  producerEpoch := -1
  baseSequence := -1
  records

def oneOf (count : Nat) : Inflated.Batch :=
  headersBatch 0 [headersRecord count]

def twoOf (count : Nat) : Inflated.Batch :=
  headersBatch 1 [headersRecord count, (headersRecord count).rebased 1 0]

theorem size_rebased_headersRecord_le (count : Nat) (first : Int32) :
    ((headersRecord count).rebased first 0).size ≤ 50 + 10 * count := by
  have length := VarInt.sizeInBytes_le (Int32.ofNat ((headersRecord count).rebased first 0).bodySize)
  have offset := VarInt.sizeInBytes_le ((headersRecord count).rebased first 0).offsetDelta
  have null := VarInt.sizeInBytes_le (-1)
  have empty := VarInt.sizeInBytes_le (Int32.ofNat 0)
  have counted := VarInt.sizeInBytes_le (Int32.ofNat (List.replicate count emptyHeader).length)
  have timestamp : LongVarInt.sizeInBytes ((headersRecord count).rebased first 0).timestampDelta = 1 := by
    change LongVarInt.sizeInBytes (0 + 0) = 1
    decide +kernel
  have one : emptyHeader.size ≤ 10 := by
    simp only [Header.size, Octets.size, emptyHeader, List.length_nil]
    omega
  have headers : Headers.size (List.replicate count emptyHeader) ≤ 5 + 10 * count := by
    rw [Headers.size, List.map_replicate, List.sum_replicate_nat]
    have := Nat.mul_le_mul_left count one
    omega
  rw [Record.size]
  simp only [Record.bodySize, Record.rebased, headersRecord, Octets.size] at *
  omega

theorem appendRebased_oneOf (count : Nat) : (oneOf count).appendRebased (oneOf count) = .ok (twoOf count) := by
  have one : checkedAdd32 0 1 = some 1 := by decide
  simp only [Inflated.Batch.appendRebased, Rebase.onto, Rebase.deltas, oneOf, headersBatch, headersRecord, one,
    bind_some, bind, Except.bind, pure, Except.pure, List.mapM_cons, List.mapM_nil, Except.map]
  rfl

theorem maxRecordTimestamp_headersRecord (count : Nat) :
    maxRecordTimestamp 0 (saturatingSub64 0 timestampBeforeMaxMs) (saturatingAdd64 0 timestampAfterMaxMs) 0
      noTimestamp 0 [headersRecord count] = .ok (.ok 0) := by
  have sum : checkedAdd64 0 0 = some 0 := by decide
  have inside : ¬(0 ≠ noTimestamp ∧ (saturatingAdd64 0 timestampAfterMaxMs < 0 ∨
      0 < saturatingSub64 0 timestampBeforeMaxMs)) := by decide
  have greatest : max noTimestamp 0 = 0 := by decide
  simp only [maxRecordTimestamp, headersRecord, sum, if_neg inside, greatest]
  rfl

theorem rewriteCreateTime_headersBatch (base : batch.baseTimestamp = 0) (greatest : batch.maxTimestamp = 0)
    (plain : batch.attributes = 0) :
    rewriteCreateTime codec batch (oneOf count) 0 = .ok (.ok batch) := by
  have kind : TimestampType.from 0 = .createTime := by decide
  simp only [rewriteCreateTime, base, oneOf, headersBatch, maxRecordTimestamp_headersRecord, greatest, plain, kind,
    and_self, if_true]

theorem fits_headersBatch (few : count ≤ 1000000) (last : Int32)
    (listed : ∀ record ∈ records, ∃ first, record = (headersRecord count).rebased first 0)
    (two : records.length ≤ 2) : (headersBatch last records).Fits := by
  have each : ∀ size ∈ records.map Record.size, size ≤ 50 + 10 * count := by
    intro size member
    obtain ⟨record, found, rfl⟩ := List.mem_map.mp member
    obtain ⟨first, rfl⟩ := listed record found
    exact size_rebased_headersRecord_le count first
  have total := List.sum_le_card_nsmul (records.map Record.size) (50 + 10 * count) each
  rw [List.length_map] at total
  replace total : (records.map Record.size).sum ≤ records.length * (50 + 10 * count) := total
  have bound := Nat.mul_le_mul_right (50 + 10 * count) two
  change 49 + (records.map Record.size).sum < 2 ^ 31
  omega

theorem fits_headersBatch_one (few : count ≤ 1000000) : (oneOf count).Fits := by
  refine fits_headersBatch few 0 (fun record member => ⟨0, ?_⟩) (Nat.le_succ 1)
  rw [List.mem_singleton.mp member, Record.rebased_zero]

theorem fits_headersBatch_two (few : count ≤ 1000000) : (twoOf count).Fits := by
  refine fits_headersBatch few 1 (fun record member => ?_) (Nat.le_refl 2)
  rcases List.mem_pair.mp member with rfl | rfl
  · exact ⟨0, (Record.rebased_zero _).symm⟩
  · exact ⟨1, rfl⟩

theorem allocatedSize_headersRecord (count : Nat) : (headersRecord count).allocatedSize = 112 + count * 64 := by
  rw [Record.allocatedSize, headersRecord, List.length_replicate, Record.sizeOfRecord, Headers.sizeOfHeader]

def noMarks : BatchAttribute where
  compression := .none
  timestamp := .createTime
  transaction := false
  control := false
  deleteHorizon := false

theorem tryFrom_zero : BatchAttribute.tryFrom 0 = some noMarks := by
  decide

theorem plain_headersBatch (last : Int32) (records : List Record) :
    Compression.tryFrom (headersBatch last records).attributes = some .none := by
  change Compression.tryFrom 0 = some .none
  decide

structure OfHeaders (batch : Deflated.Batch) : Prop where
  attributes : batch.attributes = 0
  lastOffsetDelta : batch.lastOffsetDelta = 0
  baseTimestamp : batch.baseTimestamp = 0
  maxTimestamp : batch.maxTimestamp = 0
  producerId : batch.producerId = -1
  recordCount : batch.recordCount = 1

theorem ofHeaders (carries : batch.Carries (oneOf count)) : OfHeaders batch where
  attributes := (congrArg Inflated.Batch.attributes carries.header).symm
  lastOffsetDelta := (congrArg Inflated.Batch.lastOffsetDelta carries.header).symm
  baseTimestamp := (congrArg Inflated.Batch.baseTimestamp carries.header).symm
  maxTimestamp := (congrArg Inflated.Batch.maxTimestamp carries.header).symm
  producerId := (congrArg Inflated.Batch.producerId carries.header).symm
  recordCount := UInt32.toNat_inj.mp carries.recordCount

theorem rejection_headersBatch (header : OfHeaders batch) (crc : batch.computedCrc codec = batch.crc) :
    rejection codec batch = none := by
  have data : batch.isControl = false := by
    rw [Deflated.Batch.isControl, header.attributes]
    decide
  have few : batch.exceedsDecodedRecordCountLimit = false := by
    rw [Deflated.Batch.exceedsDecodedRecordCountLimit, header.recordCount]
    decide
  rw [rejection, header.attributes, header.lastOffsetDelta, data, few, header.recordCount, crc,
    if_neg (not_not.mpr rfl)]
  decide +kernel

section

variable (few : count ≤ 1000000) (carries : batch.Carries (oneOf count))
include few carries

theorem tryRecords_oneOf : batch.tryRecords codec = .ok [headersRecord count] := by
  have decodedSize : (headersBatch 0 [headersRecord count]).decodedSize = 112 + count * 64 := by
    rw [← allocatedSize_headersRecord]
    exact Nat.add_zero _
  have decoded : batch.records codec = _ :=
    Deflated.records_eq (plain_headersBatch _ _) (fits_headersBatch_one few) carries
  rw [if_pos (by rw [maxDecodedBatchBytes]; omega)] at decoded
  exact Deflated.Batch.tryRecords_of_records decoded

theorem tryFromValue_oneOf : Inflated.Batch.tryFromValue codec batch = .ok (oneOf count) := by
  have header := congrArg (fun header : Inflated.Batch =>
    { header with attributes := 0, records := [headersRecord count] }) carries.header
  rw [Inflated.Batch.tryFromValue, (ofHeaders carries).attributes]
  simp only [tryRecords_oneOf few carries]
  exact congrArg Except.ok header.symm

theorem handedOver_oneOf (crc : batch.computedCrc codec = batch.crc) : HandedOver codec batch := by
  have header := ofHeaders carries
  have unstamped : producerLogAppendTime batch .createTime = none := by
    rw [producerLogAppendTime, header.attributes]
    exact if_neg fun stamped => absurd stamped.1 (by decide)
  refine ⟨batch, .createTime, 0, rejection_headersBatch header crc, ?_⟩
  rw [validateTimestamps, Inflated.Batch.tryFromRef, tryRecords_oneOf few carries]
  simp only [Except.map, inflateProduced, unstamped]
  exact rewriteCreateTime_headersBatch header.baseTimestamp header.maxTimestamp header.attributes

theorem combine_oneOf : ∃ merged, combine codec [batch, batch] = .ok (some merged) := by
  obtain ⟨merged, encoded, _⟩ : ∃ merged, Deflated.Batch.tryFromInflated codec
      { twoOf count with attributes := noMarks.toI16 } = some merged ∧ merged.Carries (twoOf count) :=
    Deflated.tryFromInflated_eq (plain_headersBatch _ _) (fits_headersBatch_two few)
  have inflated : inflateProduced (Inflated.Batch.tryFromValue codec batch) = .ok (oneOf count) := by
    rw [tryFromValue_oneOf few carries]
    rfl
  have appended : appendEach codec (oneOf count) [batch] = .ok (twoOf count) := by
    rw [appendEach, inflated]
    simp only [bind, Except.bind, appendRebased_oneOf, Except.mapError]
    rfl
  have attributes : (twoOf count).attributes = 0 := rfl
  refine ⟨merged, ?_⟩
  rw [combine, (ofHeaders carries).attributes]
  simp only [inflated, appended, bind, Except.bind, attributes, tryFrom_zero]
  split
  next none => cases none.symm.trans encoded
  next some => cases some.symm.trans encoded; rfl

theorem mergedSize_oneOf : mergedSize codec [batch, batch] = 112 + count * 64 + (112 + count * 64) := by
  have part : Inflated.Batch.tryFromValue codec batch = _ := tryFromValue_oneOf few carries
  have header := ofHeaders carries
  simp only [mergedSize, mapM_of_forall₂ (.cons part (.cons part .nil)), header.attributes, header.baseTimestamp]
  rw [← allocatedSize_headersRecord]
  rfl

end

open ProduceService in
/-- Two batches that decode are merged into one that does not. -/
theorem merged_batch_over_the_limit : ∃ batch merged, HandedOver plainCodec batch ∧ merges [batch, batch] = true ∧
      combine plainCodec [batch, batch] = .ok (some merged) ∧ ¬ReadAsSent plainCodec [batch, batch] merged := by
  have few : 900000 ≤ 1000000 := by decide
  obtain ⟨batch, ok, carries⟩ : ∃ batch, Deflated.Batch.tryFromInflated plainCodec (oneOf 900000) = some batch ∧
      batch.Carries (oneOf 900000) :=
    Deflated.tryFromInflated_eq (plain_headersBatch _ _) (fits_headersBatch_one few)
  obtain ⟨merged, combined⟩ := combine_oneOf few carries
  obtain ⟨marks, part, parts, combines⟩ := combine_eq_some combined
  have header := ofHeaders carries
  refine ⟨batch, merged, handedOver_oneOf few carries (Deflated.Batch.crc_of_tryFromInflated ok), ?_, combined, ?_⟩
  · simp [merges, sharesOneCodec, sharesOneLogAppendTime, Deflated.Batch.isIdempotent, header.attributes,
      header.producerId, tryFrom_zero]
  · rintro ⟨reads, _, read⟩
    rw [Deflated.Batch.consumerRecords, tryFrom_of_combines lossless_plainCodec combines,
      mergedSize_oneOf few carries, if_neg (by rw [maxDecodedBatchBytes]; decide)] at read
    cases read

end Nisshi.Storage
