import Nisshi.Lib.MachineInt
import Nisshi.SansIo.Produced

/-! Merging batches: the records of one batch are moved onto the end of another, and what the merged batch
then costs the decoder. -/

namespace Nisshi.SansIo

open Nisshi.Lib Nisshi.Lib.MachineInt Option

structure Rebase where
  firstOffsetDelta : Int32
  lastOffsetDelta : Int32
  timestampShift : Int64
  deriving DecidableEq

namespace Rebase

def onto (sink other : Inflated.Batch) : Except Error Rebase :=
  match checkedAdd32 sink.lastOffsetDelta 1 with
  | none => .error (.offsetDeltaOverflow "last_offset_delta")
  | some firstOffsetDelta =>
    match (checkedAdd32 other.lastOffsetDelta 1).bind (checkedAdd32 sink.lastOffsetDelta) with
    | none => .error (.offsetDeltaOverflow "last_offset_delta")
    | some lastOffsetDelta =>
      .ok { firstOffsetDelta, lastOffsetDelta, timestampShift := other.baseTimestamp - sink.baseTimestamp }

def deltas (rebase : Rebase) (record : Record) : Except Error (Int64 × Int32) :=
  match checkedAdd32 record.offsetDelta rebase.firstOffsetDelta with
  | none => .error (.offsetDeltaOverflow "record offset_delta")
  | some offsetDelta => .ok (record.timestampDelta + rebase.timestampShift, offsetDelta)

end Rebase

namespace Inflated.Batch

def appendRebased (sink other : Batch) : Except Error Batch := do
  let rebase ← Rebase.onto sink other
  let records ← other.records.mapM fun record =>
    (rebase.deltas record).map fun (timestampDelta, offsetDelta) => { record with timestampDelta, offsetDelta }
  pure
    { sink with
      records := sink.records ++ records
      lastOffsetDelta := rebase.lastOffsetDelta
      maxTimestamp := max sink.maxTimestamp other.maxTimestamp }

end Inflated.Batch

def Record.rebased (record : Record) (offsets : Int32) (timestamps : Int64) : Record :=
  { record with
    timestampDelta := record.timestampDelta + timestamps
    offsetDelta := record.offsetDelta + offsets }

def Record.SameContent (record moved : Record) : Prop :=
  moved.attributes = record.attributes ∧ moved.key = record.key ∧ moved.value = record.value ∧
    moved.headers = record.headers

theorem Record.SameContent.of_same {record other moved : Record} (same : record.SameContent moved)
    (again : other.SameContent moved) : record.SameContent other := by
  obtain ⟨attributes, key, value, headers⟩ := same
  obtain ⟨attributes', key', value', headers'⟩ := again
  exact ⟨attributes'.symm.trans attributes, key'.symm.trans key, value'.symm.trans value,
    headers'.symm.trans headers⟩

theorem Record.rebased_zero (record : Record) : record.rebased 0 0 = record := by
  rw [Record.rebased, Int64.add_zero, Int32.add_zero]

namespace Rebase

variable {sink other : Inflated.Batch} {rebase : Rebase}

structure Onto (sink other : Inflated.Batch) (rebase : Rebase) : Prop where
  first : rebase.firstOffsetDelta = sink.lastOffsetDelta + 1
  last : rebase.lastOffsetDelta = sink.lastOffsetDelta + (other.lastOffsetDelta + 1)
  sum : rebase.lastOffsetDelta.toInt = sink.lastOffsetDelta.toInt + (other.lastOffsetDelta.toInt + 1)
  fits : rebase.firstOffsetDelta.toInt = sink.lastOffsetDelta.toInt + 1
  shift : rebase.timestampShift = other.baseTimestamp - sink.baseTimestamp

theorem onto_eq_ok (ok : onto sink other = .ok rebase) : Onto sink other rebase := by
  rw [onto] at ok
  split at ok
  · cases ok
  next first begun =>
    split at ok
    · cases ok
    next last ended =>
      cases ok
      obtain ⟨appended, counted, added⟩ := bind_eq_some_iff.mp ended
      have one : (1 : Int32).toInt = 1 := by decide
      have total := toInt_checkedAdd32 added
      rw [toInt_checkedAdd32 counted] at total
      have start := toInt_checkedAdd32 begun
      refine ⟨eq_of_checkedAdd32 begun, ?_, total, start, rfl⟩
      rw [eq_of_checkedAdd32 added, eq_of_checkedAdd32 counted]

theorem deltas_eq_ok {deltas : Int64 × Int32} (ok : rebase.deltas record = .ok deltas) :
    deltas = (record.timestampDelta + rebase.timestampShift, record.offsetDelta + rebase.firstOffsetDelta) ∧
    (record.offsetDelta + rebase.firstOffsetDelta).toInt =
      record.offsetDelta.toInt + rebase.firstOffsetDelta.toInt := by
  rw [Rebase.deltas] at ok
  split at ok
  · cases ok
  next moved =>
    cases ok
    rw [← eq_of_checkedAdd32 moved]
    exact ⟨rfl, toInt_checkedAdd32 moved⟩

end Rebase

namespace Inflated.Batch

/-- The records of the batch when it follows a batch with the base timestamp, at the offset delta. -/
def recordsOnto (batch : Batch) (base : Int64) (first : Int32) : List Record :=
  batch.records.map fun record => record.rebased first (batch.baseTimestamp - base)

/-- A merged batch keeps the header of the first, and no offset delta overflows. -/
structure Appended (sink other merged : Batch) : Prop where
  same : merged = { sink with
    records := sink.records ++ other.recordsOnto sink.baseTimestamp (sink.lastOffsetDelta + 1)
    lastOffsetDelta := sink.lastOffsetDelta + (other.lastOffsetDelta + 1)
    maxTimestamp := max sink.maxTimestamp other.maxTimestamp }
  last : merged.lastOffsetDelta.toInt = sink.lastOffsetDelta.toInt + (other.lastOffsetDelta.toInt + 1)
  offsets : ∀ record ∈ other.records, (record.offsetDelta + (sink.lastOffsetDelta + 1)).toInt =
    record.offsetDelta.toInt + (sink.lastOffsetDelta.toInt + 1)

theorem appendRebased_eq_ok (ok : sink.appendRebased other = .ok merged) : Appended sink other merged := by
  obtain ⟨_, begun, ok⟩ := bind_eq_ok_iff.mp ok
  obtain ⟨records, moved, ok⟩ := bind_eq_ok_iff.mp ok
  have onto := Rebase.onto_eq_ok begun
  have same : records = other.recordsOnto sink.baseTimestamp (sink.lastOffsetDelta + 1) := by
    refine eq_map_of_mapM moved fun record _ result here => ?_
    obtain ⟨_, found, rfl⟩ := map_eq_ok_iff.mp here
    rw [(Rebase.deltas_eq_ok found).1, onto.first, onto.shift]
    rfl
  cases ok
  refine ⟨?_, onto.sum, fun record member => ?_⟩
  · rw [same, onto.last]
  · obtain ⟨_, here⟩ := ok_of_mapM moved record member
    obtain ⟨_, found, _⟩ := map_eq_ok_iff.mp here
    rw [← onto.fits, ← onto.first]
    exact (Rebase.deltas_eq_ok found).2

/-- A batch is appended when the offsets of both together fit, and those of its records are among its own. -/
theorem exists_appendRebased {sink other : Batch} (front : 0 ≤ sink.lastOffsetDelta.toInt + 1)
    (more : 0 ≤ other.lastOffsetDelta.toInt + 1)
    (few : sink.lastOffsetDelta.toInt + 1 + (other.lastOffsetDelta.toInt + 1) < 2 ^ 31)
    (within : ∀ record ∈ other.records, record.offsetDelta.toInt < other.lastOffsetDelta.toInt + 1) :
    ∃ merged, sink.appendRebased other = .ok merged := by
  have one : (1 : Int32).toInt = 1 := by decide
  have first := checkedAdd32_eq (a := sink.lastOffsetDelta) (b := 1) (by omega) (by omega)
  have counted := checkedAdd32_eq (a := other.lastOffsetDelta) (b := 1) (by omega) (by omega)
  have sum := toInt_checkedAdd32 counted
  have last := checkedAdd32_eq (a := sink.lastOffsetDelta) (b := other.lastOffsetDelta + 1) (by omega) (by omega)
  have start := toInt_checkedAdd32 first
  refine ⟨_, bind_eq_ok_iff.mpr ⟨_, by rw [Rebase.onto, first, counted, bind_some, last], bind_eq_ok_iff.mpr
    ⟨other.recordsOnto sink.baseTimestamp (sink.lastOffsetDelta + 1), mapM_of_forall₂ ?_, rfl⟩⟩⟩
  rw [recordsOnto, List.forall₂_map_right_iff, List.forall₂_same]
  intro record member
  have below := within record member
  have above := record.offsetDelta.le_toInt
  have moved := checkedAdd32_eq (a := record.offsetDelta) (b := sink.lastOffsetDelta + 1) (by omega) (by omega)
  rw [Rebase.deltas, moved]
  rfl

def recordsFrom (base : Int64) : Int32 → List Batch → List Record
  | _, [] => []
  | first, batch :: rest =>
    batch.recordsOnto base first ++ recordsFrom base (first + (batch.lastOffsetDelta + 1)) rest

def lastFrom (last : Int32) (batches : List Batch) : Int32 :=
  batches.foldl (fun last batch => last + (batch.lastOffsetDelta + 1)) last

def maxTimestampFrom (greatest : Int64) (batches : List Batch) : Int64 :=
  batches.foldl (fun greatest batch => max greatest batch.maxTimestamp) greatest

theorem foldlM_appendRebased {sink : Batch} (ok : batches.foldlM appendRebased sink = .ok merged) :
    merged = { sink with
      records := sink.records ++ recordsFrom sink.baseTimestamp (sink.lastOffsetDelta + 1) batches
      lastOffsetDelta := lastFrom sink.lastOffsetDelta batches
      maxTimestamp := maxTimestampFrom sink.maxTimestamp batches } := by
  induction batches generalizing sink with
  | nil =>
    cases ok
    simp only [recordsFrom, lastFrom, maxTimestampFrom, List.append_nil, List.foldl_nil]
  | cons batch _ ih =>
    obtain ⟨_, here, there⟩ := bind_eq_ok_iff.mp ok
    rw [ih there, (appendRebased_eq_ok here).same]
    simp only [recordsFrom, lastFrom, maxTimestampFrom, List.append_assoc, List.foldl_cons]
    congr 3
    rw [Int32.add_assoc, Int32.add_comm (batch.lastOffsetDelta + 1), ← Int32.add_assoc]

def extent (batches : List Batch) : Int :=
  (batches.map fun batch => batch.lastOffsetDelta.toInt + 1).sum

theorem lastOffsetDelta_foldlM {sink : Batch} (ok : batches.foldlM appendRebased sink = .ok merged) :
    merged.lastOffsetDelta.toInt = sink.lastOffsetDelta.toInt + extent batches := by
  induction batches generalizing sink with
  | nil =>
    cases ok
    exact (Int.add_zero _).symm
  | cons _ _ ih =>
    obtain ⟨_, here, there⟩ := bind_eq_ok_iff.mp ok
    rw [ih there, (appendRebased_eq_ok here).last, extent, extent, List.map_cons, List.sum_cons, Int.add_assoc]

def Places (batch : Batch) (records : List Record) (first : Int) : Prop :=
  ∃ earlier moved later, batch.records = earlier ++ moved ++ later ∧ List.Forall₂ (fun record moved =>
      record.SameContent moved ∧ moved.offsetDelta.toInt = first + record.offsetDelta.toInt) records moved

theorem places_of_foldlM {sink : Batch} (ok : (before ++ batch :: after).foldlM appendRebased sink = .ok merged) :
    merged.Places batch.records (sink.lastOffsetDelta.toInt + 1 + extent before) := by
  rw [List.foldlM_append] at ok
  obtain ⟨middle, first, ok⟩ := bind_eq_ok_iff.mp ok
  obtain ⟨next, here, there⟩ := bind_eq_ok_iff.mp ok
  have appended := appendRebased_eq_ok here
  have last := lastOffsetDelta_foldlM first
  refine ⟨middle.records, batch.recordsOnto middle.baseTimestamp (middle.lastOffsetDelta + 1),
    recordsFrom next.baseTimestamp (next.lastOffsetDelta + 1) after, ?_, ?_⟩
  · rw [foldlM_appendRebased there]
    rw [appended.same]
  · rw [recordsOnto, List.forall₂_map_right_iff, List.forall₂_same]
    intro record member
    refine ⟨⟨rfl, rfl, rfl, rfl⟩, ?_⟩
    have moved := appended.offsets record member
    simp only [Record.rebased]
    omega

theorem places_sink {batches : List Batch}
    (ok : batches.foldlM appendRebased sink = .ok merged) : merged.Places sink.records 0 := by
  refine ⟨[], sink.records, recordsFrom sink.baseTimestamp (sink.lastOffsetDelta + 1) batches, ?_, ?_⟩
  · rw [foldlM_appendRebased ok]
    rfl
  · rw [List.forall₂_same]
    intro record _
    exact ⟨⟨rfl, rfl, rfl, rfl⟩, (Int.zero_add _).symm⟩

end Inflated.Batch

namespace BatchAttribute

@[simp]
theorem tryFrom_toI16 (value : BatchAttribute) : tryFrom value.toI16 = some value := by
  obtain ⟨compression, timestamp, transaction, control, deleteHorizon⟩ := value
  cases compression <;> cases timestamp <;> cases transaction <;> cases control <;> cases deleteHorizon <;> rfl

theorem compression_toI16 (value : BatchAttribute) : Compression.tryFrom value.toI16 = some value.compression := by
  obtain ⟨_, known, same⟩ := map_eq_some_iff.mp value.tryFrom_toI16
  rw [known, ← congrArg BatchAttribute.compression same]

theorem timestamp_toI16 (value : BatchAttribute) : TimestampType.from value.toI16 = value.timestamp := by
  obtain ⟨_, _, same⟩ := map_eq_some_iff.mp value.tryFrom_toI16
  exact congrArg BatchAttribute.timestamp same

theorem control_toI16 (value : BatchAttribute) :
    (value.toI16 &&& controlBitmask == controlBitmask) = value.control := by
  obtain ⟨compression, timestamp, transaction, control, deleteHorizon⟩ := value
  cases compression <;> cases timestamp <;> cases transaction <;> cases control <;> cases deleteHorizon <;> rfl

theorem timestamp_of_tryFrom {attributes : Int16} (known : tryFrom attributes = some value) :
    value.timestamp = TimestampType.from attributes := by
  obtain ⟨_, _, rfl⟩ := map_eq_some_iff.mp known
  rfl

end BatchAttribute

def Codec.Lossless (codec : Codec) : Prop :=
  ∀ compression bytes compressed,
    codec.compress compression bytes = some compressed → codec.inflate compression compressed = some bytes

def Record.decodedSize (compression : Compression) (record : Record) : Nat :=
  record.allocatedSize + if compression = .none then 0 else record.size

theorem Record.sum_decodedSize (compressed : compression ≠ .none)
    (records : List Record) : (records.map (Record.decodedSize compression)).sum =
      (records.map Record.allocatedSize).sum + (records.map Record.size).sum := by
  rw [← List.sum_map_add]
  congr 1
  refine List.map_congr_left fun record _ => ?_
  rw [Record.decodedSize, if_neg compressed]

namespace Deflated

variable {codec : Codec} {records : List Record} {batch : Inflated.Batch} {deflated : Batch}

/-- A batch that was encoded decodes to its records, unless they are over the budget. -/
theorem records_of_tryFromInflated (lossless : codec.Lossless) {compression : Compression}
    (known : Compression.tryFrom batch.attributes = some compression)
    (ok : Batch.tryFromInflated codec batch = some deflated) :
    deflated.records codec = if (batch.records.map (Record.decodedSize compression)).sum ≤ maxDecodedBatchBytes then
        some batch.records else none := by
  by_cases plain : compression = .none
  · subst plain
    have fits := fits_of_tryFromInflated known ok
    obtain ⟨_, same, carries⟩ :
        ∃ other, Batch.tryFromInflated codec batch = some other ∧ other.Carries batch :=
      tryFromInflated_eq known fits
    rw [ok] at same
    cases same
    exact records_eq known fits carries
  · rw [Batch.tryFromInflated, known] at ok
    obtain ⟨_, ⟨⟩, rest⟩ := bind_eq_some_iff.mp ok
    obtain ⟨recordData, encoded, rest⟩ := bind_eq_some_iff.mp rest
    split at rest
    next counted =>
      split at rest
      next =>
        cases rest
        obtain ⟨fits, compressed⟩ := intoRecordData_eq_some encoded
        rw [if_neg plain] at compressed
        have inflated := lossless _ _ _ compressed
        have count : (UInt32.ofNat batch.records.length).toNat = batch.records.length := by
          rw [UInt32.toNat_ofNat']
          omega
        have least := sizeOfRecord_mul_length_le batch.records
        have length := length_flatMap_bytes batch.records
        rw [Record.sum_decodedSize plain, Batch.records, Batch.tryRecords]
        simp only [known, some.injEq, plain, false_and, if_false, Batch.exceedsDecodedRecordCountLimit, count,
          decide_eq_true_eq]
        split
        · rw [if_neg (by omega)]
          rfl
        · cases compression with
          | none => exact absurd rfl plain
          | gzip | snappy | lz4 | zstd =>
            simp only [inflated, length]
            split
            · rw [tryDecodeRecords_flatMap fits (by omega)]
              split
              · rw [if_pos (by omega)]
                rfl
              · rw [if_neg (by omega)]
                rfl
            · rw [if_neg (by omega)]
              rfl
      next => cases rest
    next => cases rest

end Deflated

namespace Inflated.Batch

variable {codec : Codec} {batch : Batch} {deflated : Deflated.Batch}

theorem tryFrom_of_tryFromInflated (lossless : codec.Lossless)
    (known : Compression.tryFrom batch.attributes = some compression)
    (ok : Deflated.Batch.tryFromInflated codec batch = some deflated) :
    tryFrom codec deflated = if (batch.records.map (Record.decodedSize compression)).sum ≤ maxDecodedBatchBytes then
        some batch else none := by
  rw [tryFrom, Deflated.records_of_tryFromInflated lossless known ok]
  rw [Deflated.Batch.tryFromInflated, known] at ok
  obtain ⟨_, ⟨⟩, rest⟩ := bind_eq_some_iff.mp ok
  obtain ⟨_, _, rest⟩ := bind_eq_some_iff.mp rest
  split at rest
  · split at rest
    · cases rest
      split <;> rfl
    · cases rest
  · cases rest

end Inflated.Batch

structure ConsumerRecord where
  key : Option (List UInt8)
  value : Option (List UInt8)
  headers : List Header
  timestamp : Int64
  deriving DecidableEq

namespace Inflated.Batch

def consumerRecord (batch : Batch) (record : Record) : ConsumerRecord where
  key := record.key
  value := record.value
  headers := record.headers
  timestamp := batch.recordTimestamp record

def consumerRecords (batch : Batch) : List ConsumerRecord :=
  batch.records.map batch.consumerRecord

theorem consumerRecords_attributes (batch : Batch) {attributes : Int16}
    (kind : TimestampType.from attributes = TimestampType.from batch.attributes) :
    ({ batch with attributes } : Batch).consumerRecords = batch.consumerRecords := by
  refine List.map_congr_left fun record _ => ?_
  simp only [consumerRecord, recordTimestamp, kind]

def SameTimes (batch whole : Batch) : Prop :=
  TimestampType.from whole.attributes = TimestampType.from batch.attributes ∧
    (TimestampType.from batch.attributes = .logAppendTime → whole.maxTimestamp = batch.maxTimestamp)

theorem SameTimes.consumerRecord_rebased {batch : Batch} (same : batch.SameTimes whole) (record : Record)
    (first : Int32) :
    whole.consumerRecord (record.rebased first (batch.baseTimestamp - whole.baseTimestamp)) =
      batch.consumerRecord record := by
  have timestamp : whole.recordTimestamp
      (record.rebased first (batch.baseTimestamp - whole.baseTimestamp)) = batch.recordTimestamp record := by
    rw [recordTimestamp, recordTimestamp, same.1]
    cases kind : TimestampType.from batch.attributes with
    | logAppendTime => exact same.2 kind
    | createTime =>
      simp only [Record.rebased]
      grind
  rw [consumerRecord, timestamp]
  rfl

/-- Batches that are read at the same time as the whole are read one after another. -/
theorem map_consumerRecord_recordsFrom {whole : Batch} (first : Int32)
    (same : ∀ batch ∈ batches, batch.SameTimes whole) :
    (recordsFrom whole.baseTimestamp first batches).map whole.consumerRecord =
      (batches.map consumerRecords).flatten := by
  induction batches generalizing first with
  | nil => rfl
  | cons _ _ ih =>
    obtain ⟨here, there⟩ := List.forall_mem_cons.mp same
    rw [recordsFrom, List.map_append, ih _ there, recordsOnto, List.map_map]
    congr 1
    refine List.map_congr_left fun record _ => ?_
    exact here.consumerRecord_rebased record first

end Inflated.Batch

def Deflated.Batch.consumerRecords (codec : Codec) (batch : Deflated.Batch) : Option (List ConsumerRecord) :=
  (Inflated.Batch.tryFrom codec batch).map Inflated.Batch.consumerRecords

end Nisshi.SansIo
