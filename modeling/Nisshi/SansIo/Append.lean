import Nisshi.SansIo.RoundTrip

/-! `Batch::append_rebased` and `Batch::appended_decoded_size`: a batch that is appended to another follows its
records, and costs the decoder what was computed before. -/

namespace Nisshi.SansIo

open Nisshi.Lib Nisshi.Lib.MachineInt List Option Function

namespace Record

def bodySizeWithDeltas (record : Record) (timestampDelta : Int64) (offsetDelta : Int32) : Option Nat := do
  let key ← Octets.sizeInBytes record.key
  let value ← Octets.sizeInBytes record.value
  let headers ← Headers.sizeInBytes record.headers
  pure (1 + LongVarInt.sizeInBytes timestampDelta + VarInt.sizeInBytes offsetDelta + key + value + headers)

def sizeInBytesWithDeltas (record : Record) (timestampDelta : Int64) (offsetDelta : Int32) : Option Nat := do
  let body ← record.bodySizeWithDeltas timestampDelta offsetDelta
  let length ← VarInt.tryFrom body
  pure (VarInt.sizeInBytes length + body)

theorem rebased_rebased (record : Record) (first second : Int32) (early late : Int64) :
    (record.rebased first early).rebased second late = record.rebased (first + second) (early + late) := by
  rw [rebased, rebased, rebased, Int32.add_assoc, Int64.add_assoc]

end Record

theorem decodedRecordSize_eq_none_iff {record : Record} :
    decodedRecordSize record compression = none ↔ compression ≠ .none ∧ record.sizeInBytes = none := by
  rw [decodedRecordSize]
  split
  next plain => simp [plain]
  next compressed => simp [compressed]

def Rebase.decodedRecordSize (rebase : Rebase) (record : Record) (compression : Compression) : Option Nat := do
  let (timestampDelta, offsetDelta) ← (rebase.deltas record).toOption
  if compression = .none then some record.allocatedSize
  else (record.sizeInBytesWithDeltas timestampDelta offsetDelta).map (saturatingAddUsize record.allocatedSize)

namespace Inflated.Batch

variable {sink other merged : Batch} {compression : Compression}

def appendedDecodedSize (sink other : Batch) (compression : Compression) : Option Nat := do
  let rebase ← (Rebase.onto sink other).toOption
  other.records.foldlM
    (fun size record => (rebase.decodedRecordSize record compression).map (saturatingAddUsize size)) 0

theorem appendedDecodedSize_eq (sink other : Batch) (compression : Compression) :
    sink.appendedDecodedSize other compression = (sink.appendRebased other).toOption.bind fun merged =>
      ((merged.records.drop sink.records.length).mapM (decodedRecordSize · compression)).map
        fun sizes => min sizes.sum usizeMax := by
  rw [appendedDecodedSize, appendRebased]
  cases Rebase.onto sink other with
  | error => rfl
  | ok rebase =>
    have charged : (rebase.decodedRecordSize · compression) = fun record =>
        ((rebase.deltas record).map fun (timestampDelta, offsetDelta) =>
          { record with timestampDelta, offsetDelta }).toOption.bind (decodedRecordSize · compression) := by
      funext record
      rw [Rebase.decodedRecordSize]
      cases rebase.deltas record <;> rfl
    change other.records.foldlM _ 0 = bind (Except.toOption (Except.bind (other.records.mapM _) _)) _
    rw [foldlM_saturatingAddUsize _ (Nat.zero_le _), charged, ← mapM_bind_mapM, ← toOption_mapM]
    cases other.records.mapM fun record => (rebase.deltas record).map fun (timestampDelta, offsetDelta) =>
        { record with timestampDelta, offsetDelta } with
    | error e => rfl
    | ok moved =>
      change Option.map _ (moved.mapM _) = Option.map _ ((drop _ (sink.records ++ moved)).mapM _)
      rw [drop_left]
      simp only [Nat.zero_add]

theorem records_of_appendRebased (ok : sink.appendRebased other = .ok merged) :
    merged.records = sink.records ++ other.recordsOnto sink.baseTimestamp (sink.lastOffsetDelta + 1) := by
  rw [(appendRebased_eq_ok ok).same]

theorem decodedSizeFor_of_appendRebased (ok : sink.appendRebased other = .ok merged) (compression : Compression) :
    merged.decodedSizeFor compression = (sink.decodedSizeFor compression).bind fun size =>
      (sink.appendedDecodedSize other compression).map (saturatingAddUsize size) := by
  rw [appendedDecodedSize_eq, ok, decodedSizeFor_eq_mapM, decodedSizeFor_eq_mapM]
  change _ = bind _ fun size => Option.map _ (Option.map _ ((merged.records.drop _).mapM _))
  rw [records_of_appendRebased ok, drop_left, mapM_append]
  cases sink.records.mapM (decodedRecordSize · compression) with
  | none => rfl
  | some front =>
    cases (other.recordsOnto sink.baseTimestamp (sink.lastOffsetDelta + 1)).mapM
        (decodedRecordSize · compression) with
    | none => rfl
    | some back =>
      change some (min (front ++ back).sum usizeMax) =
        some (min (min front.sum usizeMax + min back.sum usizeMax) usizeMax)
      rw [sum_append]
      congr 1
      omega

theorem offsetDeltaOverflow_of_appendRebased (failed : sink.appendRebased other = .error error) :
    ∃ field, error = .offsetDeltaOverflow field := by
  rcases bind_eq_error_iff.mp failed with begun | ⟨_, _, failed⟩
  · rw [Rebase.onto] at begun
    split at begun
    · cases begun
      exact ⟨_, rfl⟩
    · split at begun <;> cases begun
      exact ⟨_, rfl⟩
  · rcases bind_eq_error_iff.mp failed with moved | ⟨_, _, last⟩
    · obtain ⟨_, _, here⟩ := error_of_mapM moved
      rw [Rebase.deltas] at here
      split at here <;> cases here
      exact ⟨_, rfl⟩
    · cases last

/-- The merged batch has the records of the first batch and then those of the second, as a consumer reads
them, and the offsets of the second go on behind those of the first. -/
structure Concatenates (sink other merged : Batch) : Prop where
  front : merged.records.take sink.records.length = sink.records
  consumed : merged.consumerRecords = sink.consumerRecords ++ other.consumerRecords
  offsets : List.Forall₂ (fun record moved : Record => merged.baseOffset.toInt + moved.offsetDelta.toInt =
    sink.baseOffset.toInt + sink.lastOffsetDelta.toInt + 1 + record.offsetDelta.toInt)
    other.records (merged.records.drop sink.records.length)

theorem concatenates_of_appendRebased (kind : TimestampType.from sink.attributes = .createTime)
    (otherKind : TimestampType.from other.attributes = .createTime)
    (ok : sink.appendRebased other = .ok merged) : Concatenates sink other merged := by
  have appended := appendRebased_eq_ok ok
  have records := records_of_appendRebased ok
  constructor
  · rw [records, take_left]
  · have mine : merged.attributes = sink.attributes := by rw [appended.same]
    have base : merged.baseTimestamp = sink.baseTimestamp := by rw [appended.same]
    have same : other.SameTimes merged := by
      refine ⟨by rw [mine, kind, otherKind], fun stamped => ?_⟩
      rw [otherKind] at stamped
      cases stamped
    rw [consumerRecords, records, map_append]
    congr 1
    · refine map_congr_left fun record _ => ?_
      simp only [consumerRecord, recordTimestamp, mine, base, kind]
    · rw [recordsOnto, List.map_map]
      refine map_congr_left fun record _ => ?_
      rw [← base]
      exact same.consumerRecord_rebased record _
  · have base : merged.baseOffset = sink.baseOffset := by rw [appended.same]
    rw [records, drop_left, recordsOnto, forall₂_map_right_iff, forall₂_same]
    intro record member
    have moved := appended.offsets record member
    change merged.baseOffset.toInt + (record.offsetDelta + (sink.lastOffsetDelta + 1)).toInt = _
    rw [base]
    omega

theorem maxTimestamp_assoc (first second third : Int64) :
    max (max first second) third = max first (max second third) := by
  change (if (if first ≤ second then second else first) ≤ third then third
    else if first ≤ second then second else first) = if first ≤ (if second ≤ third then third else second) then
      if second ≤ third then third else second else first
  grind

theorem appendRebased_assoc {a : Batch} (first : a.appendRebased b = .ok ab) (leftOk : ab.appendRebased c = .ok left)
    (second : b.appendRebased c = .ok bc) (rightOk : a.appendRebased bc = .ok right) : left = right := by
  rw [(appendRebased_eq_ok leftOk).same, (appendRebased_eq_ok rightOk).same, (appendRebased_eq_ok first).same,
    (appendRebased_eq_ok second).same]
  simp only [recordsOnto, map_append, List.map_map, append_assoc]
  congr 1
  · grind
  · exact maxTimestamp_assoc _ _ _
  · congr 2
    refine map_congr_left fun record _ => ?_
    rw [comp, Record.rebased_rebased]
    congr 1 <;> grind

/-- A batch that cannot be appended is refused for an offset delta. One that is appended follows the records of
the first, costs what was computed before, and may be appended before or after the first is. What it costs is
not known before when it is to be compressed and has a record that is too large for that. -/
theorem append_rebased_concatenates (a b : Batch) (kind : TimestampType.from a.attributes = .createTime)
    (otherKind : TimestampType.from b.attributes = .createTime) :
    ((∃ field, a.appendRebased b = .error (.offsetDeltaOverflow field)) ∨
      ∃ merged, a.appendRebased b = .ok merged ∧ Concatenates a b merged ∧
        ∀ compression, merged.decodedSizeFor compression = (a.decodedSizeFor compression).bind fun size =>
          (a.appendedDecodedSize b compression).map (saturatingAddUsize size)) ∧
    (∀ compression, a.appendedDecodedSize b compression = none ↔
      (∃ error, a.appendRebased b = .error error) ∨ compression ≠ .none ∧ ∃ merged,
        a.appendRebased b = .ok merged ∧ ∃ record ∈ merged.records.drop a.records.length, record.sizeInBytes = none) ∧
    ∀ c ab bc left right, a.appendRebased b = .ok ab → ab.appendRebased c = .ok left →
      b.appendRebased c = .ok bc → a.appendRebased bc = .ok right → left = right := by
  refine ⟨?_, fun compression => ?_, fun c ab bc left right => appendRebased_assoc⟩
  · cases appended : a.appendRebased b with
    | error =>
      obtain ⟨field, rfl⟩ := offsetDeltaOverflow_of_appendRebased appended
      exact .inl ⟨field, rfl⟩
    | ok merged =>
      exact .inr ⟨merged, rfl, concatenates_of_appendRebased kind otherKind appended,
        decodedSizeFor_of_appendRebased appended⟩
  · rw [appendedDecodedSize_eq]
    cases a.appendRebased b with
    | error => simp [Except.toOption]
    | ok =>
      simp only [Except.toOption, bind_some, map_eq_none_iff, mapM_eq_none_iff,
        decodedRecordSize_eq_none_iff, reduceCtorEq, exists_false, false_or, Except.ok.injEq, exists_eq_left']
      constructor
      · rintro ⟨record, member, compressed, large⟩
        exact ⟨compressed, record, member, large⟩
      · rintro ⟨compressed, record, member, large⟩
        exact ⟨record, member, compressed, large⟩

def lone (value : List UInt8) : Batch :=
  { gzipBatch with records := [⟨0, 0, 0, none, some value, []⟩] }

theorem append_rebased_concatenates_twice : ∃ merged, (lone [1]).appendRebased (lone [2]) = .ok merged ∧
    Concatenates (lone [1]) (lone [2]) merged ∧ merged.decodedSizeFor .gzip = some 240 := by
  obtain ⟨_, failed⟩ | ⟨merged, ok, concatenates, size⟩ :=
    (append_rebased_concatenates (lone [1]) (lone [2]) rfl rfl).1
  · cases failed
  · refine ⟨merged, ok, concatenates, ?_⟩
    rw [size]
    decide +kernel

theorem exists_appendRebased_lone (value : List UInt8) : ∃ merged, (lone []).appendRebased (lone value) = .ok merged ∧
      merged.records.drop 1 = [⟨0, 0, 1, none, some value, []⟩] := by
  have one : checkedAdd32 0 1 = some 1 := by decide
  simp only [appendRebased, Rebase.onto, Rebase.deltas, lone, gzipBatch, one, bind_some, bind, Except.bind,
    pure, Except.pure, mapM_cons, mapM_nil, Except.map]
  exact ⟨_, rfl, rfl⟩

/-- A record with a value of two gibibytes is appended, and what it costs once it is compressed is not known. -/
theorem append_rebased_outgrows_size : ∃ a b merged : Batch,
    TimestampType.from a.attributes = .createTime ∧ TimestampType.from b.attributes = .createTime ∧
    a.appendRebased b = .ok merged ∧ a.appendedDecodedSize b .gzip = none := by
  obtain ⟨merged, ok, moved⟩ := exists_appendRebased_lone (replicate (2 ^ 31) 0)
  refine ⟨_, _, merged, rfl, rfl, ok, ?_⟩
  have large : Octets.sizeInBytes (some (replicate (2 ^ 31) 0)) = none := by
    rw [Octets.sizeInBytes, length_replicate]
    rfl
  rw [appendedDecodedSize_eq, ok, Except.toOption, bind_some, map_eq_none_iff, mapM_eq_none_iff]
  refine ⟨_, moved ▸ mem_singleton_self _, decodedRecordSize_eq_none_iff.mpr ⟨by decide, ?_⟩⟩
  rw [Record.sizeInBytes, Record.bodySizeInBytes]
  simp only [large]
  rfl

end Inflated.Batch

end Nisshi.SansIo
