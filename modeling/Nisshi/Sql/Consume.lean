import Nisshi.Lib.Paging
import Nisshi.Sql.Rebuild

/-! What a consumer reads from the batches of a Postgres fetch: the stored rows from the fetch offset on,
in offset order, as far as the fetch got. -/

namespace Nisshi.Sql

open Nisshi.Lib Nisshi.SansIo List Option Function

structure Delivered where
  offset : Int
  timestamp : Int64
  key : Octets
  value : Octets
  headers : List Header
  deriving DecidableEq

def Inflated.Batch.delivered (batch : Inflated.Batch) : List Delivered :=
  batch.records.map fun record =>
    { offset := batch.baseOffset.toInt + record.offsetDelta.toInt
      timestamp := batch.recordTimestamp record
      key := record.key
      value := record.value
      headers := record.headers }

def Row.delivered (row : Row) : Delivered where
  offset := row.offset.toInt
  timestamp := row.timestamp
  key := row.key
  value := row.value
  headers := row.headers

def Row.deliveredWith (headers : Row → List Header) (row : Row) : Delivered :=
  { row.delivered with headers := headers row }

section Query

variable {maxBytes total ordinal : Nat} {rows : List Row}

theorem sized_eq : sized maxBytes total ordinal rows = Paging.sized Row.bytes maxBytes total ordinal rows := by
  induction rows generalizing total ordinal with
  | nil => rfl
  | cons _ _ ih => rw [sized, Paging.sized, ih]

theorem sized_isPrefix (counted : 0 < ordinal) : sized maxBytes total ordinal rows <+: rows := by
  rw [sized_eq]
  exact Paging.sized_isPrefix counted

theorem sized_ne_nil (some_ : rows ≠ []) : sized maxBytes total 1 rows ≠ [] := by
  rw [sized_eq]
  exact Paging.sized_ne_nil some_

theorem sized_eq_self (below : total + (rows.map Row.bytes).sum < maxBytes) :
    sized maxBytes total ordinal rows = rows := by
  rw [sized_eq]
  exact Paging.sized_eq_self below

theorem beforeDeadline_eq_self (number : Nat) (rows : List Row) :
    beforeDeadline (fun _ => false) number rows = rows := by
  induction rows generalizing number with
  | nil => rfl
  | cons _ _ ih => simp [beforeDeadline, ih]

theorem beforeDeadline_isPrefix (hasDeadlineExpired : Nat → Bool) (number : Nat) (rows : List Row) :
    beforeDeadline hasDeadlineExpired number rows <+: rows := by
  induction rows generalizing number with
  | nil => exact prefix_rfl
  | cons _ _ ih =>
    rw [beforeDeadline, prefix_cons_inj]
    split
    · exact nil_prefix
    · exact ih (number + 1)

theorem beforeDeadline_ne_nil (hasDeadlineExpired : Nat → Bool) (number : Nat) (some_ : rows ≠ []) :
    beforeDeadline hasDeadlineExpired number rows ≠ [] := by
  cases rows with
  | nil => exact absurd rfl some_
  | cons => exact cons_ne_nil _ _

theorem Engine.limit_isPrefix (engine : Engine) (rows : List Row) : engine.limit rows <+: rows := by
  cases engine with
  | postgres => exact take_prefix _ _
  | sqlite => exact prefix_rfl

theorem Engine.limit_ne_nil (engine : Engine) (some_ : rows ≠ []) : engine.limit rows ≠ [] := by
  cases engine with
  | postgres => simpa [Engine.limit, rowsPerFetch] using some_
  | sqlite => exact some_

variable (engine : Engine) (table : Table) (offset highWatermark : Int64) (maxBytes : Nat)
  (key : Option (List UInt8))

theorem recordFetch_isPrefix :
    engine.recordFetch table offset highWatermark maxBytes key <+: table.candidates offset highWatermark key :=
  (sized_isPrefix Nat.one_pos).trans (engine.limit_isPrefix _)

theorem recordFetch_ne_nil (some_ : table.candidates offset highWatermark key ≠ []) :
    engine.recordFetch table offset highWatermark maxBytes key ≠ [] :=
  sized_ne_nil (engine.limit_ne_nil some_)

theorem recordFetch_sublist : (engine.recordFetch table offset highWatermark maxBytes key).Sublist table.rows :=
  (recordFetch_isPrefix ..).sublist.trans filter_sublist

end Query

section Batch

variable {env : Env} {base row : Row} {tail : List Row}

theorem baseOffset_runBatch : (runBatch env (base :: tail)).baseOffset = base.offset := by
  rw [runBatch, Inflated.Batch.maxTimestampOfRecords]
  split <;> rfl

theorem attributes_runBatch : (runBatch env (base :: tail)).attributes = base.batchAttributes := by
  rw [runBatch, Inflated.Batch.maxTimestampOfRecords]
  split <;> rfl

theorem baseTimestamp_runBatch : (runBatch env (base :: tail)).baseTimestamp = base.timestamp := by
  rw [runBatch, Inflated.Batch.maxTimestampOfRecords]
  split <;> rfl

theorem lastOffsetDelta_runBatch : (runBatch env (base :: tail)).lastOffsetDelta =
    Int32.ofInt ((tail.getLast?.getD base).offset.toInt - base.offset.toInt) := by
  rw [runBatch, Inflated.Batch.maxTimestampOfRecords]
  split <;> rfl

theorem records_runBatch : (runBatch env (base :: tail)).records = (base :: tail).map (base.record env.headers) := by
  rfl

theorem maxTimestamp_runBatch (same : ∀ row ∈ tail, row.timestamp = base.timestamp) :
    (runBatch env (base :: tail)).maxTimestamp = base.timestamp := by
  have deltas : ((runBuilder env base tail).records.map Record.timestampDelta) = replicate (tail.length + 1) 0 := by
    rw [eq_replicate_iff]
    refine ⟨by simp [runBuilder], fun delta member => ?_⟩
    simp only [runBuilder, List.map_map, List.mem_map] at member
    obtain ⟨row, found, rfl⟩ := member
    rcases mem_cons.mp found with rfl | later
    · simp [Row.record]
    · simp [Row.record, same row later]
  have idempotent : Std.IdempotentOp (max : Int64 → Int64 → Int64) := ⟨fun _ => ite_self _⟩
  rw [runBatch, Inflated.Batch.maxTimestampOfRecords, deltas, max?_replicate]
  exact Int64.add_zero _

theorem toInt_offsetDelta (within : base.Within row) :
    (Int32.ofInt (row.offset.toInt - base.offset.toInt)).toInt = row.offset.toInt - base.offset.toInt :=
  Int32.toInt_ofInt_of_le within.1 within.2

theorem delivered_runBatch (within : RunWithin (base :: tail)) (goes : ∀ row ∈ tail, base.continues row = true) :
    Inflated.Batch.delivered (runBatch env (base :: tail)) = (base :: tail).map (Row.deliveredWith env.headers) := by
  have all : ∀ row ∈ base :: tail, base.continues row = true := fun row member => by
    rcases mem_cons.mp member with rfl | later
    · exact row.continues_self
    · exact goes row later
  rw [Inflated.Batch.delivered, records_runBatch, List.map_map]
  refine map_congr_left fun row member => ?_
  have timestamp : (runBatch env (base :: tail)).recordTimestamp (base.record env.headers row) = row.timestamp := by
    rw [Inflated.Batch.recordTimestamp, attributes_runBatch]
    cases type : TimestampType.from base.batchAttributes with
    | createTime =>
      simp only [baseTimestamp_runBatch, Row.record]
      rw [Int64.add_comm, Int64.sub_add_cancel]
    | logAppendTime =>
      have equal : ∀ other ∈ base :: tail, other.timestamp = base.timestamp := fun other found => by
        have continued := all other found
        simp only [Row.continues, Bool.and_eq_true, beq_iff_eq] at continued
        obtain ⟨⟨⟨attributes, _⟩, _⟩, time⟩ := continued
        rw [← attributes, type] at time
        simpa using time
      rw [maxTimestamp_runBatch fun other found => equal other (mem_cons_of_mem _ found), equal row member]
  simp only [comp, Row.deliveredWith, Row.delivered, Delivered.mk.injEq, timestamp, baseOffset_runBatch, true_and]
  refine ⟨?_, rfl, rfl, rfl⟩
  have here : base.Within row := within row member
  rw [Row.record, toInt_offsetDelta here]
  omega

end Batch

def runRecords (headers : Row → List Header) : List Row → List Record
  | [] => []
  | base :: tail => (base :: tail).map (base.record headers)

/-- The batch of the run has a length that fits its field, and decodes within the budget. -/
structure RunFits (headers : Row → List Header) (run : List Row) : Prop where
  encoded : Deflated.fixedBatchLength + ((runRecords headers run).map Record.size).sum < 2 ^ 31
  decoded : (run.map fun row => Record.sizeOfRecord + (headers row).length * Headers.sizeOfHeader).sum ≤
    maxDecodedBatchBytes

instance (headers : Row → List Header) (run : List Row) : Decidable (RunFits headers run) :=
  decidable_of_iff _ ⟨fun both => ⟨both.1, both.2⟩, fun fits => And.intro fits.encoded fits.decoded⟩

section Codec

variable {codec : Codec} {batches : List Inflated.Batch} {wire : List Deflated.Batch}

def Plain (batches : List Inflated.Batch) : Prop :=
  ∀ batch ∈ batches, Compression.tryFrom batch.attributes = some .none

theorem decoded_of_fits (plain : Plain batches)
    (fits : ∀ batch ∈ batches, batch.Fits ∧ batch.decodedSize ≤ maxDecodedBatchBytes) :
    ∃ wire, batches.mapM (Inflated.Batch.deflated codec) = some wire ∧
      wire.mapM (Inflated.Batch.tryFrom codec) = some batches ∧ List.Forall₂ Deflated.Batch.Carries wire batches := by
  induction batches with
  | nil => exact ⟨[], rfl, rfl, .nil⟩
  | cons batch _ ih =>
    have here := plain batch mem_cons_self
    obtain ⟨fit, budget⟩ := fits batch mem_cons_self
    obtain ⟨deflated, made, carries⟩ := Inflated.Batch.deflated_eq here fit
    obtain ⟨others, mades, decoded, related⟩ := ih
      (fun other member => plain other (mem_cons_of_mem _ member))
      fun other member => fits other (mem_cons_of_mem _ member)
    have back := Inflated.Batch.tryFrom_eq here made
    rw [if_pos budget] at back
    exact ⟨deflated :: others, by rw [mapM_cons, made, mades]; rfl,
      by rw [mapM_cons, back, decoded]; rfl, .cons carries related⟩

theorem disjoint_of_carries (carries : List.Forall₂ Deflated.Batch.Carries wire batches)
    (apart : batches.Pairwise fun earlier later =>
      earlier.baseOffset.toInt + earlier.lastOffsetDelta.toInt < later.baseOffset.toInt) :
    wire.Pairwise fun earlier later =>
      earlier.baseOffset.toInt + earlier.lastOffsetDelta.toInt < later.baseOffset.toInt := by
  have same : wire.map (fun batch => (batch.baseOffset, batch.lastOffsetDelta)) =
      batches.map fun batch => (batch.baseOffset, batch.lastOffsetDelta) := by
    rw [← forall₂_eq_eq_eq, forall₂_map_left_iff, forall₂_map_right_iff]
    refine carries.imp fun deflated batch one => ?_
    exact congrArg (fun header : Inflated.Batch => (header.baseOffset, header.lastOffsetDelta))
      one.header.symm
  have mapped : (batches.map fun batch => (batch.baseOffset, batch.lastOffsetDelta)).Pairwise
      fun earlier later => earlier.1.toInt + earlier.2.toInt < later.1.toInt := by
    rw [pairwise_map]
    exact apart
  rw [← same, pairwise_map] at mapped
  exact mapped

theorem fits_of_decoded (plain : Plain batches) (made : batches.mapM (Inflated.Batch.deflated codec) = some wire)
    (decoded : wire.mapM (Inflated.Batch.tryFrom codec) = some inflated) :
    ∀ batch ∈ batches, batch.Fits ∧ batch.decodedSize ≤ maxDecodedBatchBytes := by
  have related := mapM_eq_some_iff.mp made
  clear made
  induction related generalizing inflated with
  | nil => simp
  | @cons batch deflated rest others made _ ih =>
    have here := plain batch mem_cons_self
    rw [mapM_cons] at decoded
    obtain ⟨_, back, decoded⟩ := bind_eq_some_iff.mp decoded
    obtain ⟨_, later, _⟩ := bind_eq_some_iff.mp decoded
    rw [Inflated.Batch.tryFrom_eq here made] at back
    intro other member
    rcases mem_cons.mp member with rfl | found
    · refine ⟨Inflated.Batch.fits_of_deflated here made, ?_⟩
      by_contra exceeds
      rw [if_neg exceeds] at back
      cases back
    · exact ih (fun other member => plain other (mem_cons_of_mem _ member)) later other found

end Codec

section Rebuilt

variable {env : Env} {rows run : List Row}

theorem mem_of_mem_run (found : run ∈ runs Row.continues rows) (member : row ∈ run) : row ∈ rows := by
  rw [← flatten_runs Row.continues rows]
  exact mem_flatten_of_mem found member

theorem Near.runWithin (near : Near rows) (subset : others ⊆ rows) (found : run ∈ runs Row.continues others) :
    RunWithin run := by
  have stored {row : Row} (member : row ∈ run) : row ∈ rows := subset (mem_of_mem_run found member)
  intro row member
  obtain ⟨_, _, rfl, _⟩ := of_mem_runs found
  exact near.within (stored mem_cons_self) (stored member)

theorem runBatch_fits_iff (nonempty : run ≠ []) :
    ((runBatch env run).Fits ∧ (runBatch env run).decodedSize ≤ maxDecodedBatchBytes) ↔ RunFits env.headers run := by
  cases run with
  | nil => exact absurd rfl nonempty
  | cons base tail =>
    have decoded : (runBatch env (base :: tail)).decodedSize = ((base :: tail).map fun row =>
        Record.sizeOfRecord + (env.headers row).length * Headers.sizeOfHeader).sum := by
      rw [Inflated.Batch.decodedSize, records_runBatch, List.map_map]
      rfl
    rw [decoded]
    exact ⟨fun both => ⟨both.1, both.2⟩, fun fits => ⟨fits.encoded, fits.decoded⟩⟩

theorem plain_rebuilt (plain : ∀ row ∈ rows, Compression.tryFrom row.batchAttributes = some .none) :
    Plain (rebuilt env rows) := by
  intro batch member
  cases rows with
  | nil =>
    obtain rfl := mem_singleton.mp member
    change Compression.tryFrom 0 = some .none
    decide
  | cons =>
    obtain ⟨_, found, rfl⟩ := mem_map.mp member
    obtain ⟨base, _, rfl, _⟩ := of_mem_runs found
    exact plain base ((beforeDeadline_isPrefix _ _ _).subset (mem_of_mem_run found mem_cons_self))

theorem rebuilt_fits_iff (env : Env) (rows : List Row) :
    (∀ batch ∈ rebuilt env rows, batch.Fits ∧ batch.decodedSize ≤ maxDecodedBatchBytes) ↔
      ∀ run ∈ runs Row.continues (beforeDeadline env.hasDeadlineExpired 0 rows), RunFits env.headers run := by
  cases rows with
  | nil =>
    refine ⟨fun _ => nofun, fun _ batch member => ?_⟩
    obtain rfl := mem_singleton.mp member
    exact ⟨show Deflated.fixedBatchLength + 0 < 2 ^ 31 by decide, Nat.zero_le _⟩
  | cons =>
    rw [rebuilt, List.forall_mem_map]
    refine forall₂_congr fun run found => runBatch_fits_iff ?_
    obtain ⟨_, _, rfl, _⟩ := of_mem_runs found
    exact cons_ne_nil _ _

theorem delivered_rebuilt (within : ∀ run ∈ runs Row.continues (beforeDeadline env.hasDeadlineExpired 0 rows),
    RunWithin run) : (rebuilt env rows).flatMap Inflated.Batch.delivered =
      (beforeDeadline env.hasDeadlineExpired 0 rows).map (Row.deliveredWith env.headers) := by
  cases rows with
  | nil => rfl
  | cons first rest =>
    have each : ∀ run ∈ runs Row.continues (beforeDeadline env.hasDeadlineExpired 0 (first :: rest)),
        Inflated.Batch.delivered (runBatch env run) = run.map (Row.deliveredWith env.headers) :=
          fun run found => by
      have here := within run found
      obtain ⟨_, _, rfl, goes⟩ := of_mem_runs found
      exact delivered_runBatch here goes
    rw [rebuilt, flatMap_map, flatMap_congr each, flatMap_def, ← map_flatten, flatten_runs]

theorem disjoint_rebuilt (near : Near rows)
    (sorted : rows.Pairwise fun earlier later => earlier.offset < later.offset) :
    (rebuilt env rows).Pairwise fun earlier later =>
      earlier.baseOffset.toInt + earlier.lastOffsetDelta.toInt < later.baseOffset.toInt := by
  cases rows with
  | nil => exact pairwise_singleton _ _
  | cons first rest =>
    have taken := beforeDeadline_isPrefix env.hasDeadlineExpired 0 (first :: rest)
    have ordered := sorted.sublist taken.sublist
    rw [← flatten_runs Row.continues (beforeDeadline _ _ _), pairwise_flatten] at ordered
    rw [rebuilt, pairwise_map]
    refine ordered.2.imp_of_mem fun {earlier later} found found' apart => ?_
    obtain ⟨base, tail, rfl, _⟩ := of_mem_runs found
    obtain ⟨next, after, rfl, _⟩ := of_mem_runs found'
    have last : tail.getLast?.getD base ∈ base :: tail := by
      cases end_ : tail.getLast? with
      | none => exact mem_cons_self
      | some => exact mem_cons_of_mem _ (mem_of_getLast? end_)
    have within : base.Within (tail.getLast?.getD base) :=
      near.within (taken.subset (mem_of_mem_run found mem_cons_self))
        (taken.subset (mem_of_mem_run found last))
    have less := Int64.lt_iff_toInt_lt.mp (apart _ last next mem_cons_self)
    rw [baseOffset_runBatch, baseOffset_runBatch, lastOffsetDelta_runBatch, toInt_offsetDelta within]
    omega

end Rebuilt

/-- What a consumer is promised of the batches for the rows from the fetch offset to the high
watermark. -/
structure Faithful (codec : Codec) (wanted : List Row) (batches : List Deflated.Batch) : Prop where
  decoded : ∃ inflated rows, batches.mapM (Inflated.Batch.tryFrom codec) = some inflated ∧
    rows <+: wanted ∧ (wanted ≠ [] → rows ≠ []) ∧
    inflated.flatMap Inflated.Batch.delivered = rows.map Row.delivered
  disjoint : batches.Pairwise fun earlier later =>
    earlier.baseOffset.toInt + earlier.lastOffsetDelta.toInt < later.baseOffset.toInt

section Fetch

variable {codec : Codec} {now : Int64} {hasDeadlineExpired : Nat → Bool} {table : Table}
  {offset highWatermark : Int64} {maxBytes : Nat} {key : Option (List UInt8)}

theorem fetch_eq (engine : Engine) (near : Near table.rows) :
    engine.fetch codec now hasDeadlineExpired table offset highWatermark maxBytes key =
      (rebuilt (engine.env codec now hasDeadlineExpired key)
        (engine.recordFetch table offset highWatermark maxBytes key)).mapM
          (Inflated.Batch.deflated codec) := by
  rw [Engine.fetch, batches_eq, if_pos]
  · rfl
  · intro run found
    exact near.runWithin (List.Subset.trans (beforeDeadline_isPrefix ..).subset (recordFetch_sublist ..).subset)
      found

variable (plain : ∀ row ∈ table.rows, Compression.tryFrom row.batchAttributes = some .none)
  (near : Near table.rows)
include plain near

theorem faithful_of_fits
    (fits : ∀ run ∈ runs Row.continues (Engine.postgres.returned hasDeadlineExpired table offset
      highWatermark maxBytes key), RunFits Row.headers run) :
    ∃ batches, Engine.postgres.fetch codec now hasDeadlineExpired table offset highWatermark maxBytes key =
      some batches ∧ Faithful codec (table.candidates offset highWatermark key) batches := by
  have picked := recordFetch_isPrefix .postgres table offset highWatermark maxBytes key
  have sublist := recordFetch_sublist .postgres table offset highWatermark maxBytes key
  rw [fetch_eq .postgres near]
  obtain ⟨wire, made, decoded, carries⟩ := decoded_of_fits
    (plain_rebuilt fun row member => plain row (sublist.subset member))
    ((rebuilt_fits_iff (Engine.postgres.env codec now hasDeadlineExpired key) _).mpr fits)
  refine ⟨wire, made, ⟨_, _, decoded, (beforeDeadline_isPrefix _ _ _).trans picked, fun some_ => ?_,
    delivered_rebuilt ?_⟩, ?_⟩
  · exact beforeDeadline_ne_nil _ _ (recordFetch_ne_nil _ _ _ _ _ _ some_)
  · intro run found
    exact near.runWithin (List.Subset.trans (beforeDeadline_isPrefix ..).subset sublist.subset) found
  · exact disjoint_of_carries carries
      (disjoint_rebuilt (near.mono sublist.subset) (table.sorted.sublist sublist))

theorem fits_of_faithful {batches : List Deflated.Batch}
    (fetched : Engine.postgres.fetch codec now hasDeadlineExpired table offset highWatermark maxBytes key =
      some batches) (faithful : Faithful codec (table.candidates offset highWatermark key) batches) :
    ∀ run ∈ runs Row.continues (Engine.postgres.returned hasDeadlineExpired table offset highWatermark
      maxBytes key), RunFits Row.headers run := by
  have sublist := recordFetch_sublist .postgres table offset highWatermark maxBytes key
  rw [fetch_eq .postgres near] at fetched
  obtain ⟨_, _, decoded, _⟩ := faithful.decoded
  exact (rebuilt_fits_iff _ _).mp (fits_of_decoded
    (plain_rebuilt fun row member => plain row (sublist.subset member)) fetched decoded)

/-- A Postgres fetch returns batches that decode to the rows from the fetch offset on, in order and as
they are stored, exactly when the batch of each run fits its length field and the budget of the
decoder. -/
theorem fetch_delivers_stored_rows_iff :
    (∃ batches, Engine.postgres.fetch codec now hasDeadlineExpired table offset highWatermark maxBytes key =
      some batches ∧ Faithful codec (table.candidates offset highWatermark key) batches) ↔
      ∀ run ∈ runs Row.continues (Engine.postgres.returned hasDeadlineExpired table offset highWatermark
        maxBytes key), RunFits Row.headers run := by
  constructor
  · rintro ⟨_, fetched, faithful⟩
    exact fits_of_faithful plain near fetched faithful
  · exact faithful_of_fits plain near

end Fetch

def Row.bare (offset : Int64) (headers : List Header) : Row where
  offset
  attributes := none
  timestamp := 0
  key := none
  value := none
  producerId := none
  producerEpoch := none
  headers
  sinceEpoch := by decide

def gapTable : Table where
  rows :=
    [{ Row.bare 3 [] with key := some [1], value := some [2, 3] },
      { Row.bare 5 [{ key := some [4], value := none }] with timestamp := 70, sinceEpoch := by decide },
      { Row.bare 9 [] with attributes := some 8, timestamp := 80, sinceEpoch := by decide }]
  sorted := by decide

def verbatim : Codec where
  compress := fun _ data => some data
  inflate := fun _ data => some data
  crc32c := fun _ => 0

theorem fetch_delivers_stored_rows_iff_gap :
    ∃ batches, Engine.postgres.fetch verbatim 0 (fun _ => false) gapTable 2 10 100 none = some batches ∧
      Faithful verbatim (gapTable.candidates 2 10 none) batches :=
  (fetch_delivers_stored_rows_iff (by decide) (by decide)).mpr (by decide +kernel)

def emptyHeaders : List Header :=
  List.replicate 15000 { key := none, value := none }

def headerTable : Table where
  rows := (List.range 110).map fun i => Row.bare (Int64.ofNat i) emptyHeaders
  sorted := by
    rw [List.pairwise_map]
    refine List.pairwise_lt_range.imp_of_mem fun {i j} low high less => ?_
    rw [List.mem_range] at low high
    have first : (Int64.ofNat i).toInt = i := Int64.toInt_ofNat_of_lt (by omega)
    have second : (Int64.ofNat j).toInt = j := Int64.toInt_ofNat_of_lt (by omega)
    rw [Int64.lt_iff_toInt_lt, Row.bare, Row.bare, first, second]
    omega

theorem mem_headerTable (member : row ∈ headerTable.rows) :
    ∃ i < 110, row = Row.bare (Int64.ofNat i) emptyHeaders ∧ row.offset.toInt = i := by
  obtain ⟨i, found, rfl⟩ := mem_map.mp member
  have small := mem_range.mp found
  exact ⟨i, small, rfl, Int64.toInt_ofNat_of_lt (by omega)⟩

theorem returned_headerTable :
    Engine.postgres.returned (fun _ => false) headerTable 0 110 1 none = headerTable.rows := by
  have all : headerTable.candidates 0 110 none = headerTable.rows := by
    refine filter_eq_self.mpr fun row member => ?_
    obtain ⟨i, small, _, offset⟩ := mem_headerTable member
    have low : 0 ≤ row.offset := by
      rw [Int64.le_iff_toInt_le, offset]
      exact Int.natCast_nonneg i
    have high : row.offset < 110 := by
      rw [Int64.lt_iff_toInt_lt, offset]
      change (i : Int) < 110
      omega
    simp [low, high]
  have few : headerTable.rows.length ≤ rowsPerFetch := by
    simp [headerTable, rowsPerFetch]
  have empty : (headerTable.rows.map Row.bytes).sum = 0 := by
    refine sum_eq_zero fun size member => ?_
    obtain ⟨_, found, rfl⟩ := mem_map.mp member
    obtain ⟨_, _, rfl, _⟩ := mem_headerTable found
    rfl
  rw [Engine.returned, beforeDeadline_eq_self, Engine.recordFetch, all, Engine.limit, take_of_length_le few,
    sized_eq_self (by omega)]

theorem runs_headerTable : runs Row.continues headerTable.rows = [headerTable.rows] := by
  have first : headerTable.rows = Row.bare 0 emptyHeaders ::
      (range' 1 109).map fun i => Row.bare (Int64.ofNat i) emptyHeaders := by
    change (range 110).map (fun i => Row.bare (Int64.ofNat i) emptyHeaders) = _
    rfl
  refine runsFrom_eq_singleton fun row member => ?_
  obtain ⟨_, _, rfl⟩ := mem_map.mp member
  simp [Row.continues, Row.bare, Row.batchAttributes, Row.batchProducerId, Row.batchProducerEpoch]

/-- Each of these records decodes in a batch of its own, and the batch that a fetch makes of them does
not. -/
theorem fetch_merges_past_decode_budget :
    ¬∃ batches, Engine.postgres.fetch verbatim 0 (fun _ => false) headerTable 0 110 1 none = some batches ∧
      Faithful verbatim (headerTable.candidates 0 110 none) batches := by
  rintro ⟨batches, fetched, faithful⟩
  have plain : ∀ row ∈ headerTable.rows, Compression.tryFrom row.batchAttributes = some .none := by
    intro row member
    obtain ⟨i, _, rfl, _⟩ := mem_headerTable member
    change Compression.tryFrom 0 = some .none
    decide
  have near : Near headerTable.rows := by
    intro first member second member'
    obtain ⟨i, _, _, offset⟩ := mem_headerTable member
    obtain ⟨j, _, _, offset'⟩ := mem_headerTable member'
    omega
  have fits := fits_of_faithful plain near fetched faithful
  rw [returned_headerTable, runs_headerTable] at fits
  have budget := (fits _ (mem_singleton_self _)).decoded
  have sizes : headerTable.rows.map (fun row => Record.sizeOfRecord +
      row.headers.length * Headers.sizeOfHeader) = replicate 110 (112 + 15000 * 64) := by
    refine eq_replicate_iff.mpr ⟨by simp [headerTable], fun size member => ?_⟩
    obtain ⟨_, found, rfl⟩ := mem_map.mp member
    obtain ⟨_, _, rfl, _⟩ := mem_headerTable found
    rw [Row.bare, emptyHeaders, length_replicate]
    rfl
  rw [sizes, sum_replicate_nat, maxDecodedBatchBytes] at budget
  omega

end Nisshi.Sql
