import Nisshi.Lib.Runs
import Nisshi.SansIo.BatchCodec

/-! `fetch` of the SQL engines on one partition: the query that picks the rows, and the loop that puts
their records into batches again. -/

namespace Nisshi.Sql

open Nisshi.Lib Nisshi.SansIo

/-- A row of `record` with its rows of `header`, in order. A produce stores no time before the epoch. -/
structure Row where
  offset : Int64
  attributes : Option Int16
  timestamp : Int64
  key : Octets
  value : Octets
  producerId : Option Int64
  producerEpoch : Option Int16
  headers : List Header
  sinceEpoch : ¬timestamp < 0

structure Table where
  rows : List Row
  sorted : rows.Pairwise fun earlier later => earlier.offset < later.offset

/-- `coalesce(length(k), 0) + coalesce(length(v), 0)`. -/
def Row.bytes (row : Row) : Nat :=
  (row.key.map List.length).getD 0 + (row.value.map List.length).getD 0

/-- The rows from the fetch offset to the high watermark, of the key for a keyed topic. -/
def Table.candidates (table : Table) (offset highWatermark : Int64) (key : Option (List UInt8)) : List Row :=
  table.rows.filter fun row => decide (offset ≤ row.offset) && decide (row.offset < highWatermark) &&
    key.all fun key => decide (row.key = some key)

/-- The rows with a running total below the limit, and the first row, from the total and the ordinal
before them on. -/
def sized (maxBytes total ordinal : Nat) : List Row → List Row
  | [] => []
  | row :: rest =>
    let kept := sized maxBytes (total + row.bytes) (ordinal + 1) rest
    if total + row.bytes < maxBytes ∨ ordinal = 1 then row :: kept else kept

inductive Engine where
  | postgres
  | sqlite
  deriving DecidableEq

def rowsPerFetch : Nat :=
  10000

namespace Engine

def limit : Engine → List Row → List Row
  | .postgres, rows => rows.take rowsPerFetch
  | .sqlite, rows => rows

def recordFetch (engine : Engine) (table : Table) (offset highWatermark : Int64) (maxBytes : Nat)
    (key : Option (List UInt8)) : List Row :=
  sized maxBytes 0 1 (engine.limit (table.candidates offset highWatermark key))

/-- The headers that the engine finds for a row. SQLite looks for them under the topic of the request,
which for a keyed topic is not the topic that holds the row. -/
def headers (engine : Engine) (key : Option (List UInt8)) (row : Row) : List Header :=
  match engine with
  | .postgres => row.headers
  | .sqlite => if key.isSome then [] else row.headers

end Engine

def toTimestamp (time : Int64) : Option Int64 :=
  if time < 0 then none else some time

def offsetDelta (offset baseOffset : Int64) : Option Int32 :=
  let delta := offset.toInt - baseOffset.toInt
  if -2 ^ 31 ≤ delta ∧ delta < 2 ^ 31 then some (Int32.ofInt delta) else none

def builder (now : Int64) : Inflated.Batch where
  baseOffset := 0
  partitionLeaderEpoch := -1
  magic := 2
  attributes := 0
  lastOffsetDelta := 0
  baseTimestamp := now
  maxTimestamp := now
  producerId := -1
  producerEpoch := 0
  baseSequence := 0
  records := []

namespace Row

def batchAttributes (row : Row) : Int16 :=
  row.attributes.getD 0

def batchProducerId (row : Row) : Int64 :=
  row.producerId.getD (-1)

def batchProducerEpoch (row : Row) : Int16 :=
  row.producerEpoch.getD (-1)

def builder (now : Int64) (row : Row) : Inflated.Batch :=
  { Sql.builder now with
    baseOffset := row.offset
    attributes := row.batchAttributes
    baseTimestamp := row.timestamp
    producerId := row.batchProducerId
    producerEpoch := row.batchProducerEpoch }

/-- The row does not go into the builder's batch. A consumer reads one time for every record of a
`LogAppendTime` batch, so such a batch holds one time only. -/
def cuts (row : Row) (builder : Inflated.Batch) : Bool :=
  builder.attributes != row.batchAttributes || builder.producerId != row.batchProducerId ||
    builder.producerEpoch != row.batchProducerEpoch ||
    (TimestampType.from row.batchAttributes == .logAppendTime && row.timestamp != builder.baseTimestamp)

end Row

def finish (codec : Codec) (builder : Inflated.Batch) : Option Deflated.Batch :=
  builder.maxTimestampOfRecords.deflated codec

def push (headers : List Header) (row : Row) (builder : Inflated.Batch) : Option Inflated.Batch := do
  let offsetDelta ← offsetDelta row.offset builder.baseOffset
  let record : Record :=
    { attributes := 0, timestampDelta := row.timestamp - builder.baseTimestamp, offsetDelta
      key := row.key, value := row.value, headers }
  pure { builder with records := builder.records ++ [record], lastOffsetDelta := offsetDelta }

/-- What a fetch is given beside the rows: the crates, the clock, which headers a row has, and, for each
record, whether the deadline has passed once it is in its batch. -/
structure Env where
  codec : Codec
  now : Int64
  headers : Row → List Header
  hasDeadlineExpired : Nat → Bool

def rebuild (env : Env) : Nat → List Row → List Deflated.Batch → Inflated.Batch → Option (List Deflated.Batch)
  | _, [], batches, builder => do
    let batch ← finish env.codec builder
    pure (batches ++ [batch])
  | number, row :: rest, batches, builder => do
    let _timestamp ← toTimestamp row.timestamp
    let (batches, builder) ←
      if row.cuts builder then do
        let batch ← finish env.codec builder
        pure (batches ++ [batch], row.builder env.now)
      else pure (batches, builder)
    let builder ← push (env.headers row) row builder
    if env.hasDeadlineExpired number then do
      let batch ← finish env.codec builder
      pure (batches ++ [batch])
    else rebuild env (number + 1) rest batches builder

/-- The batches for the rows of the query. Without rows it is one batch without records. SQLite adds the
first row before its loop, which makes the same batches. -/
def batches (env : Env) : List Row → Option (List Deflated.Batch)
  | [] => do
    let batch ← (builder env.now).deflated env.codec
    pure [batch]
  | first :: rest => do
    let _timestamp ← toTimestamp first.timestamp
    rebuild env 0 (first :: rest) [] (first.builder env.now)

def Engine.env (engine : Engine) (codec : Codec) (now : Int64) (hasDeadlineExpired : Nat → Bool)
    (key : Option (List UInt8)) : Env where
  codec
  now
  headers := engine.headers key
  hasDeadlineExpired

/-- `fetch_on` of Postgres and `fetch` of SQLite, once the high watermark and the key are known. -/
def Engine.fetch (engine : Engine) (codec : Codec) (now : Int64) (hasDeadlineExpired : Nat → Bool)
    (table : Table) (offset highWatermark : Int64) (maxBytes : Nat) (key : Option (List UInt8)) :
    Option (List Deflated.Batch) :=
  batches (engine.env codec now hasDeadlineExpired key)
    (engine.recordFetch table offset highWatermark maxBytes key)

end Nisshi.Sql
