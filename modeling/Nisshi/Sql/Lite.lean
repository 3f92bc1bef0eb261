import Nisshi.Lib.Paging
import Nisshi.SansIo.TopicConfig
import Nisshi.Sql.Rebuild
import Nisshi.Storage.OffsetStage

/-! `fetch` of the SQLite engine on the topics of a cluster, with the topic name that each of its queries is
given. A topic `base/key` is a view of the records of `base` that have the key. -/

namespace Nisshi.Sql.Lite

open Nisshi.Lib Nisshi.SansIo Nisshi.Storage

/-- A row of `record` with its rows of `header`, in order. A produce stores the time of a record as it is. -/
structure Stored where
  offset : Int64
  attributes : Option Int16
  timestamp : Int64
  key : Octets
  value : Octets
  producerId : Option Int64
  producerEpoch : Option Int16
  headers : List Header
  deriving DecidableEq

/-- `coalesce(length(r.k), 0) + coalesce(length(r.v), 0)`. -/
def Stored.bytes (stored : Stored) : Nat :=
  (stored.key.map List.length).getD 0 + (stored.value.map List.length).getD 0

/-- The columns of a row. `LiteTimestamp::try_from` refuses a time before the epoch. -/
def Stored.row (stored : Stored) : Option Row :=
  if sinceEpoch : ¬stored.timestamp < 0 then
    some
      { offset := stored.offset
        attributes := stored.attributes
        timestamp := stored.timestamp
        key := stored.key
        value := stored.value
        producerId := stored.producerId
        producerEpoch := stored.producerEpoch
        headers := stored.headers
        sinceEpoch }
  else none

/-- A partition with its watermark, the first offset of its transactions that have not ended, and its rows in
the order of the primary key. -/
structure Partition where
  low : Option Int64
  high : Option Int64
  ongoing : Option Int64
  rows : List Stored
  sorted : rows.Pairwise fun earlier later => earlier.offset < later.offset

structure Topic where
  name : String
  configurations : List (String × Option String)
  partitions : List (Int32 × Partition)
  distinct : (partitions.map Prod.fst).Nodup

structure Database where
  topics : List Topic
  distinct : (topics.map Topic.name).Nodup

def Partition.offsetStage (partition : Partition) : OffsetStage :=
  let low := partition.low.getD 0
  let high := partition.high.getD 0
  let stable := partition.ongoing.map fun offset => if offset < low then low else offset
  { lastStable := (stable.getD high).toInt, highWatermark := high.toInt, logStart := low.toInt }

def Partition.candidates (partition : Partition) (offset : Int64) (highWatermark : Int) : List Stored :=
  partition.rows.filter fun row => decide (offset ≤ row.offset) && decide (row.offset.toInt < highWatermark)

def Partition.keyed (partition : Partition) (offset : Int64) (highWatermark : Int) (key : List UInt8) : List Stored :=
  partition.rows.filter fun row => decide (offset ≤ row.offset) && decide (row.offset.toInt < highWatermark) &&
    decide (row.key = some key)

def splitOnce (delimiter : Char) (text : String) : Option (String × String) :=
  match text.toList.dropWhile (· ≠ delimiter) with
  | [] => none
  | _ :: after => some (String.ofList (text.toList.takeWhile (· ≠ delimiter)), String.ofList after)

def parseBool (text : String) : Option Bool :=
  if text = "true" then some true else if text = "false" then some false else none

def asBytes (text : String) : List UInt8 :=
  text.toUTF8.toList

namespace Database

variable (database : Database)

def topic (name : String) : Option Topic :=
  database.topics.find? fun topic => topic.name = name

def partition (name : String) (index : Int32) : Option Partition :=
  (database.topic name).bind fun topic =>
    (topic.partitions.find? fun entry => entry.1 = index).map Prod.snd

/-- `describe_config`: a configuration without a value has an empty one, and a topic that does not exist has no
configurations. -/
def describeConfig (name : String) : List (String × String) :=
  ((database.topic name).map fun topic =>
    topic.configurations.map fun entry => (entry.1, entry.2.getD "")).getD []

def isVirtual (base : String) : Bool :=
  ((TopicConfig.lookup (database.describeConfig base) TopicConfig.virtual).bind parseBool).getD false

def topicWithKey (topic : String) : String × Option String :=
  match splitOnce '/' topic with
  | none => (topic, none)
  | some (base, key) => if database.isVirtual base then (base, some key) else (topic, none)

def baseTopic (topic : String) : String :=
  (database.topicWithKey topic).1

def offsetStage (topic : String) (index : Int32) : Option OffsetStage :=
  (database.partition (database.baseTopic topic) index).map Partition.offsetStage

def recordFetch (topic : String) (index : Int32) (offset : Int64) (maxBytes : Nat) (highWatermark : Int) :
    List Stored :=
  ((database.partition topic index).map fun partition =>
    Paging.sized Stored.bytes maxBytes 0 1 (partition.candidates offset highWatermark)).getD []

def recordFetchKeyed (topic : String) (index : Int32) (offset : Int64) (maxBytes : Nat) (highWatermark : Int)
    (key : List UInt8) : List Stored :=
  ((database.partition topic index).map fun partition =>
    Paging.sized Stored.bytes maxBytes 0 1 (partition.keyed offset highWatermark key)).getD []

def headerFetch (topic : String) (index : Int32) (offset : Int64) : List Header :=
  ((database.partition topic index).bind fun partition =>
    (partition.rows.find? fun row => row.offset = offset).map Stored.headers).getD []

end Database

def rebuild (env : Env) : Nat → List Stored → List Deflated.Batch → Inflated.Batch → Option (List Deflated.Batch)
  | _, [], batches, builder => do
    let batch ← finish env.codec builder
    pure (batches ++ [batch])
  | number, stored :: rest, batches, builder =>
    if env.hasDeadlineExpired number then do
      let batch ← finish env.codec builder
      pure (batches ++ [batch])
    else do
      let row ← stored.row
      let (batches, builder) ←
        if row.cuts builder then do
          let batch ← finish env.codec builder
          pure (batches ++ [batch], row.builder env.now)
        else pure (batches, builder)
      let builder ← push (env.headers row) row builder
      rebuild env (number + 1) rest batches builder

def firstBuilder (env : Env) (row : Row) : Inflated.Batch :=
  { row.builder env.now with
    records :=
      [{ attributes := 0, timestampDelta := 0, offsetDelta := 0, key := row.key, value := row.value,
         headers := env.headers row }]
    lastOffsetDelta := 0 }

def batches (env : Env) : List Stored → Option (List Deflated.Batch)
  | [] => do
    let batch ← (builder env.now).deflated env.codec
    pure [batch]
  | first :: rest => do
    let row ← first.row
    rebuild env 0 rest [] (firstBuilder env row)

structure Request where
  now : Int64
  maxBytes : Nat
  hasDeadlineExpired : Nat → Bool

/-- The rows are read from the base topic of a view, and their headers from the topic of the request. -/
def Database.fetch (database : Database) (codec : Codec) (topic : String) (index : Int32)
    (isolationLevel : IsolationLevel) (request : Request) (offset : Int64) : Option (List Deflated.Batch) := do
  let (baseTopic, keyFilter) := database.topicWithKey topic
  let stage ← database.offsetStage topic index
  let highWatermark :=
    if isolationLevel = .readCommitted then stage.lastStable else stage.highWatermark
  let records := match keyFilter with
    | some key =>
      database.recordFetchKeyed baseTopic index offset request.maxBytes highWatermark (asBytes key)
    | none => database.recordFetch topic index offset request.maxBytes highWatermark
  batches
    { codec
      now := request.now
      headers := fun row => database.headerFetch topic index row.offset
      hasDeadlineExpired := request.hasDeadlineExpired }
    records

end Nisshi.Sql.Lite
