import Nisshi.Dynostore.Fetch

/-! `DynoStore::delete_topic` and `DynoStore::create_topic` of one name, one after another, beside any
produces to one partition of the topic and the fetches of a consumer of it. The keys of a topic hold its
name and not its id, so a topic that is created again has the keys of the deleted one. -/

namespace Nisshi.Dynostore

open Nisshi.Lib Nisshi.SansIo

structure TopicMetadata where
  id : Nat
  numPartitions : Int
  deriving DecidableEq

def ensurePartitionExists (found : Option TopicMetadata) (partition : Int) : Except ErrorCode TopicMetadata :=
  match found with
  | none => .error .unknownTopicOrPartition
  | some metadata =>
    if partition < 0 ∨ partition ≥ metadata.numPartitions then .error .unknownTopicOrPartition
    else .ok metadata

def TimeIndex.ofNewPartition : TimeIndex :=
  { (default : TimeIndex) with complete := true, version := TimeIndex.currentVersion }

def Watermark.recreate (watermark : Watermark) : Watermark :=
  { watermark with high := none, low := none, timeIndex := TimeIndex.ofNewPartition }

@[simp]
theorem Watermark.recreate_next (watermark : Watermark) : watermark.recreate.next = 0 := rfl

@[reducible]
def Produce.Action.attempt {A : Type} : Produce.Action A → A
  | .check a _ => a
  | .ensure a _ => a
  | .readStart a _ => a
  | .readHigh a _ => a
  | .recordStart a => a
  | .assign a => a
  | .recordRange a => a
  | .put a => a
  | .advance a => a
  | .stop a => a

def Produce.Action.writes {A : Type} : Produce.Action A → Bool
  | .assign _ => true
  | .put _ => true
  | _ => false

namespace Topic

inductive Key where
  | watermark
  | record (name : String)
  deriving DecidableEq

inductive Admin where
  | idle
  /-- `delete_topic` lists and deletes the topic's data: the batches there when the listing began, and
  the objects deleted so far. -/
  | sweeping (atStart : Fetch.Objects) (deleted : List Key)
  /-- The data is deleted. The committed offsets are deleted next, and then the metadata. -/
  | swept
  /-- `create_topic` has stored the metadata. -/
  | creating (numPartitions : Int)
  | created

/-- A produce before its sequence check. -/
inductive Entry where
  | idle
  | called
  | admitted
  | refused (code : ErrorCode)
  deriving DecidableEq

structure State (A : Type) where
  consumer : Fetch.State A
  /-- The topic's entries in the documents that `meta.json` has held, newest first. -/
  topic : Option TopicMetadata
  earlierTopics : List (Option TopicMetadata)
  admin : Admin
  entry : A → Entry
  /-- The number of `create_topic` calls that have returned a topic, now and when a produce started. -/
  life : Nat
  began : A → Nat
  writer : String → Option A
  /-- `life` when the newest fetch started, and the attempts whose batches it has read, by base offset. -/
  fetchBegan : Nat
  sources : List (Int × A)

namespace State

variable {A : Type}

def start (store : Meta) : State A where
  consumer := .start store
  topic := none
  earlierTopics := []
  admin := .idle
  entry := fun _ => .idle
  life := 0
  began := fun _ => 0
  writer := fun _ => none
  fetchBegan := 0
  sources := []

def log (s : State A) : Produce.State A :=
  s.consumer.log

def setLog (s : State A) (log : Produce.State A) : State A :=
  { s with consumer := s.consumer.setLog log }

def setConsumer (s : State A) (consumer : Fetch.State A) : State A :=
  { s with consumer }

def setAdmin (s : State A) (admin : Admin) : State A :=
  { s with admin }

def setTopic (s : State A) (topic : Option TopicMetadata) : State A :=
  { s with topic, earlierTopics := s.topic :: s.earlierTopics }

def setEntry [DecidableEq A] (s : State A) (a : A) (entry : Entry) : State A :=
  { s with entry := Function.update s.entry a entry }

def noteCall [DecidableEq A] (s : State A) (a : A) : State A :=
  { s with began := Function.update s.began a s.life }

def noteWriter (s : State A) (key : String) (a : A) : State A :=
  { s with writer := Function.update s.writer key (some a) }

def noteFetch (s : State A) : State A :=
  { s with fetchBegan := s.life, sources := [] }

def reads (s : State A) : List (Int × A) :=
  match s.consumer.phase with
  | .getting _ _ base =>
    match s.log.objects (batchPath base), s.writer (batchPath base) with
    | some _, some a => [(base, a)]
    | _, _ => []
  | _ => []

def noteRead (s : State A) : State A :=
  { s with sources := s.sources ++ s.reads }

def nextLife (s : State A) : State A :=
  { s with life := s.life + 1 }

def Live (s : State A) : Prop :=
  s.admin = .idle ∧ s.topic.isSome = true

end State

/-- What deleting one object leaves of the partition. A watermark that is not stored reads as the default
one, so a deleted watermark is the default one. -/
def Key.delete {A : Type} (log : Produce.State A) : Key → Produce.State A
  | .watermark => log.setWatermark default
  | .record name => { log with objects := Function.update log.objects name none }

inductive Action (A : Type) where
  | call (a : A)
  | enter (a : A)
  | produce (action : Produce.Action A)
  | others (store : Meta)
  | begin (offset : Int) (maxBytes : Nat) (highWatermark : Int)
  | fetch (action : Fetch.Action A)
  | delete
  | sweep (key : Key)
  | endSweep
  | removeMetadata
  | create (metadata : TopicMetadata)
  | reset
  | returnCreate

variable {A : Type} [DecidableEq A]

inductive Step (topition : Topition) (program : A → Produce.Attempt) :
    State A → Action A → State A → Prop where
  | call {s a} (at_ : s.entry a = .idle) :
      Step topition program s (.call a) ((s.noteCall a).setEntry a .called)
  | enter {s a found metadata} (at_ : s.entry a = .called) (read : found ∈ s.topic :: s.earlierTopics)
      (exists_ : ensurePartitionExists found topition.partition = .ok metadata) :
      Step topition program s (.enter a) (s.setEntry a .admitted)
  | refuse {s a found code} (at_ : s.entry a = .called) (read : found ∈ s.topic :: s.earlierTopics)
      (unknown : ensurePartitionExists found topition.partition = .error code) :
      Step topition program s (.enter a) (s.setEntry a (.refused code))
  | produce {s action log} (step : Produce.Step topition program s.log action log)
      (admitted : s.entry action.attempt = .admitted) (other : ∀ a, action ≠ .put a) :
      Step topition program s (.produce action) (s.setLog log)
  | put {s a offset} (admitted : s.entry a = .admitted) (at_ : s.log.phase a = .recorded offset)
      (absent : s.log.objects (batchPath offset) = none) :
      Step topition program s (.produce (.put a)) ((s.setLog ((s.log.putObject (batchPath offset)
        (program a).deflated.toBytes).setPhase a (.stored offset))).noteWriter (batchPath offset) a)
  | putExists {s a offset bytes} (admitted : s.entry a = .admitted)
      (at_ : s.log.phase a = .recorded offset) (present : s.log.objects (batchPath offset) = some bytes) :
      Step topition program s (.produce (.put a))
        (s.setLog (s.log.setPhase a (.answered (.failed .other))))
  -- Any other call of any broker changes the producers and transactions of `meta.json`.
  | others {s} (store : Meta) : Step topition program s (.others store) (s.setLog (s.log.setStore store))
  -- The bound of a fetch is a high watermark or a last stable offset that its broker's caches gave.
  | begin {s} (offset : Int) (maxBytes : Nat) (highWatermark : Int) (at_ : s.consumer.phase = .idle) :
      Step topition program s (.begin offset maxBytes highWatermark) (s.noteFetch.setConsumer
        { s.consumer with
          position := offset
          phase := if offset ≥ highWatermark then .fetched [] else
            .seeking { offset, maxBytes, highWatermark } 0 })
  | fetch {s action consumer} (reading : consumer.log = s.log) (running : s.consumer.phase ≠ .idle)
      (step : Fetch.Step topition program s.consumer action consumer) :
      Step topition program s (.fetch action) (s.noteRead.setConsumer consumer)
  | delete {s found} (at_ : s.admin = .idle) (read : found ∈ s.topic :: s.earlierTopics) :
      Step topition program s .delete (s.setAdmin
        (match found with
          | none => .idle
          | some _ =>
            -- The empty name drops out of the key, so its prefix is every topic's data.
            if topition.topic = "" then .swept else .sweeping s.log.objects []))
  | sweep {s atStart deleted} (key : Key) (at_ : s.admin = .sweeping atStart deleted) :
      Step topition program s (.sweep key)
        ((s.setLog (key.delete s.log)).setAdmin (.sweeping atStart (key :: deleted)))
  -- A listing ends once it has named every object that was there when it began.
  | endSweep {s atStart deleted} (at_ : s.admin = .sweeping atStart deleted)
      (watermark : .watermark ∈ deleted)
      (records : ∀ name, (atStart name).isSome = true → .record name ∈ deleted) :
      Step topition program s .endSweep (s.setAdmin .swept)
  | removeMetadata {s} (at_ : s.admin = .swept) :
      Step topition program s .removeMetadata ((s.setTopic none).setAdmin .idle)
  | create {s} (metadata : TopicMetadata) (at_ : s.admin = .idle) (absent : s.topic = none) :
      Step topition program s (.create metadata)
        ((s.setTopic (some metadata)).setAdmin (.creating metadata.numPartitions))
  | createExists {s existing} (metadata : TopicMetadata) (at_ : s.admin = .idle)
      (present : s.topic = some existing) : Step topition program s (.create metadata) s
  | reset {s numPartitions} (at_ : s.admin = .creating numPartitions) :
      Step topition program s .reset ((s.setLog
        (if 0 ≤ topition.partition ∧ topition.partition < numPartitions then
          s.log.setWatermark s.log.watermark.recreate
        else s.log)).setAdmin .created)
  | returnCreate {s} (at_ : s.admin = .created) :
      Step topition program s .returnCreate (s.setAdmin .idle).nextLife

def machine (topition : Topition) (program : A → Produce.Attempt) (store : Meta) : Machine (State A) (Action A) where
  init := fun s => s = State.start store
  step := Step topition program

end Topic

end Nisshi.Dynostore
