import Nisshi.Dynostore.TimeIndex

/-! `DynoStore::timestamp_lookup` on one partition, by any number of calls of any brokers, beside any number
of produces and `delete_records` calls. A lookup whose index is not complete backfills it first: it marks the
backfill in the watermark, lists the batches, reads them one by one into a candidate, and merges the
candidate into the watermark. -/

namespace Nisshi.Dynostore.Lookup

open Nisshi.Lib Nisshi.SansIo

def batchSettledAfter : Int :=
  10 * 60 * 1000

structure Backfill where
  token : Nat
  low : Int
  high : Int
  began : Int

/-! `collect_time_index_candidate`, batch by batch. -/

structure Collect where
  candidate : TimeIndex
  nextOffset : Option Int
  settled : Bool
  /-- The base offsets that the listing named, with the write times. -/
  listed : List (Int × Int)
  queue : List (Int × Int)

namespace Collect

def start (backfill : Backfill) (listed : List (Int × Int)) : Collect where
  candidate := default
  nextOffset := some backfill.low
  settled := true
  listed := listed
  queue := listed

/-- The gap check: a batch that does not continue the one before it leaves the candidate unsettled, unless
it is old enough. -/
def settles (backfill : Backfill) (collect : Collect) (baseOffset written : Int) : Bool :=
  let age := max (backfill.began - written) 0
  collect.settled && ((collect.nextOffset.all fun expected => baseOffset ≤ expected) || age ≥ batchSettledAfter)

def visit (codec : Codec) (backfill : Backfill) (collect : Collect) (baseOffset written : Int)
    (rest : List (Int × Int)) (read : Option Deflated.Batch) : Collect :=
  let settled := collect.settles backfill baseOffset written
  match read with
  | none => { collect with settled, nextOffset := none, queue := rest }
  | some batch =>
    let maxTimestamp := maxRecordTimestamp codec batch
    { collect with
      candidate :=
        if settled then
          collect.candidate.append maxTimestamp baseOffset batch.batchLength.toInt.toNat
        else collect.candidate.observe maxTimestamp
      nextOffset := some (baseOffset + batch.lastOffsetDelta.toInt + 1)
      settled
      queue := rest }

def finish (backfill : Backfill) (collect : Collect) : TimeIndex :=
  if collect.settled && !(collect.listed.length > 0 &&
      collect.nextOffset.any fun expected => expected < backfill.high) then
    collect.candidate.markComplete
  else collect.candidate

end Collect

/-! The answer of a lookup from an index. -/

def sequentialTimestampScan (codec : Codec) (objects : Fetch.Objects) (target low : Int) :
    List Int → Except ErrorCode (Option (Int × Int64))
  | [] => .ok none
  | baseOffset :: rest =>
    match objects (batchPath baseOffset) with
    | none => sequentialTimestampScan codec objects target low rest
    | some bytes =>
      match (Deflated.Batch.tryFrom bytes).bind fun read => Inflated.Batch.tryFrom codec read.1 with
      | none => .error .kafkaStorageError
      | some inflated =>
        let found := inflated.records.find? fun record =>
          low ≤ baseOffset + record.offsetDelta.toInt && target ≤ (inflated.recordTimestamp record).toInt
        match found with
        | some record =>
          .ok (some (baseOffset + record.offsetDelta.toInt, inflated.recordTimestamp record))
        | none => sequentialTimestampScan codec objects target low rest

structure Request where
  target : Int
  lastStable : Option Int

/-- `timestamp_lookup` from the index and the log start on. `near start` is the order in which the store lists
from `start` on. -/
def answer (codec : Codec) (objects : Fetch.Objects) (near : Int → List Int) (request : Request)
    (index : TimeIndex) (low : Int) : Except ErrorCode (Option (Int × Int64)) :=
  if request.target > index.maxTimestamp then .ok none
  else
    match sequentialTimestampScan codec objects request.target low
        (near (index.floorOffset request.target)) with
    | .error code => .error code
    | .ok found =>
      match found.filter fun found => request.lastStable.all fun lastStable => found.1 < lastStable with
      | none => .ok none
      | some (offset, timestamp) =>
        -- `list_offsets` answers this code for a timestamp before the epoch.
        match toSystemTime timestamp with
        | none => .error .kafkaStorageError
        | some timestamp => .ok (some (offset, timestamp))

inductive Phase where
  | start
  /-- The index was not complete, and the lookup waits for the gate of its process. -/
  | waiting
  | opening
  /-- The backfill is marked in the watermark, which was written at `wrote`. -/
  | begun (token : Nat) (low high wrote : Int)
  | listing (backfill : Backfill) (atStart : Fetch.Objects) (listed : List (Int × Int))
  | reading (backfill : Backfill) (collect : Collect)
  | committed (merged : TimeIndex)
  | found (index : TimeIndex) (low : Int)
  | answered (answer : Except ErrorCode (Option (Int × Int64)))
  | failed

def Phase.ofRead (watermark : Watermark) (otherwise : Phase) : Phase :=
  if watermark.timeIndex.isComplete || watermark.high.isNone then
    .found watermark.timeIndex watermark.logStart
  else otherwise

structure State (A D L : Type) where
  partition : DeleteRecords.State A D
  lookup : L → Phase
  now : Int
  written : Int → Int
  begun : Bool
  /-- No produce and no `delete_records` call was in progress since the lookup was called. -/
  quiet : L → Prop

namespace State

variable {A D L : Type}

abbrev log (s : State A D L) : Produce.State A :=
  s.partition.log

abbrev index (s : State A D L) : TimeIndex :=
  s.log.watermark.timeIndex

def Idle (s : State A D L) : Prop :=
  (∀ a, s.log.phase a = .start ∨ ∃ answer, s.log.phase a = .answered answer) ∧ ∀ d, s.partition.deletion d = .start ∨
      ∃ code lowWatermark, s.partition.deletion d = .answered code lowWatermark

def setPartition (s : State A D L) (partition : DeleteRecords.State A D) : State A D L :=
  { s with
    partition
    written := fun baseOffset =>
      if (s.log.objects (batchPath baseOffset)).isNone && (partition.log.objects (batchPath baseOffset)).isSome
      then s.now else s.written baseOffset
    quiet := fun _ => False }

def setLookup [DecidableEq L] (s : State A D L) (l : L) (phase : Phase) : State A D L :=
  { s with lookup := Function.update s.lookup l phase }

def setQuiet [DecidableEq L] (s : State A D L) (l : L) (quiet : Prop) : State A D L :=
  { s with quiet := Function.update s.quiet l quiet }

def setTimeIndex (s : State A D L) (timeIndex : TimeIndex) : State A D L :=
  { s with partition := s.partition.setWatermark { s.log.watermark with timeIndex } }

def noteBegun (s : State A D L) : State A D L :=
  { s with begun := true }

end State

inductive Action (A D L : Type) where
  | partition (action : DeleteRecords.Action A D)
  | tick
  | read (l : L) (watermark : Watermark)
  | begin (l : L)
  | openListing (l : L) (began : Int)
  | list (l : L) (baseOffset : Int)
  | endListing (l : L)
  | visit (l : L)
  | visitGone (l : L)
  | commit (l : L)
  | scan (l : L)
  | fail (l : L)

variable {A D L : Type} [DecidableEq A] [DecidableEq D] [DecidableEq L]

inductive Step (topition : Topition) (program : A → Produce.Attempt) (requested : D → Int) (codec : Codec)
    (request : L → Request) : State A D L → Action A D L → State A D L → Prop where
  | partition {s action partition}
      (step : DeleteRecords.Step topition program requested s.partition action partition) :
      Step topition program requested codec request s (.partition action) (s.setPartition partition)
  | tick {s} (now : Int) (later : s.now ≤ now) :
      Step topition program requested codec request s .tick { s with now }
  | read {s l watermark} (at_ : s.lookup l = .start)
      (read : watermark ∈ s.log.watermark :: s.log.earlierWatermarks) :
      Step topition program requested codec request s (.read l watermark)
        ((s.setLookup l (.ofRead watermark .waiting)).setQuiet l s.Idle)
  -- Another lookup of this process can complete the index while this one waits for the gate.
  | reread {s l watermark} (at_ : s.lookup l = .waiting)
      (read : watermark ∈ s.log.watermark :: s.log.earlierWatermarks) :
      Step topition program requested codec request s (.read l watermark)
        (s.setLookup l (.ofRead watermark .opening))
  | begin {s l} (token : Nat) (at_ : s.lookup l = .opening) :
      Step topition program requested codec request s (.begin l)
        ((s.setTimeIndex (s.index.beginBackfill token).1).noteBegun.setLookup l
          (.begun (s.index.beginBackfill token).2 s.log.watermark.logStart s.log.watermark.next s.now))
  -- The HEAD of the watermark finds its newest write, at or after the one that began the backfill.
  | openListing {s l token low high wrote} (began : Int) (at_ : s.lookup l = .begun token low high wrote)
      (after : wrote ≤ began) (before : began ≤ s.now) :
      Step topition program requested codec request s (.openListing l began)
        (s.setLookup l (.listing { token, low, high, began } s.log.objects []))
  -- The store lists keys in ascending order, and the listing is taken up to the high watermark.
  | list {s l backfill atStart listed} (baseOffset : Int)
      (at_ : s.lookup l = .listing backfill atStart listed) (nonneg : 0 ≤ baseOffset)
      (below : baseOffset < backfill.high) (ascends : ∀ entry ∈ listed, entry.1 < baseOffset)
      (present : (s.log.objects (batchPath baseOffset)).isSome = true) :
      Step topition program requested codec request s (.list l baseOffset)
        (s.setLookup l (.listing backfill atStart (listed ++ [(baseOffset, s.written baseOffset)])))
  | endListing {s l backfill atStart listed} (at_ : s.lookup l = .listing backfill atStart listed)
      (complete : ∀ baseOffset, 0 ≤ baseOffset → baseOffset < backfill.high →
        (atStart (batchPath baseOffset)).isSome = true → (s.log.objects (batchPath baseOffset)).isSome = true →
          ∃ written, (baseOffset, written) ∈ listed) :
      Step topition program requested codec request s (.endListing l)
        (s.setLookup l (.reading backfill (.start backfill listed)))
  | visit {s l backfill collect baseOffset written rest bytes batch remaining}
      (at_ : s.lookup l = .reading backfill collect)
      (queued : collect.queue = (baseOffset, written) :: rest)
      (present : s.log.objects (batchPath baseOffset) = some bytes)
      (decoded : Deflated.Batch.tryFrom bytes = some (batch, remaining)) :
      Step topition program requested codec request s (.visit l) (s.setLookup l
        (.reading backfill (collect.visit codec backfill baseOffset written rest (some batch))))
  | visitGone {s l backfill collect baseOffset written rest}
      (at_ : s.lookup l = .reading backfill collect)
      (queued : collect.queue = (baseOffset, written) :: rest)
      (gone : s.log.objects (batchPath baseOffset) = none) :
      Step topition program requested codec request s (.visitGone l) (s.setLookup l
        (.reading backfill (collect.visit codec backfill baseOffset written rest none)))
  | commit {s l backfill collect} (at_ : s.lookup l = .reading backfill collect)
      (done : collect.queue = []) :
      Step topition program requested codec request s (.commit l)
        ((s.setTimeIndex (.merge (collect.finish backfill) s.index backfill.token)).setLookup l
          (.committed (.merge (collect.finish backfill) s.index backfill.token)))
  | readLow {s l merged watermark} (at_ : s.lookup l = .committed merged)
      (read : watermark ∈ s.log.watermark :: s.log.earlierWatermarks) :
      Step topition program requested codec request s (.read l watermark)
        (s.setLookup l (.found merged watermark.logStart))
  -- A lookup whose partition changes during its scan is not followed batch by batch.
  | scan {s l index low} (near : Int → List Int) (at_ : s.lookup l = .found index low)
      (lists : ∀ start, Fetch.Listed s.log.objects start (near start))
      (ascends : ∀ start, (near start).Pairwise (· < ·)) :
      Step topition program requested codec request s (.scan l)
        (s.setLookup l (.answered (answer codec s.log.objects near (request l) index low)))
  | fail {s l} (running : ∀ answer, s.lookup l ≠ .answered answer) :
      Step topition program requested codec request s (.fail l) (s.setLookup l .failed)

def machine (topition : Topition) (program : A → Produce.Attempt) (requested : D → Int) (codec : Codec)
    (request : L → Request) (s₀ : State A D L) : Machine (State A D L) (Action A D L) where
  init := fun s => s = s₀
  step := Step topition program requested codec request

end Nisshi.Dynostore.Lookup
