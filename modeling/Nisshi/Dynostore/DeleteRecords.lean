import Nisshi.Dynostore.FetchStatic
import Nisshi.Storage.OffsetStage

/-! `DynoStore::delete_records` on one partition, by any number of calls, beside any number of produces.
A call moves the log start in one update of the watermark. It then lists the batch objects and deletes,
one by one, those that their names show to end below the new log start. -/

namespace Nisshi.Dynostore

open Nisshi.Lib Nisshi.SansIo Nisshi.Storage

def lastStable (highWatermark logStart : Int) (openTransactionStart : Option Int) : Int :=
  max (min (openTransactionStart.getD highWatermark) highWatermark) logStart

def offsetStageOf (highWatermark logStart : Int) (openTransactionStart : Option Int) : OffsetStage :=
  { lastStable := lastStable highWatermark logStart openTransactionStart, highWatermark, logStart }

def Fetch.Bounds.ofStage (stage : OffsetStage) (isolationLevel : IsolationLevel) (offset : Int)
    (maxBytes : Nat) : Fetch.Bounds where
  offset := offset
  maxBytes := maxBytes
  highWatermark := if isolationLevel = .readCommitted then stage.lastStable else stage.highWatermark

namespace Watermark

def logStart (watermark : Watermark) : Int :=
  watermark.low.getD 0

/-- The closure with which `delete_records` moves the log start: the error code, the cutoff, and the high
watermark that the cutoff was checked against. -/
def deleteRecords (requested : Int) (watermark : Watermark) : Watermark × ErrorCode × Int × Int :=
  let stage : OffsetStage :=
    { lastStable := watermark.next, highWatermark := watermark.next, logStart := watermark.logStart }
  match deleteRecordsCutoff requested stage with
  | .error code => (watermark, code, -1, stage.highWatermark)
  | .ok cutoff => ({ watermark with low := some cutoff }, .none, cutoff, stage.highWatermark)

def offsetStage (watermark : Watermark) (openTransactionStart : Option Int) : OffsetStage :=
  offsetStageOf watermark.next watermark.logStart openTransactionStart

end Watermark

namespace DeleteRecords

def expired (cutoff highWatermark : Int) (listed : List Int) : List Int :=
  let objects := listed.insertionSort (· ≤ ·)
  let windows := (objects.zip objects.tail).filter fun window => window.2 ≤ cutoff
  windows.map Prod.fst ++ (if cutoff ≥ highWatermark then objects.getLast?.toList.filter (· < cutoff) else [])

inductive Phase where
  | start
  | cut (cutoff highWatermark : Int)
  | listing (cutoff highWatermark : Int) (atStart : Fetch.Objects) (listed : List Int)
  | deleting (cutoff : Int) (expired : List Int)
  | answered (code : ErrorCode) (lowWatermark : Int)

structure State (A D : Type) where
  log : Produce.State A
  deletion : D → Phase
  stored : Fetch.Objects

namespace State

variable {A D : Type}

def start (store : Meta) : State A D where
  log := .start store
  deletion := fun _ => .start
  stored := fun _ => none

def setLog (s : State A D) (log : Produce.State A) : State A D :=
  { s with log, stored := fun key => (log.objects key).or (s.stored key) }

def setDeletion [DecidableEq D] (s : State A D) (d : D) (phase : Phase) : State A D :=
  { s with deletion := Function.update s.deletion d phase }

def setWatermark (s : State A D) (watermark : Watermark) : State A D :=
  { s with log := s.log.setWatermark watermark }

def deleteObject (s : State A D) (key : String) : State A D :=
  { s with log := { s.log with objects := Function.update s.log.objects key none } }

end State

def Phase.ofCut : ErrorCode × Int × Int → Phase
  | (.none, cutoff, highWatermark) =>
    if cutoff ≤ 0 then .answered .none cutoff else .cut cutoff highWatermark
  | (code, cutoff, _) => .answered code cutoff

inductive Action (A D : Type) where
  | produce (action : Produce.Action A)
  | cut (d : D)
  | openListing (d : D)
  | list (d : D) (baseOffset : Int)
  | endListing (d : D)
  | delete (d : D) (baseOffset : Int)
  | keep (d : D) (baseOffset : Int)
  | answer (d : D)

variable {A D : Type} [DecidableEq A] [DecidableEq D]

inductive Step (topition : Topition) (program : A → Produce.Attempt) (requested : D → Int) :
    State A D → Action A D → State A D → Prop where
  | produce {s action log} (step : Produce.Step topition program s.log action log) :
      Step topition program requested s (.produce action) (s.setLog log)
  | cut {s d} (at_ : s.deletion d = .start) :
      Step topition program requested s (.cut d)
        ((s.setWatermark (s.log.watermark.deleteRecords (requested d)).1).setDeletion d
          (.ofCut (s.log.watermark.deleteRecords (requested d)).2))
  | openListing {s d cutoff highWatermark} (at_ : s.deletion d = .cut cutoff highWatermark) :
      Step topition program requested s (.openListing d)
        (s.setDeletion d (.listing cutoff highWatermark s.log.objects []))
  | list {s d cutoff highWatermark atStart listed} (baseOffset : Int)
      (at_ : s.deletion d = .listing cutoff highWatermark atStart listed) (nonneg : 0 ≤ baseOffset)
      (fresh : baseOffset ∉ listed) (present : (s.log.objects (batchPath baseOffset)).isSome = true) :
      Step topition program requested s (.list d baseOffset)
        (s.setDeletion d (.listing cutoff highWatermark atStart (baseOffset :: listed)))
  | endListing {s d cutoff highWatermark atStart listed}
      (at_ : s.deletion d = .listing cutoff highWatermark atStart listed)
      (complete : ∀ baseOffset, 0 ≤ baseOffset → (atStart (batchPath baseOffset)).isSome = true →
        (s.log.objects (batchPath baseOffset)).isSome = true → baseOffset ∈ listed) :
      Step topition program requested s (.endListing d)
        (s.setDeletion d (.deleting cutoff (expired cutoff highWatermark listed)))
  -- A listing that fails is logged, and the call answers the log start it moved to.
  | failListing {s d cutoff highWatermark atStart listed}
      (at_ : s.deletion d = .listing cutoff highWatermark atStart listed) :
      Step topition program requested s (.endListing d) (s.setDeletion d (.answered .none cutoff))
  -- The store deletes several objects at once, in any order.
  | delete {s d cutoff expired} (baseOffset : Int) (at_ : s.deletion d = .deleting cutoff expired)
      (member : baseOffset ∈ expired) :
      Step topition program requested s (.delete d baseOffset)
        ((s.deleteObject (batchPath baseOffset)).setDeletion d
          (.deleting cutoff (expired.erase baseOffset)))
  -- A deletion that fails is logged, and the object stays.
  | keep {s d cutoff expired} (baseOffset : Int) (at_ : s.deletion d = .deleting cutoff expired)
      (member : baseOffset ∈ expired) :
      Step topition program requested s (.keep d baseOffset)
        (s.setDeletion d (.deleting cutoff (expired.erase baseOffset)))
  | answer {s d cutoff} (at_ : s.deletion d = .deleting cutoff []) :
      Step topition program requested s (.answer d) (s.setDeletion d (.answered .none cutoff))

def machine (topition : Topition) (program : A → Produce.Attempt) (requested : D → Int) (store : Meta) :
    Machine (State A D) (Action A D) where
  init := fun s => s = State.start store
  step := Step topition program requested

end DeleteRecords

end Nisshi.Dynostore
