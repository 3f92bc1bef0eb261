import Nisshi.Lib.Decimal
import Nisshi.Dynostore.Meta

/-! The watermark document of a partition, whose compare-and-swap gives a batch its offset, and the key
of the object that the batch is then written to. -/

namespace Nisshi.Dynostore

open Std Nisshi.Lib Nisshi.Lib.Decimal Nisshi.SansIo Nisshi.Storage.Producer List

/-! The time index that the produce path appends to. -/

structure TimeIndex where
  entries : ExtTreeMap Int Int
  maxTimestamp : Int
  bytesSinceEntry : Nat
  intervalBytes : Nat
  complete : Bool
  version : Nat
  backfill : Option Nat

namespace TimeIndex

def noTimestamp : Int :=
  -1

def maxEntries : Nat :=
  1024

def initialIntervalBytes : Nat :=
  4096

def currentVersion : Nat :=
  1

instance : Inhabited TimeIndex where
  default :=
    { entries := ∅, maxTimestamp := noTimestamp, bytesSinceEntry := 0
      intervalBytes := initialIntervalBytes, complete := false, version := 0, backfill := none }

def saturate64 (value : Nat) : Nat :=
  min value (2 ^ 64 - 1)

def markComplete (index : TimeIndex) : TimeIndex :=
  { index with complete := true, version := currentVersion }

def alternate {α : Type} : Bool → List α → List α
  | _, [] => []
  | true, first :: rest => first :: alternate false rest
  | false, _ :: rest => alternate true rest

def thin (index : TimeIndex) : TimeIndex :=
  { index with
    entries := ExtTreeMap.ofList (alternate (index.entries.size % 2 != 0) index.entries.toList)
    intervalBytes := saturate64 (index.intervalBytes * 2) }

def append (index : TimeIndex) (maxTimestamp baseOffset : Int) (bytes : Nat) : TimeIndex :=
  let index := { index with bytesSinceEntry := saturate64 (index.bytesSinceEntry + bytes) }
  if maxTimestamp ≤ index.maxTimestamp then index
  else
    let index := { index with maxTimestamp }
    if index.entries.isEmpty || index.bytesSinceEntry ≥ index.intervalBytes then
      let index :=
        { index with entries := index.entries.insert maxTimestamp baseOffset, bytesSinceEntry := 0 }
      if index.entries.size > maxEntries then index.thin else index
    else index

end TimeIndex

structure Watermark where
  low : Option Int
  high : Option Int
  timeIndex : TimeIndex
  producerEpochs : ExtTreeMap Int Int

instance : Inhabited Watermark where
  default := { low := none, high := none, timeIndex := default, producerEpochs := ∅ }

namespace Watermark

def maxFencedProducers : Nat :=
  1024

def isFenced (watermark : Watermark) (producerId producerEpoch : Int) : Bool :=
  watermark.producerEpochs[producerId]?.any fun newest => newest > producerEpoch

def recordProducerEpoch (watermark : Watermark) (producerId producerEpoch : Int) : Watermark :=
  if producerEpoch ≤ 0 ∨ (watermark.producerEpochs[producerId]?.any fun newest =>
      newest ≥ producerEpoch) = true then watermark
  else
    let epochs := watermark.producerEpochs.insert producerId producerEpoch
    { watermark with
      producerEpochs :=
        if epochs.size > maxFencedProducers then
          match epochs.keys.head? with
          | some first => epochs.erase first
          | none => epochs
        else epochs }

def next (watermark : Watermark) : Int :=
  watermark.high.getD 0

def assignOffset (deflated : Deflated.Batch) (watermark : Watermark) : Watermark × Except ErrorCode Int :=
  let idempotent := IdempotentBatch.of deflated
  if (idempotent.any fun batch => watermark.isFenced batch.producerId batch.producerEpoch) = true then
    (watermark, .error olderEpochError)
  else
    let offset := watermark.high.getD 0
    let isNewPartition := watermark.high.isNone
    let delta := deflated.lastOffsetDelta.toInt
    let timeIndex := if isNewPartition then watermark.timeIndex.markComplete else watermark.timeIndex
    let raised : Watermark :=
      { watermark with
        high := some (watermark.high.elim (delta + 1) fun high => high + delta + 1)
        timeIndex := timeIndex.append deflated.maxTimestamp.toInt offset
          deflated.batchLength.toInt.toNat }
    let recorded := match idempotent with
      | some batch => raised.recordProducerEpoch batch.producerId batch.producerEpoch
      | none => raised
    (recorded, .ok offset)

@[simp]
theorem recordProducerEpoch_high (watermark : Watermark) (producerId producerEpoch : Int) :
    (watermark.recordProducerEpoch producerId producerEpoch).high = watermark.high := by
  simp only [recordProducerEpoch]
  split <;> rfl

theorem assignOffset_cases (deflated : Deflated.Batch) (watermark : Watermark) :
    (assignOffset deflated watermark = (watermark, .error olderEpochError)) ∨
    ((assignOffset deflated watermark).2 = .ok watermark.next ∧ (assignOffset deflated watermark).1.next =
        watermark.next + deflated.lastOffsetDelta.toInt + 1) := by
  simp only [assignOffset]
  split
  · exact .inl rfl
  · cases idempotent : IdempotentBatch.of deflated <;> cases high : watermark.high <;>
      simp [next, high]

theorem eq_of_refused {watermark after : Watermark} (refused : assignOffset deflated watermark = (after, .error code)) :
    after = watermark := by
  rcases assignOffset_cases deflated watermark with kept | ⟨given, -⟩
  · exact congrArg Prod.fst (refused.symm.trans kept)
  · rw [refused] at given
    cases given

theorem of_assigned {watermark after : Watermark} (given : assignOffset deflated watermark = (after, .ok offset)) :
    offset = watermark.next ∧ after.next = watermark.next + deflated.lastOffsetDelta.toInt + 1 := by
  rcases assignOffset_cases deflated watermark with refused | ⟨same, raised⟩
  · rw [given] at refused
    cases refused
  · rw [given] at same raised
    exact ⟨Except.ok.inj same, raised⟩

end Watermark

/-! The key of a batch object below its partition's records. -/

/-- The last segment of `batch_path`: `{base_offset:0>20}.batch`. -/
def batchPath (baseOffset : Int) : String :=
  String.ofList ((intText baseOffset).leftpad 20 '0' ++ ".batch".toList)

theorem batchPath_injective (nonneg : 0 ≤ first) (nonneg' : 0 ≤ second)
    (same : batchPath first = batchPath second) : first = second := by
  have chars := String.ofList_injective same
  have digits := append_cancel_right chars
  have value := congrArg digitsValue digits
  rw [intText_of_nonneg nonneg, intText_of_nonneg nonneg', digitsValue_leftpad, digitsValue_leftpad] at value
  omega

-- Two keys are compared through `batchPath_injective`, never by spelling them out.
attribute [irreducible] batchPath

end Nisshi.Dynostore
