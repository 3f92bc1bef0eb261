import Nisshi.Lib.Machine
import Nisshi.Dynostore.Watermark

/-! `DynoStore::produce` on one partition, for any number of attempts by any number of brokers. Each
document update (`OptiCon::with_mut`) is one step on the newest document, and each read
(`OptiCon::with`) sees some document that was stored at one time: a broker reads through its cache.
Between any two steps other attempts may run, and an attempt may fail or stop. -/

namespace Nisshi.Dynostore.Produce

open Std Nisshi.Lib Nisshi.SansIo Nisshi.Storage.Producer Function

/-- One call of `produce`, with a batch as `ProduceService` hands it over. -/
structure Attempt where
  transactionId : Option String
  deflated : Deflated.Batch
  delta_nonneg : 0 ≤ deflated.lastOffsetDelta.toInt

namespace Attempt

def idempotent (attempt : Attempt) : Option IdempotentBatch :=
  IdempotentBatch.of attempt.deflated

def transactional (attempt : Attempt) : Bool :=
  attempt.transactionId.isSome || attempt.deflated.isTransactional

def delta (attempt : Attempt) : Int :=
  attempt.deflated.lastOffsetDelta.toInt

def transaction (attempt : Attempt) : Option String :=
  if attempt.deflated.isTransactional then attempt.transactionId else none

end Attempt

/-- An error is a Kafka error code, or a failure of the store, the codec or the caller. -/
inductive Error where
  | api (code : ErrorCode)
  | other
  deriving DecidableEq

/-- What a produce returns. `appended` and `duplicate` are its two ways to return `Ok(offset)`. -/
inductive Answer where
  | appended (offset : Int)
  | duplicate (offset : Int)
  | failed (error : Error)
  deriving DecidableEq

inductive Phase where
  | start
  /-- The sequence check has passed, or the batch is not idempotent. -/
  | checked
  | ensured
  /-- The transaction's start on the partition is not recorded yet. -/
  | starting
  | startRead (highWatermark : Int)
  | started
  | assigned (offset : Int)
  | recorded (offset : Int)
  | stored (offset : Int)
  | answered (answer : Answer)
  deriving DecidableEq

structure State (A : Type) where
  /-- The documents that `meta.json` has held, newest first. -/
  store : Meta
  earlierStores : List Meta
  /-- The documents that the partition's `watermark.json` has held, newest first. -/
  watermark : Watermark
  earlierWatermarks : List Watermark
  objects : String → Option (List UInt8)
  phase : A → Phase
  /-- The attempts that the watermark gave offsets to, oldest first, with their first offsets. -/
  taken : List (A × Int)
  /-- The attempts whose sequence advance answered `Ok`, oldest first, with their first offsets. -/
  advanced : List (A × Int)

namespace State

variable {A : Type}

def start (store : Meta) : State A where
  store
  earlierStores := []
  watermark := default
  earlierWatermarks := []
  objects := fun _ => none
  phase := fun _ => .start
  taken := []
  advanced := []

def setPhase [DecidableEq A] (s : State A) (a : A) (phase : Phase) : State A :=
  { s with phase := Function.update s.phase a phase }

def setStore (s : State A) (store : Meta) : State A :=
  { s with store, earlierStores := s.store :: s.earlierStores }

def setWatermark (s : State A) (watermark : Watermark) : State A :=
  { s with watermark, earlierWatermarks := s.watermark :: s.earlierWatermarks }

def putObject (s : State A) (key : String) (bytes : List UInt8) : State A :=
  { s with objects := Function.update s.objects key (some bytes) }

def noteTaken (s : State A) (a : A) (offset : Int) : State A :=
  { s with taken := s.taken ++ [(a, offset)] }

def noteAdvanced (s : State A) (a : A) (offset : Int) : State A :=
  { s with advanced := s.advanced ++ [(a, offset)] }

theorem forall_setPhase [DecidableEq A] {s : State A} {a : A} {P : A → Phase → Prop}
    (mine : P a next) (others : ∀ b, b ≠ a → P b (s.phase b)) (b : A) :
    P b ((s.setPhase a next).phase b) :=
  (forall_update_iff s.phase P).mpr ⟨mine, others⟩ b

end State

def Phase.ofCheck : Except ErrorCode SequenceCheck → Phase
  | .ok .append => .checked
  | .ok (.duplicate baseOffset) => .answered (.duplicate baseOffset)
  | .error code => .answered (.failed (.api code))

def Phase.ofResult {α : Type} (next : α → Phase) : Except ErrorCode α → Phase
  | .ok value => next value
  | .error code => .answered (.failed (.api code))

def ensurePartitionInTransaction (topition : Topition) (attempt : Attempt) (store : Meta) : Except ErrorCode Unit :=
  match attempt.transaction with
  | none => .ok ()
  | some transactionId =>
    if attempt.deflated.isControl then .ok ()
    else store.ensurePartitionInTransaction transactionId attempt.deflated.producerId.toInt
      attempt.deflated.producerEpoch.toInt topition

def recordRange (topition : Topition) (attempt : Attempt) (offset : Int) (store : Meta) :
    Meta × Except ErrorCode Unit :=
  match attempt.transaction with
  | none => (store, .ok ())
  | some transactionId =>
    match ensurePartitionInTransaction topition attempt store with
    | .error code => (store, .error code)
    | .ok () => (store.recordProducedRange transactionId attempt.deflated.producerEpoch.toInt topition
        offset attempt.delta, .ok ())

inductive Action (A : Type) where
  | check (a : A) (store : Meta)
  | ensure (a : A) (store : Meta)
  | readStart (a : A) (store : Meta)
  | readHigh (a : A) (watermark : Watermark)
  | recordStart (a : A)
  | assign (a : A)
  | recordRange (a : A)
  | put (a : A)
  | advance (a : A)
  | stop (a : A)

variable {A : Type} [DecidableEq A]

inductive Step (topition : Topition) (program : A → Attempt) : State A → Action A → State A → Prop where
  | checkPlain {s a} (at_ : s.phase a = .start) (plain : (program a).idempotent = none) :
      Step topition program s (.check a s.store) (s.setPhase a .checked)
  | check {s a store batch} (at_ : s.phase a = .start) (idempotent : (program a).idempotent = some batch)
      (read : store ∈ s.store :: s.earlierStores) :
      Step topition program s (.check a store) (s.setPhase a (.ofCheck
        (store.checkIdempotentSequence topition batch (program a).transactional)))
  | ensure {s a store} (at_ : s.phase a = .checked) (read : store ∈ s.store :: s.earlierStores) :
      Step topition program s (.ensure a store) (s.setPhase a (.ofResult (fun _ => .ensured)
        (ensurePartitionInTransaction topition (program a) store)))
  | readStart {s a store} (at_ : s.phase a = .ensured) (read : store ∈ s.store :: s.earlierStores) :
      Step topition program s (.readStart a store) (s.setPhase a
        (match (program a).transaction with
          | none => .started
          | some transactionId =>
            if store.transactionStartRecorded transactionId (program a).deflated.producerEpoch.toInt
                topition then .started else .starting))
  | readHigh {s a watermark} (at_ : s.phase a = .starting)
      (read : watermark ∈ s.watermark :: s.earlierWatermarks) :
      Step topition program s (.readHigh a watermark) (s.setPhase a (.startRead watermark.next))
  | recordStart {s a transactionId highWatermark} (at_ : s.phase a = .startRead highWatermark)
      (transaction : (program a).transaction = some transactionId) :
      Step topition program s (.recordStart a) ((s.setStore (s.store.recordTransactionStart transactionId
        (program a).deflated.producerEpoch.toInt topition highWatermark)).setPhase a .started)
  | assign {s a watermark offset} (at_ : s.phase a = .started)
      (given : s.watermark.assignOffset (program a).deflated = (watermark, .ok offset)) :
      Step topition program s (.assign a)
        (((s.setWatermark watermark).noteTaken a offset).setPhase a (.assigned offset))
  | assignRefused {s a watermark code} (at_ : s.phase a = .started)
      (refused : s.watermark.assignOffset (program a).deflated = (watermark, .error code)) :
      Step topition program s (.assign a)
        ((s.setWatermark watermark).setPhase a (.answered (.failed (.api code))))
  | recordRange {s a offset store} (at_ : s.phase a = .assigned offset)
      (done : recordRange topition (program a) offset s.store = (store, .ok ())) :
      Step topition program s (.recordRange a) ((s.setStore store).setPhase a (.recorded offset))
  | recordRangeRefused {s a offset store code} (at_ : s.phase a = .assigned offset)
      (refused : recordRange topition (program a) offset s.store = (store, .error code)) :
      Step topition program s (.recordRange a)
        ((s.setStore store).setPhase a (.answered (.failed (.api code))))
  | put {s a offset} (at_ : s.phase a = .recorded offset)
      (absent : s.objects (batchPath offset) = none) :
      Step topition program s (.put a)
        ((s.putObject (batchPath offset) (program a).deflated.toBytes).setPhase a (.stored offset))
  | putExists {s a offset bytes} (at_ : s.phase a = .recorded offset)
      (present : s.objects (batchPath offset) = some bytes) :
      Step topition program s (.put a) (s.setPhase a (.answered (.failed .other)))
  | advancePlain {s a offset} (at_ : s.phase a = .stored offset)
      (plain : (program a).idempotent = none) :
      Step topition program s (.advance a) (s.setPhase a (.answered (.appended offset)))
  | advance {s a offset batch store} (at_ : s.phase a = .stored offset)
      (idempotent : (program a).idempotent = some batch)
      (done : s.store.advanceIdempotentSequence topition batch (program a).transactional offset = (store, .ok ())) :
      Step topition program s (.advance a)
        (((s.setStore store).noteAdvanced a offset).setPhase a (.answered (.appended offset)))
  | advanceRefused {s a offset batch store code} (at_ : s.phase a = .stored offset)
      (idempotent : (program a).idempotent = some batch)
      (refused : s.store.advanceIdempotentSequence topition batch (program a).transactional offset =
        (store, .error code)) :
      Step topition program s (.advance a)
        ((s.setStore store).setPhase a (.answered (.failed (.api code))))
  | stop {s a} (running : ∀ answer, s.phase a ≠ .answered answer) :
      Step topition program s (.stop a) (s.setPhase a (.answered (.failed .other)))

def machine (topition : Topition) (program : A → Attempt) (store : Meta) : Machine (State A) (Action A) where
  init := fun s => s = State.start store
  step := Step topition program

end Nisshi.Dynostore.Produce
