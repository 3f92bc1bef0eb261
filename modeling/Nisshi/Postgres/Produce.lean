import Nisshi.Lib.Machine
import Nisshi.Lib.Exclusive
import Nisshi.SansIo.Deflated
import Nisshi.SansIo.Inflated
import Nisshi.Storage.Producer

/-! `Postgres::produce` on one partition, for any number of calls by any number of brokers. A call is one
READ COMMITTED transaction: each statement sees what was committed before it and what the transaction
wrote itself. The statement that reads the watermark locks its row until the transaction ends. Between
any two statements other transactions may commit, and a transaction may fail. -/

namespace Nisshi.Postgres.Produce

open Nisshi.Lib Nisshi.SansIo Nisshi.Storage.Producer

/-- One call of `produce`, with a batch as `ProduceService` hands it over and its inflated form. -/
structure Attempt where
  transactionId : Option String
  deflated : Deflated.Batch
  inflated : Inflated.Batch
  sameDelta : inflated.lastOffsetDelta = deflated.lastOffsetDelta
  counted : deflated.lastOffsetDelta.toInt + 1 = inflated.records.length
  nonempty : inflated.records ≠ []
  fits : deflated.lastOffsetDelta.toInt + 1 < 2 ^ 31

structure RecordRow where
  offset : Int
  attributes : Int16
  producerId : Option Int64
  producerEpoch : Option Int16
  timestamp : Int64
  key : Option (List UInt8)
  value : Option (List UInt8)
  headers : List Header
  deriving DecidableEq

namespace Attempt

variable (attempt : Attempt)

def producerId : Int :=
  attempt.deflated.producerId.toInt

def producerEpoch : Int :=
  attempt.deflated.producerEpoch.toInt

def baseSequence : Int :=
  attempt.deflated.baseSequence.toInt

def row (attributes : Int16) (offset : Int) (record : Record) : Option RecordRow :=
  (toSystemTime (attempt.inflated.recordTimestamp record)).map fun timestamp =>
    { offset, attributes
      producerId := attempt.transactionId.map fun _ => attempt.inflated.producerId
      producerEpoch := attempt.transactionId.map fun _ => attempt.inflated.producerEpoch
      timestamp, key := record.key, value := record.value, headers := record.headers }

def rowsFrom (attributes : Int16) : Int → List Record → Option (List RecordRow)
  | _, [] => some []
  | offset, record :: rest =>
    match attempt.row attributes offset record, rowsFrom attributes (offset + 1) rest with
    | some row, some rows => some (row :: rows)
    | _, _ => none

def rows (first : Int) : Option (List RecordRow) :=
  (BatchAttribute.tryFrom attempt.deflated.attributes).bind fun attributes =>
    attempt.rowsFrom attributes.toI16 first attempt.inflated.records

end Attempt

/-- The rows that a produce to the partition reads and writes, as committed. -/
structure Tables where
  /-- The partition's row of `watermark`. -/
  high : Option Int
  records : List RecordRow
  /-- The epochs of each producer (`producer_epoch`). -/
  epochs : Int → List Int
  /-- The partition's rows of `producer_detail`, by producer and epoch. -/
  details : Int → Int → Option Int
  owned : Int → Bool

namespace Tables

variable (tables : Tables)

/-- `producer_epochs_select.sql`. -/
def storedEpochs (producer : Int) : Option StoredEpochs :=
  (tables.epochs producer).max?.map fun newest =>
    { transactional := tables.owned producer, newest
      partition := ((tables.epochs producer).filter fun epoch =>
        (tables.details producer epoch).isSome).max? }

/-- `idempotent_epoch_check` on the epochs read, or the error for a producer without epochs. -/
def idempotentEpochCheck (attempt : Attempt) : Except ErrorCode ProduceEpoch :=
  match tables.storedEpochs attempt.producerId with
  | none => .error .unknownProducerId
  | some stored =>
    let transactional := stored.transactional || attempt.transactionId.isSome || attempt.deflated.isTransactional
    { stored with transactional }.checkBatch attempt.producerEpoch attempt.baseSequence

/-- `producer_select_for_update.sql`. -/
def sequence (attempt : Attempt) : Int :=
  (tables.details attempt.producerId attempt.producerEpoch).getD 0

/-- `producer_epoch_insert_given.sql`. -/
def insertEpoch (producer epoch : Int) : Tables :=
  { tables with
    epochs := Function.update tables.epochs producer
      (if epoch ∈ tables.epochs producer then tables.epochs producer else epoch :: tables.epochs producer) }

def setDetail (producer epoch sequence : Int) : Tables :=
  { tables with
    details := Function.update tables.details producer
      (Function.update (tables.details producer) epoch (some sequence)) }

def append (rows : List RecordRow) (high : Int) : Tables :=
  { tables with high := some high, records := tables.records ++ rows }

end Tables

/-- `idempotent_sequence_check`: how far the batch advances the sequence. -/
def idempotentSequenceCheck (sequence : Int) (attempt : Attempt) : Except ErrorCode Int :=
  if sequence = attempt.baseSequence then .ok (attempt.deflated.lastOffsetDelta.toInt + 1)
  else if sequence > attempt.baseSequence then .error .duplicateSequenceNumber
  else .error .outOfOrderSequenceNumber

/-- `producer_detail_insert.sql`. An `int` sum that does not fit is an error of the statement. -/
def upsertSequence (stored : Option Int) (increment : Int) : Option Int :=
  match stored with
  | none => some increment
  | some sequence => if sequence + increment < 2 ^ 31 then some (sequence + increment) else none

structure Work where
  high : Option Int
  epoch : Option ProduceEpoch
  detail : Option Int
  rows : List RecordRow

def Work.raised (work : Work) (attempt : Attempt) : Int :=
  work.high.elim (attempt.inflated.lastOffsetDelta.toInt + 1) fun high =>
    high + attempt.inflated.lastOffsetDelta.toInt + 1

def Work.commit (work : Work) (attempt : Attempt) (tables : Tables) : Tables :=
  let tables := if work.epoch = some .start then
    tables.insertEpoch attempt.producerId attempt.producerEpoch else tables
  let tables := work.detail.elim tables
    fun sequence => tables.setDetail attempt.producerId attempt.producerEpoch sequence
  tables.append work.rows (work.raised attempt)

inductive Answer where
  | ok (offset : Int)
  | failed (error : Option ErrorCode)
  deriving DecidableEq

inductive Phase where
  | start
  | locked (work : Work)
  | accepted (work : Work)
  | started (work : Work)
  | sequenced (work : Work) (increment : Int)
  /-- The sequence is advanced, or the batch is not idempotent. -/
  | checked (work : Work)
  | copied (work : Work)
  | raised (work : Work)
  | answered (answer : Answer)

@[simp]
def Phase.inTransaction : Phase → Bool
  | .start => false
  | .answered _ => false
  | _ => true

structure State (A : Type) where
  tables : Tables
  lock : Option A
  phase : A → Phase
  /-- The calls whose commit was applied, oldest first, with their offsets. -/
  stored : List (A × Int)
  /-- The producers that a transactional ID has owned at some time. -/
  everOwned : Int → Bool

namespace State

variable {A : Type}

def start (tables : Tables) : State A where
  tables
  lock := none
  phase := fun _ => .start
  stored := []
  everOwned := tables.owned

def setPhase [DecidableEq A] (s : State A) (a : A) (phase : Phase) : State A :=
  { s with phase := Function.update s.phase a phase }

def acquire (s : State A) (a : A) : State A :=
  { s with lock := some a }

def release (s : State A) : State A :=
  { s with lock := none }

def setTables (s : State A) (tables : Tables) : State A :=
  { s with tables }

def noteStored (s : State A) (a : A) (offset : Int) : State A :=
  { s with stored := s.stored ++ [(a, offset)] }

def commit [DecidableEq A] (s : State A) (program : A → Attempt) (a : A) (work : Work) (answer : Answer) : State A :=
  (((s.setTables (work.commit (program a) s.tables)).noteStored a (work.high.getD 0)).release).setPhase
    a (.answered answer)

def own (s : State A) (owned : Int → Bool) : State A :=
  { s with
    tables := { s.tables with owned }
    everOwned := fun producer => s.everOwned producer || owned producer }

end State

inductive Action (A : Type) where
  | run (a : A)
  | abort (a : A)
  | addEpoch (producer epoch : Int)
  | own (owned : Int → Bool)

variable {A : Type} [DecidableEq A]

inductive Step (program : A → Attempt) : State A → Action A → State A → Prop where
  | lock {s a} (at_ : s.phase a = .start) (free : s.lock = none) :
      Step program s (.run a) ((s.acquire a).setPhase a
        (.locked { high := s.tables.high, epoch := none, detail := none, rows := [] }))
  | skip {s a work} (at_ : s.phase a = .locked work)
      (plain : (program a).deflated.isIdempotent = false) :
      Step program s (.run a) (s.setPhase a (.checked work))
  | accept {s a work verdict} (at_ : s.phase a = .locked work)
      (idempotent : (program a).deflated.isIdempotent = true)
      (passes : s.tables.idempotentEpochCheck (program a) = .ok verdict) :
      Step program s (.run a) (s.setPhase a (.accepted { work with epoch := some verdict }))
  | refuseEpoch {s a work code} (at_ : s.phase a = .locked work)
      (idempotent : (program a).deflated.isIdempotent = true)
      (refused : s.tables.idempotentEpochCheck (program a) = .error code) :
      Step program s (.run a) (s.release.setPhase a (.answered (.failed (some code))))
  | insertEpoch {s a work} (at_ : s.phase a = .accepted work) :
      Step program s (.run a) (s.setPhase a (.started work))
  | readSequence {s a work increment} (at_ : s.phase a = .started work)
      (visible : (program a).producerEpoch ∈ s.tables.epochs (program a).producerId ∨ work.epoch = some .start)
      (passes : idempotentSequenceCheck (s.tables.sequence (program a)) (program a) = .ok increment) :
      Step program s (.run a) (s.setPhase a (.sequenced work increment))
  | refuseSequence {s a work code} (at_ : s.phase a = .started work)
      (refused : idempotentSequenceCheck (s.tables.sequence (program a)) (program a) = .error code) :
      Step program s (.run a) (s.release.setPhase a (.answered (.failed (some code))))
  | upsertDetail {s a work increment sequence} (at_ : s.phase a = .sequenced work increment)
      (fits : upsertSequence (s.tables.details (program a).producerId (program a).producerEpoch)
        increment = some sequence) :
      Step program s (.run a) (s.setPhase a (.checked { work with detail := some sequence }))
  | copy {s a work rows} (at_ : s.phase a = .checked work)
      (converted : (program a).rows (work.high.getD 0) = some rows)
      (fresh : ∀ row ∈ rows, ∀ stored ∈ s.tables.records, stored.offset ≠ row.offset) :
      Step program s (.run a) (s.setPhase a (.copied { work with rows }))
  | raise {s a work} (at_ : s.phase a = .copied work) :
      Step program s (.run a) (s.setPhase a (.raised work))
  | commit {s a work} (at_ : s.phase a = .raised work) :
      Step program s (.run a) (s.commit program a work (.ok (work.high.getD 0)))
  /-- The commit is applied and its reply is lost. -/
  | loseReply {s a work} (at_ : s.phase a = .raised work) :
      Step program s (.run a) (s.commit program a work (.failed none))
  | abort {s a} (error : Option ErrorCode) (inside : (s.phase a).inTransaction = true) :
      Step program s (.abort a) (s.release.setPhase a (.answered (.failed error)))
  | abortStart {s a} (error : Option ErrorCode) (at_ : s.phase a = .start) :
      Step program s (.abort a) (s.setPhase a (.answered (.failed error)))
  | addEpoch {s} (producer epoch : Int) :
      Step program s (.addEpoch producer epoch) (s.setTables (s.tables.insertEpoch producer epoch))
  | own {s} (owned : Int → Bool) : Step program s (.own owned) (s.own owned)

def machine (program : A → Attempt) (epochs : Int → List Int) (owned : Int → Bool) : Machine (State A) (Action A) where
  init := fun s => s = State.start
    { high := none, records := [], epochs, details := fun _ _ => none, owned }
  step := Step program

end Nisshi.Postgres.Produce
