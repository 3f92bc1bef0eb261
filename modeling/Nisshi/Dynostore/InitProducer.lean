import Nisshi.Lib.Machine
import Nisshi.Dynostore.Transaction

/-! `DynoStore::init_producer` beside the other calls that update `meta.json`. Each update
(`OptiCon::with_mut`) is one step on the newest document, and between any two steps of a call the calls of
any number of brokers may run. A call may fail or stop at any point. -/

namespace Nisshi.Dynostore

open Std Nisshi.Lib Nisshi.SansIo Nisshi.Storage.Producer

def i64Max : Int :=
  2 ^ 63 - 1

def allocateProducerId (producers : ExtTreeMap Int ProducerDetail) : Option (Int × ExtTreeMap Int ProducerDetail) :=
  let id := match producers.keys.getLast? with
    | none => some 1
    | some newest => if newest + 1 ≤ i64Max then some (newest + 1) else none
  id.map fun id =>
    (id, producers.insert id { sequences := ExtTreeMap.insert ∅ 0 ∅, batches := ∅, epochStarts := ∅ })

def Txn.first (producer transactionTimeoutMs : Int) : Txn :=
  { producer, epochs := ExtTreeMap.insert ∅ 0 { transactionTimeoutMs } }

inductive InitProducer where
  | completed (response : ProducerIdResponse)
  | needToRollback (producerId producerEpoch : Int)
  deriving DecidableEq

namespace Meta

/-- The newest epoch of a transactional ID's producer: that of its newest transaction, or `i16::MAX` once
a rollback has fenced it. -/
def newestEpoch (store : Meta) (producerId currentEpoch : Int) : Int :=
  match store.producers[producerId]?.bind fun producer => producer.sequences.keys.getLast? with
  | none => currentEpoch
  | some epoch => max currentEpoch epoch

/-- Epoch `i16::MAX` fences every batch of a producer ID that its transactional ID has left. -/
def retire (producers : ExtTreeMap Int ProducerDetail) (producerId : Int) : ExtTreeMap Int ProducerDetail :=
  producers.alter producerId fun previous => previous.map fun previous =>
    { previous with sequences := ExtTreeMap.insert ∅ i16Max ∅, batches := ∅ }

/-- A transactional ID gets a new producer ID at epoch 0. `retired` is what happens to the other
producers. -/
def initAtNewId (store : Meta) (transactionId : String) (transactionTimeoutMs : Int)
    (retired : ExtTreeMap Int ProducerDetail → ExtTreeMap Int ProducerDetail) : Meta × InitProducer :=
  match allocateProducerId store.producers with
  | none => (store, .completed (.failed .unknownServerError))
  | some (id, producers) =>
    ({ producers := retired producers
       transactions := store.transactions.insert transactionId (.first id transactionTimeoutMs) },
     .completed { error := .none, id, epoch := 0 })

def initTransactional (store : Meta) (transactionId : String) (transactionTimeoutMs : Int)
    (claim : Option (Int × Int)) : Meta × InitProducer :=
  match store.transactions[transactionId]? with
  | none => store.initAtNewId transactionId transactionTimeoutMs id
  | some txn =>
    match txn.last with
    | none => (store, .completed (.failed .unknownServerError))
    | some (currentEpoch, detail) =>
      if claim.any fun claim => checkClaim (txn.producer, currentEpoch) claim ≠ .none then
        (store, .completed (.failed .producerFenced))
      else if detail.state = some .begin then (store, .needToRollback txn.producer currentEpoch)
      else if epochIsExhausted (store.newestEpoch txn.producer currentEpoch) then
        -- Only the transaction of the current epoch holds back the move to a new producer ID.
        if detail.state.any fun state => !state.isFinished then
          (store, .completed (.failed .concurrentTransactions))
        else store.initAtNewId transactionId transactionTimeoutMs (retire · txn.producer)
      else if currentEpoch + 1 ≤ i16Max ∧ store.producers[txn.producer]?.all fun producer =>
          !producer.sequences.contains (currentEpoch + 1) then
        let epoch := currentEpoch + 1
        ({ producers := store.producers.alter txn.producer fun producer => producer.map fun producer =>
             { producer with sequences := producer.sequences.insert epoch ∅ }
           transactions := store.transactions.insert transactionId
             { txn with epochs := txn.epochs.insert epoch { transactionTimeoutMs } } },
         .completed { error := .none, id := txn.producer, epoch })
      else (store, .completed (.failed .unknownServerError))

def initIdempotent (store : Meta) : Meta × ProducerIdResponse :=
  match allocateProducerId store.producers with
  | none => (store, .failed .unknownServerError)
  | some (id, producers) => ({ store with producers }, { error := .none, id, epoch := 0 })

def fence (store : Meta) (producerId : Int) : Meta :=
  { store with
    producers := store.producers.alter producerId fun producer => producer.map fun producer =>
      { producer with sequences := producer.sequences.alter i16Max fun topics => some (topics.getD ∅) } }

end Meta

/-! The calls. -/

structure TxnEnd where
  transactionId : String
  producerId : Int
  producerEpoch : Int
  committed : Bool
  deriving DecidableEq

inductive Call where
  | initProducer (transactionId : Option String) (transactionTimeoutMs : Int)
      (producerId producerEpoch : Option Int)
  | txnEnd (request : TxnEnd)
  | txnAddPartitions (transactionId : String) (producerId producerEpoch : Int)
      (topics : List (String × List Int))
  | txnOffsetCommit (transactionId : String) (producerId producerEpoch : Int) (group : String)
      (topics : List (String × List (Int × TxnCommitOffset)))

namespace Init

inductive Phase where
  | start
  /-- `txn_end` is about to prepare. -/
  | ending (request : TxnEnd)
  | marking (request : TxnEnd) (remaining : List Topition)
  /-- The transaction is over in `meta.json`, and the offsets of these groups are to be committed. -/
  | committing (request : TxnEnd) (remaining : List String)
  | fencing (producerId : Int)
  | answered (response : ProducerIdResponse)
  | done (code : ErrorCode)
  | failed
  deriving DecidableEq

/-- The producer ID and epoch that a step of `meta.json` gave to a call. -/
structure Grant (A : Type) where
  call : A
  transactionId : Option String
  id : Int
  epoch : Int
  deriving DecidableEq

structure State (A : Type) where
  store : Meta
  phase : A → Phase
  grants : List (Grant A)

variable {A : Type}

namespace State

def start : State A :=
  { store := { producers := ∅, transactions := ∅ }, phase := fun _ => .start, grants := [] }

variable [DecidableEq A]

def move (s : State A) (a : A) (store : Meta) (phase : Phase) : State A :=
  { s with store, phase := Function.update s.phase a phase }

def answer (s : State A) (a : A) (store : Meta) (transactionId : Option String)
    (response : ProducerIdResponse) : State A :=
  { store
    phase := Function.update s.phase a (.answered response)
    grants := s.grants ++ if response.error = .none then
        [{ call := a, transactionId, id := response.id, epoch := response.epoch }]
      else [] }

end State

/-- What any produce does to `meta.json`: the start and the range of its transaction, and the sequence
advance. -/
inductive Produces (store : Meta) : Meta → Prop where
  | start (transactionId : String) (producerEpoch : Int) (topition : Topition) (highWatermark : Int) :
      Produces store (store.recordTransactionStart transactionId producerEpoch topition highWatermark)
  | range (transactionId : String) (producerEpoch : Int) (topition : Topition)
      (offset lastOffsetDelta : Int) :
      Produces store
        (store.recordProducedRange transactionId producerEpoch topition offset lastOffsetDelta)
  | advance (topition : Topition) (batch : IdempotentBatch) (transactional : Bool) (offset : Int) :
      Produces store (store.advanceIdempotentSequence topition batch transactional offset).1

variable [DecidableEq A]

inductive Step (program : A → Call) : State A → Option A → State A → Prop where
  | produce {s : State A} {store : Meta} (update : Produces s.store store) :
      Step program s none { s with store }
  | claimInvalid {s : State A} {a : A} {transactionId : Option String} {timeout : Int}
      {producerId producerEpoch : Option Int} {code : ErrorCode} (at_ : s.phase a = .start)
      (call : program a = .initProducer transactionId timeout producerId producerEpoch)
      (invalid : producerClaim producerId producerEpoch = .error code) :
      Step program s (some a) (s.answer a s.store transactionId (.failed code))
  | initTransactional {s : State A} {a : A} {transactionId : String} {timeout : Int}
      {producerId producerEpoch : Option Int} {claim : Option (Int × Int)} {store : Meta}
      {response : ProducerIdResponse} (at_ : s.phase a = .start)
      (call : program a = .initProducer (some transactionId) timeout producerId producerEpoch)
      (valid : producerClaim producerId producerEpoch = .ok claim)
      (completed : s.store.initTransactional transactionId timeout claim = (store, .completed response)) :
      Step program s (some a) (s.answer a store (some transactionId) response)
  | needToRollback {s : State A} {a : A} {transactionId : String} {timeout : Int}
      {producerId producerEpoch : Option Int} {claim : Option (Int × Int)} {store : Meta}
      {rollbackId rollbackEpoch : Int} (at_ : s.phase a = .start)
      (call : program a = .initProducer (some transactionId) timeout producerId producerEpoch)
      (valid : producerClaim producerId producerEpoch = .ok claim)
      (rollback : s.store.initTransactional transactionId timeout claim =
        (store, .needToRollback rollbackId rollbackEpoch)) :
      Step program s (some a) (s.move a store (.ending
        { transactionId, producerId := rollbackId, producerEpoch := rollbackEpoch, committed := false }))
  | initIdempotent {s : State A} {a : A} {timeout : Int} {producerId producerEpoch : Option Int}
      {claim : Option (Int × Int)} (at_ : s.phase a = .start)
      (call : program a = .initProducer none timeout producerId producerEpoch)
      (valid : producerClaim producerId producerEpoch = .ok claim) :
      Step program s (some a) (s.answer a s.store.initIdempotent.1 none s.store.initIdempotent.2)
  | txnEnd {s : State A} {a : A} {request : TxnEnd} (at_ : s.phase a = .start)
      (call : program a = .txnEnd request) :
      Step program s (some a) (s.move a s.store (.ending request))
  | prepare {s : State A} {a : A} {request : TxnEnd} {store : Meta} {topitions : List Topition}
      (at_ : s.phase a = .ending request)
      (prepared : s.store.txnEndPrepare request.transactionId request.producerId request.producerEpoch
        request.committed = (store, .ok topitions)) :
      Step program s (some a) (s.move a store (.marking request topitions))
  | prepareRefused {s : State A} {a : A} {request : TxnEnd} {store : Meta} {code : ErrorCode}
      (at_ : s.phase a = .ending request)
      (refused : s.store.txnEndPrepare request.transactionId request.producerId request.producerEpoch
        request.committed = (store, .error code)) :
      Step program s (some a) (s.move a store .failed)
  /-- The marker of a partition has been produced, or the partition is gone. -/
  | mark {s : State A} {a : A} {request : TxnEnd} {topition : Topition} {rest : List Topition}
      (at_ : s.phase a = .marking request (topition :: rest)) :
      Step program s (some a) (s.move a s.store (.marking request rest))
  | finalize {s : State A} {a : A} {request : TxnEnd} {store : Meta} {commits : CommitOffsets}
      (at_ : s.phase a = .marking request [])
      (finalized : s.store.txnEndFinalize request.transactionId request.producerId
        request.producerEpoch request.committed = (store, .ok commits)) :
      Step program s (some a) (s.move a store (.committing request commits.keys))
  | finalizeRefused {s : State A} {a : A} {request : TxnEnd} {store : Meta} {code : ErrorCode}
      (at_ : s.phase a = .marking request [])
      (refused : s.store.txnEndFinalize request.transactionId request.producerId
        request.producerEpoch request.committed = (store, .error code)) :
      Step program s (some a) (s.move a store .failed)
  | commit {s : State A} {a : A} {request : TxnEnd} {group : String} {rest : List String}
      (at_ : s.phase a = .committing request (group :: rest)) :
      Step program s (some a) (s.move a s.store (.committing request rest))
  | ended {s : State A} {a : A} {request : TxnEnd} (at_ : s.phase a = .committing request [])
      (call : program a = .txnEnd request) :
      Step program s (some a) (s.move a s.store (.done .none))
  /-- After a rollback `init_producer` calls itself again, with the epoch fenced if it was exhausted. -/
  | rolledBack {s : State A} {a : A} {request : TxnEnd} {transactionId : Option String} {timeout : Int}
      {producerId producerEpoch : Option Int} (at_ : s.phase a = .committing request [])
      (call : program a = .initProducer transactionId timeout producerId producerEpoch) :
      Step program s (some a) (s.move a s.store
        (if epochIsExhausted request.producerEpoch then .fencing request.producerId else .start))
  | fence {s : State A} {a : A} {producerId : Int} (at_ : s.phase a = .fencing producerId) :
      Step program s (some a) (s.move a (s.store.fence producerId) .start)
  | addPartitions {s : State A} {a : A} {transactionId : String} {producerId producerEpoch : Int}
      {topics : List (String × List Int)} (now : Int) (at_ : s.phase a = .start)
      (call : program a = .txnAddPartitions transactionId producerId producerEpoch topics) :
      Step program s (some a) (s.move a
        (s.store.txnAddPartitions now transactionId producerId producerEpoch topics).1 (.done .none))
  | offsetCommit {s : State A} {a : A} {transactionId : String} {producerId producerEpoch : Int}
      {group : String} {topics : List (String × List (Int × TxnCommitOffset))} (at_ : s.phase a = .start)
      (call : program a = .txnOffsetCommit transactionId producerId producerEpoch group topics) :
      Step program s (some a) (s.move a
        (s.store.txnOffsetCommit transactionId producerId producerEpoch group topics).1 (.done .none))
  | stop {s : State A} {a : A} (running : ∀ response, s.phase a ≠ .answered response) :
      Step program s (some a) (s.move a s.store .failed)

def machine (program : A → Call) : Machine (State A) (Option A) where
  init := fun s => s = State.start
  step := Step program

end Init

end Nisshi.Dynostore
