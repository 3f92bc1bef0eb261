import Nisshi.Lib.MachineInt
import Nisshi.Lib.NestedMap
import Nisshi.SansIo.Deflated
import Nisshi.Storage.Producer

/-! The producers and transactions of `meta.json`: what an idempotent produce checks before it stores a
batch, and how it advances the producer's sequence afterwards. -/

namespace Nisshi.Dynostore

open Std Nisshi.Lib Nisshi.SansIo Nisshi.Storage.Producer

structure Topition where
  topic : String
  partition : Int
  deriving DecidableEq

def Topition.key (topition : Topition) : String × Int :=
  (topition.topic, topition.partition)

/-- The value of `i32` arithmetic without overflow checks. -/
def wrap32 (value : Int) : Int :=
  Int.bmod value (2 ^ 32)

theorem wrap32_of_fits (low : -2 ^ 31 ≤ value) (high : value < 2 ^ 31) : wrap32 value = value := by
  rw [wrap32, Int.bmod_eq_of_le_mul_two] <;> omega

/-! The batches that a producer most recently wrote to a partition. -/

structure ProducedBatch where
  firstSequence : Int
  lastSequence : Int
  baseOffset : Int
  deriving DecidableEq

def maxBatches : Nat :=
  5

abbrev ProducedBatches := List ProducedBatch

namespace ProducedBatches

def remember (batches : ProducedBatches) (baseSequence lastOffsetDelta baseOffset : Int) : ProducedBatches :=
  match MachineInt.checkedSum32 baseSequence lastOffsetDelta with
  | none => batches
  | some lastSequence =>
    (if batches.length = maxBatches then batches.tail else batches) ++
      [{ firstSequence := baseSequence, lastSequence, baseOffset }]

def baseOffsetOf (batches : ProducedBatches) (firstSequence lastSequence : Int) : Option Int :=
  (batches.find? fun batch =>
    batch.firstSequence == firstSequence && batch.lastSequence == lastSequence).map (·.baseOffset)

end ProducedBatches

inductive SequenceCheck where
  | append
  | duplicate (baseOffset : Int)
  deriving DecidableEq

def checkSequence (nextSequence : Int) (batches : Option ProducedBatches)
    (baseSequence lastOffsetDelta : Int) : Except ErrorCode SequenceCheck :=
  if baseSequence = nextSequence then .ok .append
  else
    match batches with
    | some batches =>
      match (MachineInt.checkedSum32 baseSequence lastOffsetDelta).bind (batches.baseOffsetOf baseSequence) with
      | some baseOffset => .ok (.duplicate baseOffset)
      | none => .error .outOfOrderSequenceNumber
    | none =>
      if baseSequence < nextSequence then .error .duplicateSequenceNumber
      else .error .outOfOrderSequenceNumber

variable {lastOffsetDelta : Int}

theorem ProducedBatches.mem_remember {batches : ProducedBatches} {baseSequence : Int}
    (member : batch ∈ batches.remember baseSequence lastOffsetDelta baseOffset) :
    batch ∈ batches ∨ batch = { firstSequence := baseSequence
                                lastSequence := baseSequence + lastOffsetDelta, baseOffset } := by
  simp only [remember, MachineInt.checkedSum32] at member
  split at member
  · exact .inl member
  next fits =>
    obtain ⟨_, rfl⟩ := Option.ite_some_none_eq_some.mp fits
    rcases List.mem_append.mp member with old | new
    · split at old
      · exact .inl (List.mem_of_mem_tail old)
      · exact .inl old
    · exact .inr (List.mem_singleton.mp new)

theorem checkSequence_eq_append {nextSequence : Int}
    (passes : checkSequence nextSequence batches baseSequence lastOffsetDelta = .ok .append) :
    baseSequence = nextSequence := by
  simp only [checkSequence] at passes
  split at passes
  · assumption
  · split at passes
    · split at passes <;> cases passes
    · split at passes <;> cases passes

theorem checkSequence_eq_duplicate {nextSequence : Int}
    (repeats : checkSequence nextSequence batches baseSequence lastOffsetDelta =
      .ok (.duplicate offset)) :
    ∃ remembered, batches = some remembered ∧
      { firstSequence := baseSequence, lastSequence := baseSequence + lastOffsetDelta,
        baseOffset := offset } ∈ remembered := by
  simp only [checkSequence] at repeats
  split at repeats
  · cases repeats
  · split at repeats
    next remembered =>
      split at repeats
      next found =>
        cases repeats
        obtain ⟨_, fits, same⟩ := Option.bind_eq_some_iff.mp found
        obtain ⟨_, rfl⟩ := Option.ite_some_none_eq_some.mp fits
        obtain ⟨_, first, rfl⟩ := Option.map_eq_some_iff.mp same
        have sequences := List.find?_some first
        simp only [Bool.and_eq_true, beq_iff_eq] at sequences
        refine ⟨remembered, rfl, ?_⟩
        rw [← sequences.2, ← sequences.1]
        exact List.mem_of_find?_eq_some first
      next => cases repeats
    next => split at repeats <;> cases repeats

/-! The detail of one producer, by epoch and partition. -/

abbrev ByEpoch (V : Type) := ExtTreeMap Int (ExtTreeMap String (ExtTreeMap Int V))

namespace ByEpoch

variable {V : Type}

def find (m : ByEpoch V) (epoch : Int) (topition : Topition) : Option V :=
  m[epoch]?.bind fun topics => NestedMap.find topics topition.key

def upsert (m : ByEpoch V) (epoch : Int) (topition : Topition) (f : Option V → V) : ByEpoch V :=
  m.alter epoch fun topics => some (NestedMap.upsert (topics.getD ∅) topition.key f)

def forgetOlderEpochs (m : ByEpoch V) (epoch : Int) (topition : Topition) : ByEpoch V :=
  m.filterMap fun older topics =>
    if older ≥ epoch then some topics
    else
      let topics := NestedMap.remove topics topition.key
      if topics.isEmpty then none else some topics

@[simp]
theorem find_upsert_self (m : ByEpoch V) (epoch : Int) (topition : Topition) (f : Option V → V) :
    (m.upsert epoch topition f).find epoch topition = some (f (m.find epoch topition)) := by
  cases present : m[epoch]? <;> simp [find, upsert, present]

theorem find_upsert_of_epoch_ne (m : ByEpoch V) (topition topition' : Topition)
    (f : Option V → V) (different : other ≠ epoch) :
    (m.upsert epoch topition f).find other topition' = m.find other topition' := by
  simp [find, upsert, ExtTreeMap.getElem?_alter, different.symm]

theorem find_forgetOlderEpochs (m : ByEpoch V) (epoch other : Int) (topition : Topition) :
    (m.forgetOlderEpochs epoch topition).find other topition =
      if other < epoch then none else m.find other topition := by
  simp only [find, forgetOlderEpochs, ExtTreeMap.getElem?_filterMap']
  cases present : m[other]? with
  | none => simp
  | some topics =>
    by_cases older : other < epoch
    · have notKept : ¬ other ≥ epoch := by omega
      rw [Option.bind_some, if_neg notKept]
      split
      · rfl
      · rw [Option.bind_some, NestedMap.find_remove_self]
    · have kept : other ≥ epoch := by omega
      rw [Option.bind_some, if_pos kept, if_neg older]

end ByEpoch

structure ProducerDetail where
  sequences : ByEpoch Int
  batches : ByEpoch ProducedBatches
  epochStarts : ByEpoch Int

namespace ProducerDetail

def storedEpochs (pd : ProducerDetail) (transactional : Bool) (topition : Topition) : Option StoredEpochs :=
  pd.sequences.keys.getLast?.map fun newest =>
    { transactional, newest
      partition := NestedMap.lastWhere pd.sequences fun topics =>
        (NestedMap.find topics topition.key).isSome }

def nextSequence (pd : ProducerDetail) (epoch : Int) (topition : Topition) : Int :=
  (pd.sequences.find epoch topition).getD 0

def rememberedBatches (pd : ProducerDetail) (epoch : Int) (topition : Topition) : Option ProducedBatches :=
  pd.batches.find epoch topition

/-- A batch at `epoch`, stored at `offset`, is in the log ahead of every batch at a newer epoch. -/
def isAheadOfNextEpoch (pd : ProducerDetail) (epoch : Int) (topition : Topition) (offset : Int) : Bool :=
  if epoch + 1 ≤ i16Max then
    (pd.epochStarts.find (epoch + 1) topition).any fun start => offset < start
  else false

def startEpoch (pd : ProducerDetail) (epoch : Int) (topition : Topition) (baseOffset : Int) : ProducerDetail :=
  let starts := pd.epochStarts.forgetOlderEpochs epoch topition
  { sequences := pd.sequences.forgetOlderEpochs epoch topition
    batches := pd.batches.forgetOlderEpochs epoch topition
    epochStarts := if epoch > 0 then starts.upsert epoch topition fun _ => baseOffset else starts }

def advance (pd : ProducerDetail) (epoch : Int) (produceEpoch : ProduceEpoch) (topition : Topition)
    (baseSequence lastOffsetDelta baseOffset : Int) : ProducerDetail :=
  let pd := match produceEpoch with
    | .continue => pd
    | .start => pd.startEpoch epoch topition baseOffset
  { pd with
    sequences := pd.sequences.upsert epoch topition fun sequence =>
      wrap32 (sequence.getD 0 + (lastOffsetDelta + 1))
    batches := pd.batches.upsert epoch topition fun batches =>
      (batches.getD []).remember baseSequence lastOffsetDelta baseOffset }

end ProducerDetail

inductive TxnState where
  | begin
  | prepareCommit
  | prepareAbort
  | committed
  | aborted
  deriving DecidableEq

def TxnState.isPrepared : TxnState → Bool
  | .prepareAbort => true
  | .prepareCommit => true
  | _ => false

def TxnState.isFinished : TxnState → Bool
  | .committed => true
  | .aborted => true
  | _ => false

structure TxnProduceOffset where
  offsetStart : Int
  offsetEnd : Int
  deriving DecidableEq

structure TxnCommitOffset where
  committedOffset : Int
  leaderEpoch : Option Int
  metadata : Option String
  deriving DecidableEq

structure TxnDetail where
  transactionTimeoutMs : Int := 0
  startedAt : Option Int := none
  state : Option TxnState := none
  produces : ExtTreeMap String (ExtTreeMap Int (Option TxnProduceOffset)) := ∅
  offsets : ExtTreeMap String (ExtTreeMap String (ExtTreeMap Int TxnCommitOffset)) := ∅

structure Txn where
  producer : Int
  epochs : ExtTreeMap Int TxnDetail

structure Meta where
  producers : ExtTreeMap Int ProducerDetail
  transactions : ExtTreeMap String Txn

/-- The producer fields of an idempotent batch that its sequence check and advance read. -/
structure IdempotentBatch where
  producerId : Int
  producerEpoch : Int
  baseSequence : Int
  lastOffsetDelta : Int
  deriving DecidableEq

def IdempotentBatch.of (deflated : Deflated.Batch) : Option IdempotentBatch :=
  if deflated.isIdempotent then
    some { producerId := deflated.producerId.toInt, producerEpoch := deflated.producerEpoch.toInt,
           baseSequence := deflated.baseSequence.toInt,
           lastOffsetDelta := deflated.lastOffsetDelta.toInt }
  else none

namespace Meta

def transactionalIdOwns (store : Meta) (producerId : Int) : Bool :=
  store.transactions.toList.any fun entry => entry.2.producer == producerId

def ensurePartitionInTransaction (store : Meta) (transactionId : String)
    (producerId producerEpoch : Int) (topition : Topition) : Except ErrorCode Unit :=
  match store.transactions[transactionId]?.filter fun txn => txn.producer == producerId with
  | none => .error .invalidProducerIdMapping
  | some txn =>
    match txn.epochs[producerEpoch]?.filter fun detail =>
      (NestedMap.find detail.produces topition.key).isSome with
    | none => .error .transactionAbortable
    | some detail =>
      if detail.state.any TxnState.isPrepared then .error .concurrentTransactions else .ok ()

def updateProduces (store : Meta) (transactionId : String) (producerEpoch : Int) (topition : Topition)
    (f : Option TxnProduceOffset → Option TxnProduceOffset) : Meta :=
  { store with
    transactions := store.transactions.alter transactionId fun txn => txn.map fun txn =>
      { txn with
        epochs := txn.epochs.alter producerEpoch fun detail => detail.map fun detail =>
          { detail with
            produces := detail.produces.alter topition.topic fun partitions =>
              partitions.map fun partitions =>
                partitions.alter topition.partition fun range => range.map f } } }

def transactionStartRecorded (store : Meta) (transactionId : String) (producerEpoch : Int)
    (topition : Topition) : Bool :=
  match store.transactions[transactionId]?.bind fun txn => txn.epochs[producerEpoch]? with
  | none => true
  | some detail => ((NestedMap.find detail.produces topition.key).bind id).isSome

/-- The update of `record_transaction_start`: a lower bound of the transaction's first offset. -/
def recordTransactionStart (store : Meta) (transactionId : String) (producerEpoch : Int)
    (topition : Topition) (highWatermark : Int) : Meta :=
  store.updateProduces transactionId producerEpoch topition fun range =>
    some (range.getD { offsetStart := highWatermark, offsetEnd := highWatermark })

def recordProducedRange (store : Meta) (transactionId : String) (producerEpoch : Int)
    (topition : Topition) (offset lastOffsetDelta : Int) : Meta :=
  store.updateProduces transactionId producerEpoch topition fun range =>
    let offsetEnd := offset + lastOffsetDelta
    let range := range.getD { offsetStart := offset, offsetEnd }
    some { offsetStart := min offset range.offsetStart, offsetEnd := max offsetEnd range.offsetEnd }

def sequenceState (pd : ProducerDetail) (produceEpoch : ProduceEpoch) (epoch : Int)
    (topition : Topition) : Int × Option ProducedBatches :=
  match produceEpoch with
  | .continue => (pd.nextSequence epoch topition, pd.rememberedBatches epoch topition)
  | .start => (0, none)

def checkIdempotentSequence (store : Meta) (topition : Topition) (batch : IdempotentBatch)
    (transactional : Bool) : Except ErrorCode SequenceCheck :=
  match store.producers[batch.producerId]? with
  | none => .error .unknownProducerId
  | some pd =>
    match pd.storedEpochs (transactional || store.transactionalIdOwns batch.producerId) topition with
    | none => .error .unknownServerError
    | some stored =>
      match stored.checkBatch batch.producerEpoch batch.baseSequence with
      | .error code => .error code
      | .ok produceEpoch =>
        let (sequence, remembered) := sequenceState pd produceEpoch batch.producerEpoch topition
        checkSequence sequence remembered batch.baseSequence batch.lastOffsetDelta

/-- The update of `advance_idempotent_sequence` for a batch stored at `offset`. Every check runs before
any change, because `with_mut` stores the document also when its closure answers an error. -/
def advanceIdempotentSequence (store : Meta) (topition : Topition) (batch : IdempotentBatch)
    (transactional : Bool) (offset : Int) : Meta × Except ErrorCode Unit :=
  match store.producers[batch.producerId]? with
  | none => (store, .error .unknownProducerId)
  | some pd =>
    match pd.storedEpochs (transactional || store.transactionalIdOwns batch.producerId) topition with
    | none => (store, .error .unknownServerError)
    | some stored =>
      match stored.checkBatch batch.producerEpoch batch.baseSequence with
      | .error code =>
        if stored.isSuperseded batch.producerEpoch &&
            pd.isAheadOfNextEpoch batch.producerEpoch topition offset then (store, .ok ())
        else (store, .error code)
      | .ok produceEpoch =>
        let (sequence, remembered) := sequenceState pd produceEpoch batch.producerEpoch topition
        match checkSequence sequence remembered batch.baseSequence batch.lastOffsetDelta with
        | .error code => (store, .error code)
        | .ok (.duplicate _) => (store, .error .duplicateSequenceNumber)
        | .ok .append =>
          let advanced := pd.advance batch.producerEpoch produceEpoch topition batch.baseSequence
            batch.lastOffsetDelta offset
          ({ store with producers := store.producers.insert batch.producerId advanced }, .ok ())

end Meta

namespace ProducerDetail

variable {pd : ProducerDetail} {transactional : Bool} {topition : Topition} {stored : StoredEpochs}

variable {epoch : Int}

private theorem present_of_find {V : Type} {m : ByEpoch V} (found : (m.find epoch topition).isSome = true) :
    ∃ topics, m[epoch]? = some topics ∧ (NestedMap.find topics topition.key).isSome = true := by
  cases present : m[epoch]? with
  | none => simp [ByEpoch.find, present] at found
  | some topics => exact ⟨topics, rfl, by simpa [ByEpoch.find, present] using found⟩

theorem le_partition (known : pd.storedEpochs transactional topition = some stored)
    (held : (pd.sequences.find epoch topition).isSome = true) :
    ∃ partition, stored.partition = some partition ∧ epoch ≤ partition := by
  obtain ⟨_, _, rfl⟩ := Option.map_eq_some_iff.mp known
  obtain ⟨topics, present, found⟩ := present_of_find held
  cases last : NestedMap.lastWhere pd.sequences fun topics =>
      (NestedMap.find topics topition.key).isSome with
  | none =>
    have absent := NestedMap.lastWhere_eq_none last present
    rw [found] at absent
    cases absent
  | some partition =>
    refine ⟨partition, rfl, ?_⟩
    rcases (NestedMap.lastWhere_eq_some last).2 epoch topics present found with same | below
    · exact same.le
    · exact (Int.compare_eq_lt.mp below).le

theorem find_partition (known : pd.storedEpochs transactional topition = some stored)
    (held : stored.partition = some partition) :
    (pd.sequences.find partition topition).isSome = true := by
  obtain ⟨_, _, rfl⟩ := Option.map_eq_some_iff.mp known
  simp only at held
  obtain ⟨⟨_, present, found⟩, _⟩ := NestedMap.lastWhere_eq_some held
  rw [ByEpoch.find, present]
  exact found

theorem le_newest (known : pd.storedEpochs transactional topition = some stored)
    (held : (pd.sequences.find epoch topition).isSome = true) : epoch ≤ stored.newest := by
  obtain ⟨_, last, rfl⟩ := Option.map_eq_some_iff.mp known
  obtain ⟨_, present, _⟩ := present_of_find held
  rw [← ExtTreeMap.maxKey?_eq_getLast?_keys, ExtTreeMap.maxKey?_eq_some_iff_mem_and_forall] at last
  have member : epoch ∈ pd.sequences := by
    rw [ExtTreeMap.mem_iff_isSome_getElem?, present]
    rfl
  have bound := last.2 epoch member
  simpa [Int.isLE_compare] using bound

def Coherent (pd : ProducerDetail) (epoch : Int) (topition : Topition) : Prop :=
  pd.sequences.find epoch topition = none → pd.batches.find epoch topition = none

def NoneNewer (pd : ProducerDetail) (epoch : Int) (topition : Topition) : Prop :=
  ∀ newer, epoch < newer → pd.sequences.find newer topition = none

theorem noneNewer_of_accepted (known : pd.storedEpochs transactional topition = some stored)
    {baseSequence : Int} (accepted : stored.checkBatch epoch baseSequence = .ok verdict) :
    pd.NoneNewer epoch topition := by
  intro newer above
  by_contra held
  have held : (pd.sequences.find newer topition).isSome = true := Option.isSome_iff_ne_none.mpr held
  rcases StoredEpochs.checkBatch_eq_ok accepted with
    ⟨_, newest, _⟩ | ⟨_, partition, _⟩ | ⟨_, below, _, _⟩
  · have bound := le_newest known held
    omega
  · obtain ⟨other, same, bound⟩ := le_partition known held
    rw [partition] at same
    cases same
    omega
  · obtain ⟨other, same, bound⟩ := le_partition known held
    have := below other same
    omega

theorem not_superseded (known : pd.storedEpochs transactional topition = some stored)
    (noneNewer : pd.NoneNewer epoch topition) : stored.isSuperseded epoch = false := by
  cases held : stored.partition with
  | none => simp [StoredEpochs.isSuperseded, held]
  | some partition =>
    have found := find_partition known held
    have notAbove : ¬ epoch < partition := by
      intro above
      rw [noneNewer partition above] at found
      cases found
    simp [StoredEpochs.isSuperseded, held, notAbove]

/-- Whether it continues or starts its epoch, an accepted batch is compared with the state of its own
epoch: a batch that starts the epoch finds nothing stored there. -/
theorem sequenceState_of_accepted (known : pd.storedEpochs transactional topition = some stored)
    {baseSequence : Int} (coherent : pd.Coherent epoch topition)
    (accepted : stored.checkBatch epoch baseSequence = .ok verdict) :
    Meta.sequenceState pd verdict epoch topition =
      (pd.nextSequence epoch topition, pd.rememberedBatches epoch topition) := by
  rcases StoredEpochs.checkBatch_eq_ok accepted with
    ⟨_, _, rfl⟩ | ⟨_, _, rfl⟩ | ⟨_, below, rfl, _⟩
  · rfl
  · rfl
  · have absent : pd.sequences.find epoch topition = none := by
      by_contra held
      obtain ⟨partition, same, bound⟩ := le_partition known (Option.isSome_iff_ne_none.mpr held)
      have := below partition same
      omega
    simp only [Meta.sequenceState, nextSequence, rememberedBatches, absent, coherent absent, Option.getD_none]

variable (pd) (epoch : Int) (verdict : ProduceEpoch) (topition)
  (baseSequence lastOffsetDelta baseOffset : Int)

theorem find_sequences_advance :
    (pd.advance epoch verdict topition baseSequence lastOffsetDelta baseOffset).sequences.find epoch
      topition = some (wrap32 (pd.nextSequence epoch topition + (lastOffsetDelta + 1))) := by
  cases verdict <;>
    simp [advance, startEpoch, nextSequence, ByEpoch.find_forgetOlderEpochs]

theorem find_batches_advance :
    (pd.advance epoch verdict topition baseSequence lastOffsetDelta baseOffset).batches.find epoch
      topition = some (((pd.rememberedBatches epoch topition).getD []).remember baseSequence
        lastOffsetDelta baseOffset) := by
  cases verdict <;>
    simp [advance, startEpoch, rememberedBatches, ByEpoch.find_forgetOlderEpochs]

theorem find_batches_of_advance {batches : ProducedBatches} (different : other ≠ epoch)
    (held : (pd.advance epoch verdict topition baseSequence lastOffsetDelta baseOffset).batches.find other
      topition = some batches) : pd.batches.find other topition = some batches := by
  cases verdict with
  | «continue» =>
    simpa [advance, ByEpoch.find_upsert_of_epoch_ne _ _ _ _ different] using held
  | start =>
    simp only [advance, startEpoch, ByEpoch.find_upsert_of_epoch_ne _ _ _ _ different,
      ByEpoch.find_forgetOlderEpochs] at held
    split at held
    · cases held
    · exact held

theorem find_sequences_advance_of_newer (above : epoch < newer) :
    (pd.advance epoch verdict topition baseSequence lastOffsetDelta baseOffset).sequences.find newer
      topition = pd.sequences.find newer topition := by
  have different : newer ≠ epoch := above.ne'
  have kept : ¬ newer < epoch := by omega
  cases verdict <;>
    simp [advance, startEpoch, ByEpoch.find_upsert_of_epoch_ne _ _ _ _ different, ByEpoch.find_forgetOlderEpochs, kept]

end ProducerDetail

namespace Meta

theorem checkIdempotentSequence_eq_ok {store : Meta} {topition : Topition} {transactional : Bool}
    (answered : store.checkIdempotentSequence topition batch transactional = .ok check) :
    ∃ pd stored verdict, store.producers[batch.producerId]? = some pd ∧
      pd.storedEpochs (transactional || store.transactionalIdOwns batch.producerId) topition = some stored ∧
      stored.checkBatch batch.producerEpoch batch.baseSequence = .ok verdict ∧
      checkSequence (sequenceState pd verdict batch.producerEpoch topition).1
        (sequenceState pd verdict batch.producerEpoch topition).2 batch.baseSequence
        batch.lastOffsetDelta = .ok check := by
  simp only [checkIdempotentSequence] at answered
  split at answered
  · cases answered
  next pd present =>
    split at answered
    · cases answered
    next stored known =>
      split at answered
      · cases answered
      next verdict accepted => exact ⟨pd, stored, verdict, present, known, accepted, answered⟩

theorem advanceIdempotentSequence_cases (store : Meta) (topition : Topition) (batch : IdempotentBatch)
    (transactional : Bool) (offset : Int) :
    (∃ code, store.advanceIdempotentSequence topition batch transactional offset = (store, .error code)) ∨
    (∃ pd stored, store.producers[batch.producerId]? = some pd ∧
      pd.storedEpochs (transactional || store.transactionalIdOwns batch.producerId) topition =
        some stored ∧ stored.isSuperseded batch.producerEpoch = true ∧
      store.advanceIdempotentSequence topition batch transactional offset = (store, .ok ())) ∨
    (∃ pd stored verdict, store.producers[batch.producerId]? = some pd ∧
      pd.storedEpochs (transactional || store.transactionalIdOwns batch.producerId) topition = some stored ∧
      stored.checkBatch batch.producerEpoch batch.baseSequence = .ok verdict ∧
      checkSequence (sequenceState pd verdict batch.producerEpoch topition).1
        (sequenceState pd verdict batch.producerEpoch topition).2 batch.baseSequence
        batch.lastOffsetDelta = .ok .append ∧
      store.advanceIdempotentSequence topition batch transactional offset =
        ({ store with producers := store.producers.insert batch.producerId (pd.advance
            batch.producerEpoch verdict topition batch.baseSequence batch.lastOffsetDelta offset) },
          .ok ())) := by
  simp only [advanceIdempotentSequence]
  split
  · exact .inl ⟨_, rfl⟩
  next pd present =>
    split
    · exact .inl ⟨_, rfl⟩
    next stored known =>
      split
      next =>
        split
        next ahead =>
          rw [Bool.and_eq_true] at ahead
          exact .inr (.inl ⟨pd, stored, present, known, ahead.1, rfl⟩)
        next => exact .inl ⟨_, rfl⟩
      next verdict accepted =>
        split
        · exact .inl ⟨_, rfl⟩
        · exact .inl ⟨_, rfl⟩
        next fits => exact .inr (.inr ⟨pd, stored, verdict, present, known, accepted, fits, rfl⟩)

theorem advanceIdempotentSequence_eq_error {store : Meta} {batch : IdempotentBatch} {offset : Int}
    (refused : store.advanceIdempotentSequence topition batch transactional offset =
      (after, .error code)) : after = store := by
  rcases advanceIdempotentSequence_cases store topition batch transactional offset with
    ⟨_, kept⟩ | ⟨_, _, _, _, _, kept⟩ | ⟨_, _, _, _, _, _, _, recorded⟩
  · rw [refused] at kept
    cases kept
    rfl
  · rw [refused] at kept
    cases kept
  · rw [refused] at recorded
    cases recorded

end Meta

end Nisshi.Dynostore
