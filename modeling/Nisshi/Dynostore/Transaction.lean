import Nisshi.Dynostore.Meta

/-! The updates of `meta.json` that transactional calls make: adding partitions, staging offsets, and the
two steps of `txn_end`. No update but `init_producer`'s changes which producer a transactional ID has, or
which epochs. -/

namespace Nisshi.Dynostore

open Std Nisshi.Lib Nisshi.SansIo Nisshi.Storage.Producer Option

abbrev CommitOffsets := ExtTreeMap String (ExtTreeMap String (ExtTreeMap Int TxnCommitOffset))

def CommitOffsets.insert (commits : CommitOffsets) (group topic : String) (partition : Int)
    (commit : TxnCommitOffset) : CommitOffsets :=
  commits.alter group fun topics =>
    some (NestedMap.upsert (topics.getD ∅) (topic, partition) fun _ => commit)

def CommitOffsets.merge (commits staged : CommitOffsets) : CommitOffsets :=
  staged.foldl (fun commits group topics =>
    topics.foldl (fun commits topic partitions =>
      partitions.foldl (fun commits partition commit =>
        commits.insert group topic partition commit) commits) commits) commits

def Txn.last (txn : Txn) : Option (Int × TxnDetail) :=
  txn.epochs.keys.getLast?.bind fun epoch => txn.epochs[epoch]?.map fun detail => (epoch, detail)

structure TxnId where
  transaction : String
  producerId : Int
  producerEpoch : Int
  state : TxnState
  deriving DecidableEq

def TxnDetail.topitions (detail : TxnDetail) : List Topition :=
  detail.produces.toList.flatMap fun topic =>
    topic.2.toList.filterMap fun partition =>
      partition.2.map fun _ => { topic := topic.1, partition := partition.1 }

def TxnDetail.range (detail : TxnDetail) (topition : Topition) : Option TxnProduceOffset :=
  (NestedMap.find detail.produces topition.key).bind id

namespace Meta

/-- The checks that every transactional call makes first: the producer owns the transactional ID, and the
epoch is its newest. -/
def currentDetail (store : Meta) (transactionId : String) (producerId producerEpoch : Int) :
    Except ErrorCode TxnDetail :=
  match store.transactions[transactionId]? with
  | none => .error .transactionalIdNotFound
  | some txn =>
    if txn.producer ≠ producerId then .error .unknownProducerId
    else
      match txn.last with
      | none => .error .producerFenced
      | some (epoch, detail) => if producerEpoch ≠ epoch then .error .producerFenced else .ok detail

def updateDetail (store : Meta) (transactionId : String) (producerEpoch : Int) (f : TxnDetail → TxnDetail) : Meta :=
  { store with
    transactions := store.transactions.alter transactionId fun txn => txn.map fun txn =>
      { txn with epochs := txn.epochs.alter producerEpoch fun detail => detail.map f } }

def partitionResults (topics : List (String × List Int)) (code : ErrorCode) : List (String × List (Int × ErrorCode)) :=
  topics.map fun topic => (topic.1, topic.2.map fun partition => (partition, code))

/-- The update of `txn_add_partitions`, at protocol versions 0 to 3. -/
def txnAddPartitions (store : Meta) (now : Int) (transactionId : String)
    (producerId producerEpoch : Int) (topics : List (String × List Int)) :
    Meta × List (String × List (Int × ErrorCode)) :=
  match store.currentDetail transactionId producerId producerEpoch with
  | .error code => (store, partitionResults topics code)
  | .ok _ =>
    (store.updateDetail transactionId producerEpoch fun detail =>
      { detail with
        produces := topics.foldl (fun produces topic =>
          topic.2.foldl (fun produces partition =>
            NestedMap.upsert produces (topic.1, partition) fun range => range.getD none) produces)
          detail.produces
        startedAt := some now
        state := some .begin },
     partitionResults topics .none)

def txnOffsetCommit (store : Meta) (transactionId : String) (producerId producerEpoch : Int)
    (group : String) (topics : List (String × List (Int × TxnCommitOffset))) :
    Meta × List (String × List (Int × ErrorCode)) :=
  let partitions := topics.map fun topic => (topic.1, topic.2.map Prod.fst)
  match store.currentDetail transactionId producerId producerEpoch with
  | .error code => (store, partitionResults partitions code)
  | .ok _ =>
    (store.updateDetail transactionId producerEpoch fun detail =>
      { detail with
        offsets := topics.foldl (fun offsets topic =>
          topic.2.foldl (fun offsets entry =>
            CommitOffsets.insert offsets group topic.1 entry.1 entry.2) offsets) detail.offsets },
     partitionResults partitions .none)

def prepare (committed : Bool) (detail : TxnDetail) : TxnDetail :=
  if detail.state = some .begin then
    { detail with state := some (if committed then .prepareCommit else .prepareAbort) }
  else detail

/-- The first update of `txn_end`, with the partitions that it then writes a marker to. A retry must
repeat the decision that was prepared. -/
def txnEndPrepare (store : Meta) (transactionId : String) (producerId producerEpoch : Int)
    (committed : Bool) : Meta × Except ErrorCode (List Topition) :=
  match store.currentDetail transactionId producerId producerEpoch with
  | .error code => (store, .error code)
  | .ok detail =>
    if (detail.state = some .prepareCommit ∧ committed = false) ∨
        (detail.state = some .prepareAbort ∧ committed = true) then (store, .error .invalidTxnState)
    else
      (store.updateDetail transactionId producerEpoch (prepare committed),
       .ok (if (prepare committed detail).state.any TxnState.isPrepared then detail.topitions else []))

def produced (store : Meta) (transactionId : String) (producerId producerEpoch : Int) :
    Except ErrorCode (Topition → Option TxnProduceOffset) :=
  match store.transactions[transactionId]? with
  | none => .error .transactionalIdNotFound
  | some txn =>
    if txn.producer ≠ producerId then .error .unknownProducerId
    else
      match txn.epochs[producerEpoch]? with
      | none => .error .producerFenced
      | some detail => .ok detail.range

def overlaps (candidates : Topition → Option TxnProduceOffset) (detail : TxnDetail) : Bool :=
  detail.topitions.any fun topition =>
    (detail.range topition).any fun range =>
      (candidates topition).any fun candidate => range.offsetStart < candidate.offsetEnd

def overlappingTransactions (store : Meta) (transactionId : String) (producerId producerEpoch : Int) :
    Except ErrorCode (List TxnId) :=
  match store.produced transactionId producerId producerEpoch with
  | .error code => .error code
  | .ok candidates =>
    .ok (store.transactions.toList.filterMap fun (candidateId, txn) =>
      -- The first overlapping epoch of a transactional ID stands for all of them.
      txn.epochs.toList.findSome? fun (epoch, detail) =>
        if transactionId = candidateId ∧ producerId = txn.producer ∧ producerEpoch = epoch then none
        else detail.state.bind fun state =>
          if overlaps candidates detail then
            some { transaction := candidateId, producerId := txn.producer, producerEpoch := epoch, state }
          else none)

def ended : Option TxnState → Option TxnState
  | none => some .committed
  | some .prepareCommit => some .committed
  | some .prepareAbort => some .aborted
  | _ => none

def resolve (txnId : TxnId) (resolved : Meta × CommitOffsets) : Meta × CommitOffsets :=
  match resolved.1.transactions[txnId.transaction]?.bind fun txn => txn.epochs[txnId.producerEpoch]? with
  | none => resolved
  | some detail =>
    match ended detail.state with
    | none => resolved
    | some state =>
      (resolved.1.updateDetail txnId.transaction txnId.producerEpoch fun detail =>
        { detail with state := some state, produces := ∅, offsets := ∅, startedAt := none },
       if txnId.state = .prepareCommit then resolved.2.merge detail.offsets else resolved.2)

/-- The second update of `txn_end`, with the offsets that it then commits: it ends the transaction
together with every one that overlaps it, once all of those are prepared. -/
def txnEndFinalize (store : Meta) (transactionId : String) (producerId producerEpoch : Int)
    (committed : Bool) : Meta × Except ErrorCode CommitOffsets :=
  match store.currentDetail transactionId producerId producerEpoch with
  | .error code => (store, .error code)
  | .ok _ =>
    match store.overlappingTransactions transactionId producerId producerEpoch with
    | .error code => (store, .error code)
    | .ok overlaps =>
      if overlaps.all fun txnId => txnId.state.isPrepared then
        let mine : TxnId :=
          { transaction := transactionId, producerId, producerEpoch
            state := if committed then .prepareCommit else .prepareAbort }
        let resolved := (overlaps ++ [mine]).foldl (fun resolved txnId => resolve txnId resolved) (store, ∅)
        (resolved.1, .ok resolved.2)
      else (store, .ok ∅)

end Meta

/-! Which producer a transactional ID has, and which epochs. -/

/-- The updates between the two documents left every transactional ID its producer and its epochs, and
dropped no producer. -/
structure SameIdentities (before after : Meta) : Prop where
  producers : ∀ id, id ∈ before.producers → id ∈ after.producers
  transactions : ∀ (transactionId : String) (txn : Txn),
    after.transactions[transactionId]? = some txn → ∃ txn' : Txn, before.transactions[transactionId]? = some txn' ∧
      txn'.producer = txn.producer ∧
      ∀ epoch, epoch ∈ txn'.epochs ↔ epoch ∈ txn.epochs

namespace SameIdentities

variable {before middle after : Meta}

theorem refl (store : Meta) : SameIdentities store store :=
  ⟨fun _ known => known, fun _ txn present => ⟨txn, present, rfl, fun _ => Iff.rfl⟩⟩

theorem trans (first : SameIdentities before middle) (second : SameIdentities middle after) :
    SameIdentities before after := by
  constructor
  · intro id known
    exact second.producers id (first.producers id known)
  · intro transactionId txn present
    obtain ⟨txn', present', producer', epochs'⟩ := second.transactions transactionId txn present
    obtain ⟨txn'', present'', producer'', epochs''⟩ := first.transactions transactionId txn' present'
    refine ⟨txn'', present'', producer''.trans producer', ?_⟩
    intro epoch
    exact (epochs'' epoch).trans (epochs' epoch)

theorem updateDetail (store : Meta) (transactionId : String) (producerEpoch : Int) (f : TxnDetail → TxnDetail) :
    SameIdentities store (store.updateDetail transactionId producerEpoch f) := by
  refine ⟨fun _ known => known, ?_⟩
  intro other txn present
  simp only [Meta.updateDetail, ExtTreeMap.getElem?_alter] at present
  split at present
  next same =>
    obtain rfl := LawfulEqOrd.eq_of_compare same
    obtain ⟨txn', present', rfl⟩ := map_eq_some_iff.mp present
    refine ⟨txn', present', rfl, ?_⟩
    intro epoch
    simp only [ExtTreeMap.mem_iff_isSome_getElem?, ExtTreeMap.getElem?_alter]
    split
    next same =>
      obtain rfl := LawfulEqOrd.eq_of_compare same
      simp
    next => rfl
  next => exact ⟨txn, present, rfl, fun _ => Iff.rfl⟩

theorem updateProduces (store : Meta) (transactionId : String) (producerEpoch : Int)
    (topition : Topition) (f : Option TxnProduceOffset → Option TxnProduceOffset) :
    SameIdentities store (store.updateProduces transactionId producerEpoch topition f) :=
  updateDetail store transactionId producerEpoch _

theorem advanceIdempotentSequence (store : Meta) (topition : Topition) (batch : IdempotentBatch)
    (transactional : Bool) (offset : Int) :
    SameIdentities store
      (store.advanceIdempotentSequence topition batch transactional offset).1 := by
  rcases Meta.advanceIdempotentSequence_cases store topition batch transactional offset with
    ⟨_, kept⟩ | ⟨_, _, _, _, _, kept⟩ | ⟨_, _, _, _, _, _, _, recorded⟩
  · rw [kept]
    exact refl store
  · rw [kept]
    exact refl store
  · rw [recorded]
    refine ⟨?_, fun _ txn present => ⟨txn, present, rfl, fun _ => Iff.rfl⟩⟩
    intro id known
    exact ExtTreeMap.mem_insert.mpr (.inr known)

theorem txnAddPartitions (store : Meta) (now : Int) (transactionId : String)
    (producerId producerEpoch : Int) (topics : List (String × List Int)) :
    SameIdentities store
      (store.txnAddPartitions now transactionId producerId producerEpoch topics).1 := by
  unfold Meta.txnAddPartitions
  split
  · exact refl store
  · exact updateDetail store transactionId producerEpoch _

theorem txnOffsetCommit (store : Meta) (transactionId : String) (producerId producerEpoch : Int)
    (group : String) (topics : List (String × List (Int × TxnCommitOffset))) :
    SameIdentities store
      (store.txnOffsetCommit transactionId producerId producerEpoch group topics).1 := by
  unfold Meta.txnOffsetCommit
  split
  · exact refl store
  · exact updateDetail store transactionId producerEpoch _

theorem txnEndPrepare (store : Meta) (transactionId : String) (producerId producerEpoch : Int) (committed : Bool) :
    SameIdentities store
      (store.txnEndPrepare transactionId producerId producerEpoch committed).1 := by
  unfold Meta.txnEndPrepare
  split
  · exact refl store
  · split
    · exact refl store
    · exact updateDetail store transactionId producerEpoch _

theorem resolve (txnId : TxnId) (resolved : Meta × CommitOffsets) :
    SameIdentities resolved.1 (Meta.resolve txnId resolved).1 := by
  unfold Meta.resolve
  split
  · exact refl _
  · split
    · exact refl _
    · exact updateDetail resolved.1 txnId.transaction txnId.producerEpoch _

theorem resolveAll (txnIds : List TxnId) (resolved : Meta × CommitOffsets) : SameIdentities resolved.1
      (txnIds.foldl (fun resolved txnId => Meta.resolve txnId resolved) resolved).1 := by
  induction txnIds generalizing resolved with
  | nil => exact refl _
  | cons txnId _ ih => exact (resolve txnId resolved).trans (ih _)

theorem txnEndFinalize (store : Meta) (transactionId : String) (producerId producerEpoch : Int) (committed : Bool) :
    SameIdentities store
      (store.txnEndFinalize transactionId producerId producerEpoch committed).1 := by
  unfold Meta.txnEndFinalize
  split
  · exact refl store
  · split
    · exact refl store
    · split
      · exact resolveAll _ (store, ∅)
      · exact refl store

end SameIdentities

end Nisshi.Dynostore
