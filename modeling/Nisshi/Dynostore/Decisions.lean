import Nisshi.Dynostore.ProducerIdentity

/-! The transactions of `meta.json` over every interleaving of the calls that update it: what becomes of one that
`txn_end` has prepared, and what a producer can still do that was fenced. -/

namespace Nisshi.Dynostore

open Std Nisshi.Lib Nisshi.SansIo Option

/-- The state of the transaction that the request ends, while its transactional ID has the producer ID. -/
def Meta.stateOf (store : Meta) (request : TxnEnd) : Option TxnState :=
  store.transactions[request.transactionId]?.bind fun txn =>
    if txn.producer = request.producerId then txn.epochs[request.producerEpoch]?.bind TxnDetail.state else none

namespace TxnEnd

def decision (request : TxnEnd) : TxnState :=
  if request.committed then .prepareCommit else .prepareAbort

def outcome (request : TxnEnd) : TxnState :=
  if request.committed then .committed else .aborted

def Decides (request : TxnEnd) (detail : TxnDetail) : Prop :=
  detail.state = some request.decision ∨ detail.state = some request.outcome

/-- The transaction is as the request decides, unless its transactional ID has moved to another producer ID. -/
structure Stands (request : TxnEnd) (store : Meta) : Prop where
  known : request.producerId ∈ store.producers
  decides : ∀ txn : Txn, store.transactions[request.transactionId]? = some txn → txn.producer = request.producerId →
    ∃ detail, txn.epochs[request.producerEpoch]? = some detail ∧ request.Decides detail

variable {request : TxnEnd} {store after : Meta} {detail : TxnDetail} {committed : Bool}

theorem Decides.prepare (decides : request.Decides detail) : Meta.prepare committed detail = detail := by
  refine if_neg ?_
  rcases decides with same | same <;> rw [same] <;> cases mine : request.committed <;>
    simp [decision, outcome, mine]

theorem Decides.ended (decides : request.Decides detail) (ends : Meta.ended detail.state = some state) :
    state = request.outcome := by
  rcases decides with same | same <;> rw [same] at ends <;> cases mine : request.committed <;>
    simp_all [decision, outcome, Meta.ended]

namespace Stands

variable (stands : request.Stands store) {transactionId : String} {producerId producerEpoch : Int}

include stands

theorem of_transactions (same : after.transactions = store.transactions)
    (known : ∀ id, id ∈ store.producers → id ∈ after.producers) : request.Stands after := by
  refine ⟨known _ stands.known, ?_⟩
  rw [same]
  exact stands.decides

/-- An update of another transaction changes nothing, and one of this transaction may rely on its state. -/
theorem updateDetail {f : TxnDetail → TxnDetail} (keeps : ∀ txn detail,
      store.transactions[transactionId]? = some txn → txn.producer = request.producerId →
      txn.epochs[producerEpoch]? = some detail → request.transactionId = transactionId →
      request.producerEpoch = producerEpoch → request.Decides detail → request.Decides (f detail)) :
    request.Stands (store.updateDetail transactionId producerEpoch f) := by
  refine ⟨stands.known, ?_⟩
  intro txn present owned
  simp only [Meta.updateDetail, ExtTreeMap.getElem?_alter] at present
  split at present
  next same =>
    obtain rfl := LawfulEqOrd.eq_of_compare same
    obtain ⟨before, found, rfl⟩ := map_eq_some_iff.mp present
    obtain ⟨detail, held, decides⟩ := stands.decides before found owned
    simp only [ExtTreeMap.getElem?_alter]
    split
    next same =>
      obtain rfl := LawfulEqOrd.eq_of_compare same
      exact ⟨f detail, by rw [held]; rfl, keeps before detail found owned held rfl rfl decides⟩
    next => exact ⟨detail, held, decides⟩
  next => exact stands.decides txn present owned

theorem txnEndPrepare
    (result : store.txnEndPrepare transactionId producerId producerEpoch committed = (after, answer)) :
    request.Stands after := by
  unfold Meta.txnEndPrepare at result
  split at result
  · cases result
    exact stands
  split at result <;> cases result
  · exact stands
  refine stands.updateDetail fun _ _ _ _ _ _ _ decides => ?_
  rw [decides.prepare]
  exact decides

theorem resolve (txnId : TxnId) (commits : CommitOffsets) :
    request.Stands (Meta.resolve txnId (store, commits)).1 := by
  unfold Meta.resolve
  split
  · exact stands
  next present =>
    split
    · exact stands
    next ends =>
      refine stands.updateDetail fun txn detail here _ held _ _ decides => .inr ?_
      simp only [here, bind_some, held, some.injEq] at present
      subst present
      rw [decides.ended ends]

theorem resolveAll (txnIds : List TxnId) (commits : CommitOffsets) :
    request.Stands (txnIds.foldl (fun resolved txnId => Meta.resolve txnId resolved) (store, commits)).1 := by
  induction txnIds generalizing store commits with
  | nil => exact stands
  | cons txnId _ ih => exact ih (stands.resolve txnId commits) _

theorem txnEndFinalize
    (result : store.txnEndFinalize transactionId producerId producerEpoch committed = (after, answer)) :
    request.Stands after := by
  unfold Meta.txnEndFinalize at result
  split at result
  · cases result
    exact stands
  split at result
  · cases result
    exact stands
  split at result <;> cases result
  · exact stands.resolveAll _ ∅
  · exact stands

theorem txnOffsetCommit :
    request.Stands (store.txnOffsetCommit transactionId producerId producerEpoch group topics).1 := by
  unfold Meta.txnOffsetCommit
  split
  · exact stands
  · exact stands.updateDetail fun _ _ _ _ _ _ _ decides => decides

theorem txnAddPartitions (other : request.transactionId = transactionId → request.producerId = producerId →
      request.producerEpoch ≠ producerEpoch) :
    request.Stands (store.txnAddPartitions now transactionId producerId producerEpoch topics).1 := by
  unfold Meta.txnAddPartitions
  split
  · exact stands
  next current =>
    refine stands.updateDetail fun txn _ present owned _ same epoch => ?_
    -- A producer that does not have the transactional ID is refused.
    simp only [Meta.currentDetail, present] at current
    split at current
    · cases current
    next mine => exact absurd epoch (other same (owned.symm.trans (not_not.mp mine)))

theorem produces (update : Init.Produces store after) : request.Stands after := by
  cases update with
  | start | range => exact stands.updateDetail fun _ _ _ _ _ _ _ decides => decides
  | advance topition batch transactional offset =>
    refine stands.of_transactions ?_
      (SameIdentities.advanceIdempotentSequence store topition batch transactional offset).producers
    rcases Meta.advanceIdempotentSequence_cases store topition batch transactional offset with
      ⟨_, kept⟩ | ⟨_, _, _, _, _, kept⟩ | ⟨_, _, _, _, _, _, _, recorded⟩
    · rw [kept]
    · rw [kept]
    · rw [recorded]

theorem renewed {id : Int} (renewed : Meta.Renewed store after transactionId timeout id) : request.Stands after := by
  refine ⟨renewed.producers _ (.inl stands.known), ?_⟩
  intro txn present owned
  rw [renewed.transactions, ExtTreeMap.getElem?_insert] at present
  split at present
  · cases present
    have known := stands.known
    rw [← owned] at known
    exact absurd known renewed.fresh
  · exact stands.decides txn present owned

theorem bumped (bumped : Meta.Bumped store after transactionId before epoch) : request.Stands after := by
  refine ⟨bumped.producers _ stands.known, ?_⟩
  intro txn present owned
  obtain ⟨_, transactions⟩ := bumped.transactions
  rw [transactions, ExtTreeMap.getElem?_insert] at present
  split at present
  next same =>
    obtain rfl := LawfulEqOrd.eq_of_compare same
    cases present
    obtain ⟨detail, held, decides⟩ := stands.decides before bumped.present owned
    have older := bumped.above _ (ExtTreeMap.mem_iff_isSome_getElem?.mpr (by rw [held]; rfl))
    refine ⟨detail, ?_, decides⟩
    rw [ExtTreeMap.getElem?_insert, if_neg, held]
    exact fun same => older.ne' (LawfulEqOrd.eq_of_compare same)
  next => exact stands.decides txn present owned

theorem initTransactional (result : store.initTransactional transactionId timeout claim = (after, answer)) :
    request.Stands after := by
  rcases Meta.initTransactional_cases store transactionId timeout claim with
    ⟨_, refused, _⟩ | ⟨_, _, rollback⟩ | ⟨_, _, renewed⟩ | ⟨_, _, _, bumped⟩
  · cases result.symm.trans refused
    exact stands
  · cases result.symm.trans rollback
    exact stands
  · rw [result] at renewed
    exact stands.renewed renewed
  · rw [result] at bumped
    exact stands.bumped bumped

end Stands

end TxnEnd

namespace Init

variable {A : Type} [DecidableEq A] {program : A → Call} {s t : State A} {label : Option A} {request : TxnEnd}

/-- The step adds no partitions to the transaction of the request. -/
def AddsNone (program : A → Call) (request : TxnEnd) (label : Option A) : Prop :=
  ∀ a topics, label = some a →
    program a ≠ .txnAddPartitions request.transactionId request.producerId request.producerEpoch topics

theorem stands_step (stands : request.Stands s.store) (adds : AddsNone program request label)
    (step : Step program s label t) : request.Stands t.store := by
  cases step with
  | produce update => exact stands.produces update
  | initTransactional _ _ _ result | needToRollback _ _ _ result => exact stands.initTransactional result
  | initIdempotent =>
    unfold Meta.initIdempotent
    split
    · exact stands
    next allocated =>
      exact stands.of_transactions rfl fun id known => (allocateProducerId_eq_some allocated).2 id (.inl known)
  | prepare _ result | prepareRefused _ result => exact stands.txnEndPrepare result
  | finalize _ result | finalizeRefused _ result => exact stands.txnEndFinalize result
  | fence => exact stands.of_transactions rfl (SameIdentities.fence s.store _).producers
  | addPartitions now at_ call =>
    refine stands.txnAddPartitions ?_
    rintro rfl rfl rfl
    exact adds _ _ rfl call
  | offsetCommit => exact stands.txnOffsetCommit
  | claimInvalid | txnEnd | mark | commit | ended | rolledBack | stop => exact stands

/-- Retries, other decisions, rollbacks and the ends of overlapping transactions do not change a decision: the
transaction keeps it, or ends with its outcome, until partitions are added to it or its transactional ID moves to
another producer ID. -/
theorem prepared_decision_is_kept (reached : (machine program).Reachable s)
    (prepared : s.store.stateOf request = some request.decision)
    (later : { machine program with init := (· = s) }.ReachableWhile (fun _ => AddsNone program request) t)
    (owned : ∃ txn ∈ t.store.transactions[request.transactionId]?, txn.producer = request.producerId) :
    t.store.stateOf request = some request.decision ∨ t.store.stateOf request = some request.outcome := by
  have start : request.Stands s.store := by
    obtain ⟨txn, present, found⟩ := bind_eq_some_iff.mp prepared
    obtain ⟨mine, found⟩ := ite_none_right_eq_some.mp found
    obtain ⟨detail, held, same⟩ := bind_eq_some_iff.mp found
    obtain ⟨issued, _⟩ := issued_of_reachable reached
    obtain ⟨g, granted, id⟩ := issued.granted _ txn present
    refine ⟨mine ▸ id ▸ issued.known g granted, ?_⟩
    intro other present' _
    cases present.symm.trans present'
    exact ⟨detail, held, .inl same⟩
  have stands : request.Stands t.store := by
    refine later.invariant (P := fun t => request.Stands t.store) ?_ ?_
    · rintro _ rfl
      exact start
    · exact fun _ _ _ stands adds step => stands_step stands adds step
  obtain ⟨txn, present, mine⟩ := owned
  obtain ⟨detail, held, decides⟩ := stands.decides txn present mine
  rw [Meta.stateOf, present, bind_some, if_pos mine, held, bind_some]
  exact decides

def commitFirst : TxnEnd where
  transactionId := "t"
  producerId := 1
  producerEpoch := 0
  committed := true

def commitThenAbort : Fin 4 → Call
  | 0 => .initProducer (some "t") 60000 none none
  | 1 => .txnAddPartitions "t" 1 0 []
  | 2 => .txnEnd commitFirst
  | 3 => .txnEnd { commitFirst with committed := false }

/-- An abort that comes after the commit was prepared is refused. -/
theorem prepared_decision_is_kept_commit : ∃ t : State (Fin 4), t.phase 3 = .failed ∧
    (t.store.stateOf commitFirst = some .prepareCommit ∨ t.store.stateOf commitFirst = some .committed) := by
  have start : (machine commitThenAbort).Reachable State.start := .init rfl
  have granted := start.step (.initTransactional (a := 0) rfl rfl rfl
    (Prod.ext rfl (show _ = InitProducer.completed { error := .none, id := 1, epoch := 0 } by decide +kernel)))
  have ending := (granted.step (.addPartitions (a := 1) 0 rfl rfl)).step (.txnEnd (a := 2) rfl rfl)
  have prepared := ending.step (.prepare (a := 2) rfl (Prod.ext rfl (show _ = Except.ok [] by decide +kernel)))
  have adds : AddsNone commitThenAbort commitFirst (some 3) := by
    rintro _ _ ⟨⟩ ⟨⟩
  refine ⟨_, ?_, prepared_decision_is_kept prepared (by decide +kernel)
    (.next (.next (.init rfl) (Step.txnEnd (a := 3) rfl rfl) adds) (Step.prepareRefused (a := 3) rfl
      (Prod.ext rfl (show _ = Except.error ErrorCode.invalidTxnState by decide +kernel))) adds) (by decide +kernel)⟩
  rfl

/-- A producer ID with a newer epoch than the caller's was handed out: every transactional call is refused, and
changes no transaction. -/
theorem fenced_epoch_changes_nothing (reached : (machine program).Reachable s) {g : Grant A} (granted : g ∈ s.grants)
    {producerEpoch : Int} (older : producerEpoch < g.epoch) (transactionId : String) : ∃ code ≠ .none,
      (∀ now topics, s.store.txnAddPartitions now transactionId g.id producerEpoch topics =
        (s.store, Meta.partitionResults topics code)) ∧
      (∀ group topics, s.store.txnOffsetCommit transactionId g.id producerEpoch group topics =
        (s.store, Meta.partitionResults (topics.map fun topic => (topic.1, topic.2.map Prod.fst)) code)) ∧
      ∀ committed, s.store.txnEndPrepare transactionId g.id producerEpoch committed = (s.store, .error code) ∧
        s.store.txnEndFinalize transactionId g.id producerEpoch committed = (s.store, .error code) := by
  have refused : ∃ code ≠ .none, s.store.currentDetail transactionId g.id producerEpoch = .error code := by
    unfold Meta.currentDetail
    split
    · exact ⟨_, by decide, rfl⟩
    next txn present =>
      split
      · exact ⟨_, by decide, rfl⟩
      next owned =>
        have held := ((issued_of_reachable reached).1.current _ txn present g granted (not_not.mp owned).symm).2
        split
        · exact ⟨_, by decide, rfl⟩
        next last =>
          obtain ⟨_, newest, found⟩ := bind_eq_some_iff.mp last
          obtain ⟨_, _, same⟩ := map_eq_some_iff.mp found
          cases same
          have := lt_succ_of_last newest held
          exact ⟨_, by decide, if_pos (by omega)⟩
  obtain ⟨code, error, refused⟩ := refused
  refine ⟨code, error, ?_, ?_, ?_⟩
  · intro now topics
    rw [Meta.txnAddPartitions, refused]
  · intro group topics
    rw [Meta.txnOffsetCommit, refused]
  · intro committed
    rw [Meta.txnEndPrepare, Meta.txnEndFinalize, refused]
    exact ⟨rfl, rfl⟩

theorem fenced_epoch_changes_nothing_restart : ∃ s : State Bool,
    (machine fun _ => .initProducer (some "t") 60000 none none).Reachable s ∧
    ∃ code ≠ .none, s.store.txnEndPrepare "t" 1 0 true = (s.store, .error code) := by
  have start : (machine fun _ : Bool => .initProducer (some "t") 60000 none none).Reachable State.start := .init rfl
  have first := start.step (.initTransactional (a := false) rfl rfl rfl
    (Prod.ext rfl (show _ = InitProducer.completed { error := .none, id := 1, epoch := 0 } by decide +kernel)))
  have second := first.step (.initTransactional (a := true) rfl rfl rfl
    (Prod.ext rfl (show _ = InitProducer.completed { error := .none, id := 1, epoch := 1 } by decide +kernel)))
  obtain ⟨code, error, _, _, ends⟩ := fenced_epoch_changes_nothing second
    (g := { call := true, transactionId := some "t", id := 1, epoch := 1 }) (by decide +kernel)
    (show (0 : Int) < 1 by decide) "t"
  exact ⟨_, second, code, error, (ends true).1⟩

end Init

end Nisshi.Dynostore
