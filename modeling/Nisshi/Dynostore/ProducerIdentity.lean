import Nisshi.Dynostore.InitProducer
import Mathlib.Data.List.Nodup

/-! The producer IDs and epochs that `init_producer` hands out, over every interleaving of the calls that
update `meta.json`. -/

namespace Nisshi.Dynostore

open Std Nisshi.Lib Nisshi.SansIo Nisshi.Storage.Producer Option Function

theorem lt_succ_of_last {V : Type} {m : ExtTreeMap Int V} (last : m.keys.getLast? = some newest) (member : key ∈ m) :
    key < newest + 1 := by
  rw [← ExtTreeMap.maxKey?_eq_getLast?_keys, ExtTreeMap.maxKey?_eq_some_iff_mem_and_forall] at last
  have bound := last.2 key member
  rw [Int.isLE_compare] at bound
  omega

theorem allocateProducerId_eq_some {id : Int} (allocated : allocateProducerId producers = some (id, after)) :
    id ∉ producers ∧ ∀ key, key ∈ producers ∨ key = id → key ∈ after := by
  obtain ⟨newId, next, same⟩ := map_eq_some_iff.mp allocated
  cases same
  refine ⟨?_, ?_⟩
  · intro member
    split at next
    next none =>
      rw [← ExtTreeMap.maxKey?_eq_getLast?_keys, ExtTreeMap.maxKey?_eq_none_iff] at none
      rw [none] at member
      exact ExtTreeMap.not_mem_empty member
    next newest last =>
      split at next
      · cases next
        have below := lt_succ_of_last last member
        omega
      · cases next
  · intro key known
    rcases known with known | rfl
    · exact ExtTreeMap.mem_insert.mpr (.inr known)
    · exact ExtTreeMap.mem_insert_self

theorem mem_alter_map {V : Type} {m : ExtTreeMap Int V} {f : V → V}
    (member : other ∈ m) : other ∈ m.alter key fun value => value.map f := by
  rw [ExtTreeMap.mem_iff_isSome_getElem?, ExtTreeMap.getElem?_alter]
  rw [ExtTreeMap.mem_iff_isSome_getElem?] at member
  split
  next same =>
    obtain rfl := LawfulEqOrd.eq_of_compare same
    simpa using member
  next => exact member

namespace Meta

variable {store : Meta} {transactionId : String} {timeout : Int} {claim : Option (Int × Int)}

structure Renewed (store after : Meta) (transactionId : String) (timeout id : Int) : Prop where
  fresh : id ∉ store.producers
  producers : ∀ key, key ∈ store.producers ∨ key = id → key ∈ after.producers
  transactions : after.transactions = store.transactions.insert transactionId (.first id timeout)

structure Bumped (store after : Meta) (transactionId : String) (txn : Txn) (epoch : Int) : Prop where
  present : store.transactions[transactionId]? = some txn
  above : ∀ older, older ∈ txn.epochs → older < epoch
  producers : ∀ key, key ∈ store.producers → key ∈ after.producers
  transactions : ∃ detail, after.transactions =
    store.transactions.insert transactionId { txn with epochs := txn.epochs.insert epoch detail }

variable (store transactionId timeout) in
theorem initAtNewId_cases
    (retired : ExtTreeMap Int ProducerDetail → ExtTreeMap Int ProducerDetail)
    (keeps : ∀ producers key, key ∈ producers → key ∈ retired producers) :
    (∃ code, store.initAtNewId transactionId timeout retired = (store, .completed (.failed code)) ∧ code ≠ .none) ∨
    (∃ id, (store.initAtNewId transactionId timeout retired).2 = .completed { error := .none, id, epoch := 0 } ∧
      Renewed store (store.initAtNewId transactionId timeout retired).1 transactionId timeout id) := by
  unfold initAtNewId
  split
  · exact .inl ⟨_, rfl, nofun⟩
  next id producers allocated =>
    obtain ⟨fresh, grown⟩ := allocateProducerId_eq_some allocated
    refine .inr ⟨id, rfl, fresh, ?_, rfl⟩
    intro key known
    exact keeps producers key (grown key known)

variable (store transactionId timeout claim) in
theorem initTransactional_cases :
    (∃ code, store.initTransactional transactionId timeout claim = (store, .completed (.failed code)) ∧ code ≠ .none) ∨
    (∃ id epoch, store.initTransactional transactionId timeout claim = (store, .needToRollback id epoch)) ∨
    (∃ id, (store.initTransactional transactionId timeout claim).2 = .completed { error := .none, id, epoch := 0 } ∧
      Renewed store (store.initTransactional transactionId timeout claim).1 transactionId timeout id) ∨
    (∃ txn epoch, (store.initTransactional transactionId timeout claim).2 =
        .completed { error := .none, id := txn.producer, epoch } ∧
      Bumped store (store.initTransactional transactionId timeout claim).1 transactionId txn epoch) := by
  unfold initTransactional
  split
  · rcases initAtNewId_cases store transactionId timeout id
      (fun _ _ known => known) with refused | renewed
    · exact .inl refused
    · exact .inr (.inr (.inl renewed))
  next txn present =>
    split
    · exact .inl ⟨_, rfl, nofun⟩
    next currentEpoch _ last =>
      split
      · exact .inl ⟨_, rfl, nofun⟩
      · split
        · exact .inr (.inl ⟨_, _, rfl⟩)
        · split
          · split
            · exact .inl ⟨_, rfl, nofun⟩
            · rcases initAtNewId_cases store transactionId timeout
                (retire · txn.producer) (fun _ _ known => mem_alter_map known) with
                refused | renewed
              · exact .inl refused
              · exact .inr (.inr (.inl renewed))
          · split
            · refine .inr (.inr (.inr ⟨txn, currentEpoch + 1, rfl, present, ?_, ?_, _, rfl⟩))
              · obtain ⟨_, max, found⟩ := Option.bind_eq_some_iff.mp last
                obtain ⟨_, _, same⟩ := Option.map_eq_some_iff.mp found
                cases same
                intro older member
                exact lt_succ_of_last max member
              · intro key known
                exact mem_alter_map known
            · exact .inl ⟨_, rfl, nofun⟩

end Meta

theorem SameIdentities.fence (store : Meta) (producerId : Int) : SameIdentities store (store.fence producerId) :=
  ⟨fun _ known => mem_alter_map known, fun _ txn present => ⟨txn, present, rfl, fun _ => Iff.rfl⟩⟩

namespace Init

variable {A : Type} {store after : Meta} {grants : List (Grant A)} {call : A}

theorem Produces.sameIdentities (update : Produces store after) : SameIdentities store after := by
  cases update with
  | start transactionId producerEpoch topition | range transactionId producerEpoch topition =>
    exact .updateProduces store transactionId producerEpoch topition _
  | advance topition batch transactional offset =>
    exact .advanceIdempotentSequence store topition batch transactional offset

/-- The grants so far, as the document holds them: each transactional ID's producer was granted to it
alone, at epochs that the document still has. -/
structure Issued (store : Meta) (grants : List (Grant A)) : Prop where
  ordered : grants.Pairwise fun earlier later => earlier.id = later.id → earlier.epoch < later.epoch
  owned : ∀ g ∈ grants, ∀ h ∈ grants, g.id = h.id → g.transactionId = h.transactionId
  known : ∀ g ∈ grants, g.id ∈ store.producers
  granted : ∀ (transactionId : String) (txn : Txn), store.transactions[transactionId]? = some txn →
    ∃ g ∈ grants, g.id = txn.producer
  current : ∀ (transactionId : String) (txn : Txn), store.transactions[transactionId]? = some txn →
    ∀ g ∈ grants, g.id = txn.producer → g.transactionId = some transactionId ∧ g.epoch ∈ txn.epochs

namespace Issued

variable (issued : Issued store grants)

include issued

theorem same (identities : SameIdentities store after) : Issued after grants where
  ordered := issued.ordered
  owned := issued.owned
  known g member := identities.producers g.id (issued.known g member)
  granted transactionId txn present := by
    obtain ⟨txn', present', producer, _⟩ := identities.transactions transactionId txn present
    rw [← producer]
    exact issued.granted transactionId txn' present'
  current transactionId txn present g member mine := by
    obtain ⟨txn', present', producer, epochs⟩ := identities.transactions transactionId txn present
    obtain ⟨owner, held⟩ :=
      issued.current transactionId txn' present' g member (mine.trans producer.symm)
    exact ⟨owner, (epochs g.epoch).mp held⟩

theorem snoc (grant : Grant A)
    (above : ∀ g ∈ grants, g.id = grant.id → g.epoch < grant.epoch ∧ g.transactionId = grant.transactionId) :
    ((grants ++ [grant]).Pairwise fun earlier later =>
      earlier.id = later.id → earlier.epoch < later.epoch) ∧
    (∀ g ∈ grants ++ [grant], ∀ h ∈ grants ++ [grant], g.id = h.id → g.transactionId = h.transactionId) := by
  constructor
  · exact Log.pairwise_concat.mpr ⟨issued.ordered, fun g member same => (above g member same).1⟩
  · intro g member h member' same
    rcases Log.mem_concat.mp member with old | rfl <;> rcases Log.mem_concat.mp member' with old' | rfl
    · exact issued.owned g old h old' same
    · exact (above g old same).2
    · exact (above h old' same.symm).2.symm
    · rfl

theorem idempotent {id : Int} (fresh : id ∉ store.producers)
    (grown : ∀ key, key ∈ store.producers ∨ key = id → key ∈ producers) :
    Issued { store with producers } (grants ++ [{ call, transactionId := none, id, epoch := 0 }]) := by
  have unlike : ∀ g ∈ grants, g.id ≠ id := fun g member same => fresh (same ▸ issued.known g member)
  obtain ⟨ordered, owned⟩ := issued.snoc { call, transactionId := none, id, epoch := 0 }
    (fun g member same => absurd same (unlike g member))
  refine ⟨ordered, owned, ?_, ?_, ?_⟩
  · intro g member
    rcases Log.mem_concat.mp member with old | rfl
    · exact grown g.id (.inl (issued.known g old))
    · exact grown id (.inr rfl)
  · intro transactionId txn present
    obtain ⟨g, member, same⟩ := issued.granted transactionId txn present
    exact ⟨g, List.mem_append_left _ member, same⟩
  · intro transactionId txn present g member mine
    rcases Log.mem_concat.mp member with old | rfl
    · exact issued.current transactionId txn present g old mine
    · obtain ⟨g, member, same⟩ := issued.granted transactionId txn present
      exact absurd (same.trans mine.symm) (unlike g member)

theorem transactional (txn : Txn) (above : ∀ g ∈ grants, g.id = txn.producer →
      g.epoch < epoch ∧ g.transactionId = some transactionId)
    (held : ∀ g ∈ grants, g.id = txn.producer → g.epoch ∈ txn.epochs) (newest : epoch ∈ txn.epochs)
    (apart : ∀ (other : String) (txn' : Txn), other ≠ transactionId →
      store.transactions[other]? = some txn' → txn'.producer ≠ txn.producer)
    (producers : ∀ key, key ∈ store.producers ∨ key = txn.producer → key ∈ after.producers)
    (transactions : after.transactions = store.transactions.insert transactionId txn) :
    Issued after
      (grants ++ [{ call, transactionId := some transactionId, id := txn.producer, epoch }]) := by
  have others : ∀ (other : String) (txn' : Txn), after.transactions[other]? = some txn' →
      other = transactionId ∧ txn' = txn ∨ other ≠ transactionId ∧ store.transactions[other]? = some txn' := by
    intro other txn' present
    rw [transactions, ExtTreeMap.getElem?_insert] at present
    split at present
    next same =>
      cases present
      exact .inl ⟨(LawfulEqOrd.eq_of_compare same).symm, rfl⟩
    next different =>
      refine .inr ⟨?_, present⟩
      rintro rfl
      exact different (ReflOrd.compare_self)
  obtain ⟨ordered, owned⟩ := issued.snoc
    { call, transactionId := some transactionId, id := txn.producer, epoch } above
  refine ⟨ordered, owned, ?_, ?_, ?_⟩
  · intro g member
    rcases Log.mem_concat.mp member with old | rfl
    · exact producers g.id (.inl (issued.known g old))
    · exact producers _ (.inr rfl)
  · intro other txn' present
    rcases others other txn' present with ⟨rfl, rfl⟩ | ⟨_, present⟩
    · exact ⟨_, List.mem_append_right _ (List.mem_singleton_self _), rfl⟩
    · obtain ⟨g, member, same⟩ := issued.granted other txn' present
      exact ⟨g, List.mem_append_left _ member, same⟩
  · intro other txn' present g member mine
    rcases others other txn' present with ⟨rfl, rfl⟩ | ⟨different, present⟩
    · rcases Log.mem_concat.mp member with old | rfl
      · exact ⟨(above g old mine).2, held g old mine⟩
      · exact ⟨rfl, newest⟩
    · rcases Log.mem_concat.mp member with old | rfl
      · exact issued.current other txn' present g old mine
      · exact absurd mine.symm (apart other txn' different present)

theorem renewed {id : Int} (renewed : Meta.Renewed store after transactionId timeout id) :
    Issued after (grants ++ [{ call, transactionId := some transactionId, id, epoch := 0 }]) := by
  have unlike : ∀ g ∈ grants, g.id ≠ id :=
    fun g member same => renewed.fresh (same ▸ issued.known g member)
  refine issued.transactional (.first id timeout) (fun g member same => absurd same (unlike g member))
    (fun g member same => absurd same (unlike g member)) ExtTreeMap.mem_insert_self ?_
    renewed.producers renewed.transactions
  intro other txn' _ present same
  obtain ⟨g, member, mine⟩ := issued.granted other txn' present
  exact unlike g member (mine.trans same)

theorem bumped {txn : Txn} (bumped : Meta.Bumped store after transactionId txn epoch) : Issued after
      (grants ++ [{ call, transactionId := some transactionId, id := txn.producer, epoch }]) := by
  obtain ⟨detail, transactions⟩ := bumped.transactions
  have current := issued.current transactionId txn bumped.present
  obtain ⟨g₀, member₀, mine₀⟩ := issued.granted transactionId txn bumped.present
  refine issued.transactional { txn with epochs := txn.epochs.insert epoch detail } ?_ ?_
    ExtTreeMap.mem_insert_self ?_ ?_ transactions
  · intro g member mine
    exact ⟨bumped.above _ (current g member mine).2, (current g member mine).1⟩
  · intro g member mine
    exact ExtTreeMap.mem_insert.mpr (.inr (current g member mine).2)
  · -- A producer ID of two transactional IDs would have been granted to both.
    intro other txn' different present same
    have theirs := (issued.current other txn' present g₀ member₀ (mine₀.trans same.symm)).1
    rw [(current g₀ member₀ mine₀).1] at theirs
    exact different (some.inj theirs).symm
  · intro key known
    rcases known with known | rfl
    · exact bumped.producers key known
    · rw [← mine₀]
      exact bumped.producers _ (issued.known g₀ member₀)

end Issued

variable [DecidableEq A] {program : A → Call} {s t : State A} {label : Option A}

def Answered (program : A → Call) (s : State A) : Prop :=
  ∀ a response, s.phase a = .answered response → response.error = .none →
    ∃ g ∈ s.grants, g.call = a ∧ g.id = response.id ∧ g.epoch = response.epoch ∧ ∃ timeout producerId producerEpoch,
        program a = .initProducer g.transactionId timeout producerId producerEpoch

theorem Answered.move (answered : Answered program s) {store : Meta}
    (running : ∀ response, phase ≠ .answered response) : Answered program (s.move a store phase) := by
  intro b response at_
  by_cases mine : b = a
  · subst mine
    simp only [State.move, update_self] at at_
    exact absurd at_ (running response)
  · simp only [State.move, update_of_ne mine] at at_
    exact answered b response at_

theorem Answered.answer (answered : Answered program s) {a : A} {store : Meta}
    {transactionId : Option String} {timeout : Int} {producerId producerEpoch : Option Int}
    (call : program a = .initProducer transactionId timeout producerId producerEpoch)
    (response : ProducerIdResponse) : Answered program (s.answer a store transactionId response) := by
  intro b response' at_ granted
  by_cases mine : b = a
  · subst mine
    simp only [State.answer, update_self] at at_
    cases at_
    refine ⟨{ call := b, transactionId, id := response.id, epoch := response.epoch }, ?_, rfl, rfl, rfl,
      timeout, producerId, producerEpoch, call⟩
    simp only [State.answer, if_pos granted]
    exact List.mem_append_right _ (List.mem_singleton_self _)
  · simp only [State.answer, update_of_ne mine] at at_
    obtain ⟨g, member, facts⟩ := answered b response' at_ granted
    exact ⟨g, List.mem_append_left _ member, facts⟩

theorem Answered.step (answered : Answered program s) (step : Step program s label t) : Answered program t := by
  cases step with
  | produce => exact answered
  | claimInvalid _ call | initTransactional _ call | initIdempotent _ call => exact answered.answer call _
  | needToRollback | txnEnd | prepare | prepareRefused | mark | finalize | finalizeRefused | commit | ended =>
    exact answered.move nofun
  | rolledBack =>
    refine answered.move ?_
    intro response
    split <;> nofun
  | fence | addPartitions | offsetCommit | stop => exact answered.move nofun

theorem Issued.refused (issued : Issued s.store s.grants) {a : A} {transactionId : Option String}
    {code : ErrorCode} (error : code ≠ .none) :
    Issued (s.answer a s.store transactionId (.failed code)).store
      (s.answer a s.store transactionId (.failed code)).grants := by
  simpa [State.answer, ProducerIdResponse.failed, error] using issued

theorem Issued.step (issued : Issued s.store s.grants) (step : Step program s label t) : Issued t.store t.grants := by
  cases step with
  | produce update => exact issued.same update.sameIdentities
  | @claimInvalid a transactionId timeout producerId producerEpoch code at_ call invalid =>
    refine issued.refused ?_
    rintro rfl
    exact producerClaim_ne_none invalid
  | @initTransactional a transactionId timeout producerId producerEpoch claim store response at_ call
      valid completed =>
    rcases Meta.initTransactional_cases s.store transactionId timeout claim with
      ⟨code, refused, error⟩ | ⟨id, epoch, rollback⟩ | ⟨id, answer, renewed⟩ | ⟨txn, epoch, answer, bumped⟩
    · rw [completed] at refused
      cases refused
      exact issued.refused error
    · rw [completed] at rollback
      cases rollback
    · rw [completed] at answer renewed
      cases answer
      exact issued.renewed renewed
    · rw [completed] at answer bumped
      cases answer
      exact issued.bumped bumped
  | initIdempotent =>
    unfold Meta.initIdempotent
    split
    · exact issued.refused nofun
    next allocated =>
      obtain ⟨fresh, grown⟩ := allocateProducerId_eq_some allocated
      exact issued.idempotent fresh grown
  | @needToRollback a transactionId timeout producerId producerEpoch claim store _ _ at_ call valid
      rollback =>
    rcases Meta.initTransactional_cases s.store transactionId timeout claim with
      ⟨code, refused, error⟩ | ⟨id, epoch, kept⟩ | ⟨id, answer, renewed⟩ | ⟨txn, epoch, answer, bumped⟩
    · rw [rollback] at refused
      cases refused
    · rw [rollback] at kept
      cases kept
      exact issued
    · rw [rollback] at answer
      cases answer
    · rw [rollback] at answer
      cases answer
  | txnEnd | mark | commit | ended | rolledBack | stop => exact issued
  | @prepare a request store topitions at_ prepared =>
    have same := SameIdentities.txnEndPrepare s.store request.transactionId request.producerId
      request.producerEpoch request.committed
    rw [prepared] at same
    exact issued.same same
  | @prepareRefused a request store code at_ refused =>
    have same := SameIdentities.txnEndPrepare s.store request.transactionId request.producerId
      request.producerEpoch request.committed
    rw [refused] at same
    exact issued.same same
  | @finalize a request store commits at_ finalized =>
    have same := SameIdentities.txnEndFinalize s.store request.transactionId request.producerId
      request.producerEpoch request.committed
    rw [finalized] at same
    exact issued.same same
  | @finalizeRefused a request store code at_ refused =>
    have same := SameIdentities.txnEndFinalize s.store request.transactionId request.producerId
      request.producerEpoch request.committed
    rw [refused] at same
    exact issued.same same
  | fence => exact issued.same (.fence s.store _)
  | addPartitions => exact issued.same (.txnAddPartitions ..)
  | offsetCommit => exact issued.same (.txnOffsetCommit ..)

theorem issued_of_reachable (reached : (machine program).Reachable s) :
    Issued s.store s.grants ∧ Answered program s := by
  apply Machine.Reachable.invariant
    ?_ ?_ reached
  · rintro _ rfl
    refine ⟨⟨List.Pairwise.nil, ?_, ?_, ?_, ?_⟩, ?_⟩
    · intro g member
      cases member
    · intro g member
      cases member
    · intro transactionId txn present
      simp [State.start] at present
    · intro transactionId txn present
      simp [State.start] at present
    · intro a response at_
      cases at_
  · rintro _ _ _ ⟨issued, answered⟩ step
    exact ⟨issued.step step, answered.step step⟩

/-- No producer ID and epoch are handed out twice, a producer ID goes to one transactional ID at most, and
its epochs increase in the order of the steps that assigned them. -/
theorem producer_identities_are_never_reused (reached : (machine program).Reachable s) :
    (∀ a b response response', a ≠ b → s.phase a = .answered response →
      s.phase b = .answered response' → response.error = .none → response'.error = .none →
      (response.id, response.epoch) ≠ (response'.id, response'.epoch)) ∧
    (∀ a response, s.phase a = .answered response → response.error = .none →
      ∃ g ∈ s.grants, g.call = a ∧ g.id = response.id ∧ g.epoch = response.epoch ∧ ∃ timeout producerId producerEpoch,
          program a = .initProducer g.transactionId timeout producerId producerEpoch) ∧
    (s.grants.map fun g => (g.id, g.epoch)).Nodup ∧
    (∀ g ∈ s.grants, ∀ h ∈ s.grants, g.id = h.id → g.transactionId = h.transactionId) ∧
    (s.grants.Pairwise fun earlier later => earlier.id = later.id → earlier.epoch < later.epoch) := by
  obtain ⟨issued, answered⟩ := issued_of_reachable reached
  have apart : s.grants.Pairwise fun g h => (g.id, g.epoch) ≠ (h.id, h.epoch) := by
    refine issued.ordered.imp ?_
    intro g h increases same
    obtain ⟨id, epoch⟩ := Prod.mk.inj same
    omega
  have distinct : (s.grants.map fun g => (g.id, g.epoch)).Nodup := List.pairwise_map.mpr apart
  refine ⟨?_, answered, distinct, issued.owned, issued.ordered⟩
  intro a b response response' different at_ at_' granted granted' same
  obtain ⟨g, member, rfl, id, epoch, _⟩ := answered a response at_ granted
  obtain ⟨h, member', rfl, id', epoch', _⟩ := answered b response' at_' granted'
  have equal : g = h := List.inj_on_of_nodup_map distinct member member' (by
    rw [id, epoch, id', epoch', same])
  exact different (by rw [equal])

/-- A transactional producer that starts twice gets one producer ID, at two epochs. -/
theorem producer_identities_are_never_reused_restart : ∃ s : State Bool,
    (machine fun _ => .initProducer (some "t") 60000 none none).Reachable s ∧
    s.phase false = .answered { error := .none, id := 1, epoch := 0 } ∧
    s.phase true = .answered { error := .none, id := 1, epoch := 1 } ∧
    ∃ g ∈ s.grants, g.call = true ∧ g.id = 1 ∧ g.epoch = 1 ∧ g.transactionId = some "t" := by
  have start : (machine fun _ : Bool => .initProducer (some "t") 60000 none none).Reachable State.start :=
    .init rfl
  have first := start.step (.initTransactional (a := false) rfl rfl rfl
    (Prod.ext rfl (show _ = InitProducer.completed { error := .none, id := 1, epoch := 0 } by
      decide +kernel)))
  have second := first.step (.initTransactional (a := true) rfl rfl rfl
    (Prod.ext rfl (show _ = InitProducer.completed { error := .none, id := 1, epoch := 1 } by
      decide +kernel)))
  obtain ⟨g, member, call, id, epoch, _, _, _, same⟩ :=
    (producer_identities_are_never_reused second).2.1 true _ rfl rfl
  have owner : some "t" = g.transactionId := (Call.initProducer.inj same).1
  exact ⟨_, second, rfl, rfl, g, member, call, id, epoch, owner.symm⟩

end Init

end Nisshi.Dynostore
