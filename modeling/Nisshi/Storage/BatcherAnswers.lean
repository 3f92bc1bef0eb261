import Nisshi.Storage.BatcherCustody

/-! What a batcher tells its callers: the result that each call returns is its own, and each batch is stored at
most once, in the order of its queue. -/

namespace Nisshi.Storage.Batcher

open Nisshi.SansIo Nisshi.Lib List Function

variable {A : Type} {batcher : ProduceRequestBatcher} {program : A → Call} {s t : State A}
  {action : Action A} {a b self : A} {produced produced' : List (Handing A)} {taken taken' : List (List A)}
  {handing : Handing A} {queue : List A}

section Handings

variable [DecidableEq A]

def handingsOf (produced : List (Handing A)) (queue : List A) : List (Handing A) :=
  produced.filter fun handing => handing.owners.any (· ∈ queue)

theorem handingsOf_append_of_mem (owner : b ∈ handing.owners) (queued : b ∈ queue) :
    handingsOf (produced ++ [handing]) queue = handingsOf produced queue ++ [handing] := by
  have touches : handing.owners.any (· ∈ queue) = true :=
    any_eq_true.mpr ⟨b, owner, decide_eq_true queued⟩
  rw [handingsOf, filter_append, filter_singleton, touches]
  rfl

theorem handingsOf_first {handing : Handing A} (owner : b ∈ handing.owners)
    (untouched : handingsOf produced handing.owners = []) :
    handingsOf (produced ++ [handing]) handing.owners = [handing] := by
  rw [handingsOf_append_of_mem owner owner, untouched]
  rfl

theorem handingsOf_append_of_not_mem (apart : ∀ b ∈ handing.owners, b ∉ queue) :
    handingsOf (produced ++ [handing]) queue = handingsOf produced queue := by
  have untouched : handing.owners.any (· ∈ queue) = false :=
    any_eq_false.mpr fun b owner => by simpa using apart b owner
  rw [handingsOf, filter_append, filter_singleton, untouched]
  exact append_nil _

theorem handingsOf_eq_nil (apart : ∀ handing ∈ produced, ∀ b ∈ handing.owners, b ∉ queue) :
    handingsOf produced queue = [] := by
  refine filter_eq_nil_iff.mpr fun handing listed touches => ?_
  obtain ⟨b, owner, queued⟩ := any_eq_true.mp touches
  exact apart handing listed b owner (of_decide_eq_true queued)

theorem mem_of_mem_handingsOf (listed : handing ∈ handingsOf produced queue) : handing ∈ produced :=
  (mem_filter.mp listed).1

end Handings

/-- Storage has the records of the call from the offset on, after those of the calls merged before it. -/
def Landed (codec : Codec) (program : A → Call) (handing : Handing A) (a : A) (offset : Int) : Prop :=
  handing.topition = (program a).topition ∧ ∃ earlier later base,
    handing.owners = earlier ++ a :: later ∧ handing.result = .ok base ∧
    offset = base + extent (earlier.map fun b => (program b).batch) ∧
    StoredAt codec handing.batch base (program a).batch offset

def Own (batcher : ProduceRequestBatcher) (program : A → Call) (produced : List (Handing A))
    (taken : List (List A)) (a : A) : Except Error Int → Prop
  | .ok offset => ∃ handing ∈ produced, Landed batcher.codec program handing a offset
  | .error error =>
    (∃ handing ∈ produced, a ∈ handing.owners ∧ handing.result = .error error) ∨
      ∃ queue ∈ taken, a ∈ queue ∧ combine batcher.codec (queue.map fun b => (program b).batch) = .error error

theorem Own.mono (own : Own batcher program produced taken a result)
    (more : ∀ handing ∈ produced, handing ∈ produced') (lots : ∀ queue ∈ taken, queue ∈ taken') :
    Own batcher program produced' taken' a result := by
  cases result with
  | ok =>
    obtain ⟨handing, listed, landed⟩ := own
    exact ⟨handing, more handing listed, landed⟩
  | error =>
    rcases own with ⟨handing, listed, rest⟩ | ⟨queue, listed, rest⟩
    · exact .inl ⟨handing, more handing listed, rest⟩
    · exact .inr ⟨queue, lots queue listed, rest⟩

structure AsSent (program : A → Call) (handing : Handing A) (a : A) (result : Except Error Int) : Prop where
  owners : handing.owners = [a]
  batch : handing.batch = (program a).batch
  topition : handing.topition = (program a).topition
  result : handing.result = result

theorem AsSent.own {result : Except Error Int} (asSent : AsSent program handing a result)
    (listed : handing ∈ produced) : Own batcher program produced taken a result := by
  cases result with
  | error =>
    refine .inl ⟨handing, listed, ?_, asSent.result⟩
    rw [asSent.owners]
    exact mem_singleton_self a
  | ok base =>
    refine ⟨handing, listed, asSent.topition, [], [], base, asSent.owners, asSent.result, ?_, .inl ⟨asSent.batch, rfl⟩⟩
    exact (Int.add_zero base).symm

structure Mine (program : A → Call) (flusher : A) (request : BatchRequest A) : Prop where
  batch : request.batch = (program request.id).batch
  topition : (program request.id).topition = (program flusher).topition

theorem batches_eq {requests : List (BatchRequest A)} (mine : ∀ request ∈ requests, Mine program self request) :
    requests.map (·.batch) = (requests.map (·.id)).map fun b => (program b).batch := by
  rw [List.map_map]
  exact map_congr_left fun request member => (mine request member).batch

theorem mem_shares {outcome : Except Error Int} {requests : List (BatchRequest A)}
    (listed : entry ∈ shares outcome cumulative requests) :
    ∃ before request after, requests = before ++ request :: after ∧
      entry = (request.id, outcome.map (· + (cumulative + extent (before.map (·.batch))))) := by
  induction requests generalizing cumulative with
  | nil => cases listed
  | cons first rest ih =>
    rcases mem_cons.mp listed with rfl | later
    · exact ⟨[], first, rest, rfl, by simp [extent]⟩
    · obtain ⟨before, request, after, rfl, rfl⟩ := ih later
      refine ⟨first :: before, request, after, rfl, ?_⟩
      simp only [extent, map_cons, sum_cons, Int.add_assoc]

theorem own_of_share {flush : Flush A} {outcome : Except Error Int}
    (mine : ∀ request ∈ flush.queue, Mine program self request) (listed : handing ∈ produced)
    (owners : handing.owners = flush.owners) (topition : handing.topition = (program self).topition)
    (result : handing.result = outcome) (combined : combine batcher.codec flush.batches = .ok (some handing.batch))
    (share : entry ∈ shares outcome 0 flush.queue) :
    Own batcher program produced taken entry.1 entry.2 := by
  obtain ⟨before, request, after, split, rfl⟩ := mem_shares share
  have own := mine request (split ▸ mem_append_right _ mem_cons_self)
  have order : handing.owners = before.map (·.id) ++ request.id :: after.map (·.id) := by
    rw [owners, Flush.owners, split, map_append, map_cons]
  cases outcome with
  | error =>
    refine .inl ⟨handing, listed, ?_, result⟩
    rw [order]
    exact mem_append_right _ mem_cons_self
  | ok base =>
    have earlier : before.map (·.batch) = (before.map (·.id)).map fun b => (program b).batch :=
      batches_eq fun other member => mine other (split ▸ mem_append_left _ member)
    refine ⟨handing, listed, topition.trans own.topition.symm, before.map (·.id), after.map (·.id), base, order,
      result, ?_, ?_⟩
    · rw [← earlier, Int.zero_add]
    · rw [Flush.batches, split, map_append, map_cons, own.batch] at combined
      rw [Int.zero_add]
      exact storedAt_of_combine combined base

/-- The handings of one queue: the merged batch first if there is one, and batches as they were sent, in the
order of the queue, only if there is none or storage refused it. -/
def InOrder (queue : List A) (handings : List (Handing A)) : Prop :=
  ∃ merged singles, handings = merged ++ singles ∧ (merged = [] ∨ ∃ whole, merged = [whole] ∧ whole.owners = queue ∧
      (singles = [] ∨ retried whole.result = true)) ∧
    singles.map (·.owners) = (queue.take singles.length).map ([·])

/-- `write_each_as_sent` has come this far with the queue. -/
def Wrote (program : A → Call) (queue : List A) (handings : List (Handing A)) (done : ResponsesByOwner A) : Prop :=
  ∃ merged singles, handings = merged ++ singles ∧
    (merged = [] ∨ ∃ whole, merged = [whole] ∧ whole.owners = queue ∧ retried whole.result = true) ∧
    List.Forall₂ (fun single entry => AsSent program single entry.1 entry.2) singles done

theorem Wrote.inOrder {done : ResponsesByOwner A} (wrote : Wrote program (done.map (·.1) ++ left) handings done) :
    InOrder (done.map (·.1) ++ left) handings := by
  obtain ⟨merged, singles, split, first, each⟩ := wrote
  refine ⟨merged, singles, split, ?_, ?_⟩
  · rcases first with none | ⟨whole, one, owners, refused⟩
    · exact .inl none
    · exact .inr ⟨whole, one, owners, .inr refused⟩
  · have length : singles.length = (done.map (·.1)).length := by
      rw [length_map]
      exact each.length_eq
    clear split first length
    induction each with
    | nil => rfl
    | cons here _ ih => rw [map_cons, here.owners, ih]; rfl

variable [DecidableEq A]

def Progress (batcher : ProduceRequestBatcher) (program : A → Call) (produced : List (Handing A))
    (taken : List (List A)) (self : A) : Phase A → Prop
  | .passing none => handingsOf produced [self] = []
  | .passing (some result) => ∃ handing, handingsOf produced [self] = [handing] ∧ AsSent program handing self result
  | .combining flush =>
    (∀ request ∈ flush.queue, Mine program self request) ∧ handingsOf produced flush.owners = []
  | .sending flush merged =>
    (∀ request ∈ flush.queue, Mine program self request) ∧ handingsOf produced flush.owners = [] ∧
      combine batcher.codec flush.batches = .ok (some merged)
  | .sent flush outcome =>
    (∀ request ∈ flush.queue, Mine program self request) ∧ ∃ handing,
      handingsOf produced flush.owners = [handing] ∧ handing.owners = flush.owners ∧
      handing.topition = (program self).topition ∧ handing.result = outcome ∧
      combine batcher.codec flush.batches = .ok (some handing.batch)
  | .writing _ done left =>
    (∀ request ∈ left, Mine program self request) ∧ Wrote program (done.map (·.1) ++ left.map (·.id))
        (handingsOf produced (done.map (·.1) ++ left.map (·.id))) done
  | .responding _ responsesByOwner =>
    ∀ entry ∈ responsesByOwner, Own batcher program produced taken entry.1 entry.2
  | .returned response => Own batcher program produced taken self response
  | _ => True

theorem Progress.mono (progress : Progress batcher program produced taken self phase)
    (same : handingsOf produced' (phase.held self) = handingsOf produced (phase.held self))
    (more : ∀ handing ∈ produced, handing ∈ produced') (lots : ∀ queue ∈ taken, queue ∈ taken') :
    Progress batcher program produced' taken' self phase := by
  cases phase with
  | passing outcome =>
    cases outcome with
    | none => exact same.trans progress
    | some =>
      obtain ⟨handing, one, asSent⟩ := progress
      exact ⟨handing, same.trans one, asSent⟩
  | combining => exact ⟨progress.1, same.trans progress.2⟩
  | sending => exact ⟨progress.1, same.trans progress.2.1, progress.2.2⟩
  | sent =>
    obtain ⟨mine, handing, one, rest⟩ := progress
    exact ⟨mine, handing, same.trans one, rest⟩
  | writing =>
    obtain ⟨mine, wrote⟩ := progress
    refine ⟨mine, ?_⟩
    rw [Phase.held] at same
    rw [same]
    exact wrote
  | responding => exact fun entry listed => (progress entry listed).mono more lots
  | returned => exact Own.mono progress more lots
  | idle | head | flushing next | waiting | dropped => trivial

namespace Progress

variable {flush : Flush A}

theorem ofFlush (mine : ∀ request ∈ flush.queue, Mine program self request)
    (untouched : handingsOf produced flush.owners = []) :
    Progress batcher program produced taken self (.ofFlush flush) := by
  rw [Phase.ofFlush]
  split
  · exact ⟨mine, untouched⟩
  · exact ⟨mine, [], [], untouched, .inl rfl, .nil⟩

theorem ofOutcome (progress : Progress batcher program produced taken self (.sent flush outcome)) :
    Progress batcher program produced taken self (.ofOutcome flush outcome) := by
  obtain ⟨mine, handing, one, owners, topition, result, combined⟩ := progress
  have listed : handing ∈ produced := mem_of_mem_handingsOf (one ▸ mem_singleton_self handing)
  rw [Phase.ofOutcome]
  split
  next refused =>
    rw [← result] at refused
    exact ⟨mine, [handing], [], one, .inr ⟨handing, rfl, owners, refused⟩, .nil⟩
  next => exact fun entry share => own_of_share mine listed owners topition result combined share

theorem ofError (progress : Progress batcher program produced taken self (.combining flush))
    (listed : flush.owners ∈ taken) (failed : combine batcher.codec flush.batches = .error error) :
    Progress batcher program produced taken self (.ofOutcome flush (.error error)) := by
  obtain ⟨mine, untouched⟩ := progress
  rw [Phase.ofOutcome]
  split
  · exact ⟨mine, [], [], untouched, .inl rfl, .nil⟩
  · intro entry share
    obtain ⟨_, _, _, split, rfl⟩ := mem_shares share
    refine .inr ⟨flush.owners, listed, ?_, ?_⟩
    · rw [Flush.owners, split, map_append]
      exact mem_append_right _ mem_cons_self
    · rw [Flush.owners, ← batches_eq mine]
      exact failed

theorem ofCombined (progress : Progress batcher program produced taken self (.combining flush))
    (listed : flush.owners ∈ taken) :
    Progress batcher program produced taken self (.ofCombined flush (combine batcher.codec flush.batches)) := by
  cases combined : combine batcher.codec flush.batches with
  | error => exact progress.ofError listed combined
  | ok merged =>
    cases merged with
    | none => exact absurd combined (combine_ne_none batcher.codec flush)
    | some => exact ⟨progress.1, progress.2, combined⟩

theorem write {next : Next} {done : ResponsesByOwner A} {request : BatchRequest A}
    {left : List (BatchRequest A)} {result : Except Error Int} {transactionId : Option String}
    (progress : Progress batcher program produced taken self (.writing next done (request :: left))) :
    Progress batcher program
      (produced ++ [alone transactionId (program self).topition request.id request.batch result]) taken self
      (.writing next (done ++ [(request.id, result)]) left) := by
  obtain ⟨mine, merged, singles, split, first, each⟩ := progress
  obtain ⟨here, there⟩ := forall_mem_cons.mp mine
  have queue : (done ++ [(request.id, result)]).map (·.1) ++ left.map (·.id) =
      done.map (·.1) ++ (request :: left).map (·.id) := by
    simp only [map_append, map_cons, map_nil, append_assoc, singleton_append]
  refine ⟨there, ?_⟩
  rw [queue]
  refine ⟨merged, singles ++ [alone transactionId (program self).topition request.id request.batch result], ?_,
    first, rel_append each (.cons ?_ .nil)⟩
  · have queued : request.id ∈ done.map (·.1) ++ (request :: left).map (·.id) :=
      mem_append_right _ mem_cons_self
    rw [handingsOf_append_of_mem (mem_singleton_self _) queued, split, append_assoc]
  · exact ⟨rfl, here.batch, here.topition.symm, rfl⟩

theorem written {next : Next} {done : ResponsesByOwner A}
    (progress : Progress batcher program produced taken self (.writing next done [])) :
    Progress batcher program produced taken self (.responding next done) := by
  obtain ⟨_, _, singles, split, _, each⟩ := progress
  have listed : ∀ single ∈ singles, single ∈ produced := by
    intro single member
    exact mem_of_mem_handingsOf (split ▸ mem_append_right _ member)
  exact forall_mem_of_forall₂ each fun single member entry asSent => asSent.own (listed single member)

end Progress

def Handing.Before (earlier later : Handing A) : Prop :=
  earlier.topition = later.topition → ∀ start base, earlier.result = .ok start → later.result = .ok base →
    start + (earlier.batch.lastOffsetDelta.toInt + 1) ≤ base

structure Sound (batcher : ProduceRequestBatcher) (program : A → Call) (s : State A) : Prop where
  custody : Custody s
  requests : ∀ key, ∀ request ∈ s.requests key,
    request.batch = (program request.id).batch ∧ (program request.id).key = key
  phases : ∀ c, Progress batcher program s.produced s.taken c (s.phase c)
  responses : ∀ c result, s.responses c = some (.response result) → Own batcher program s.produced s.taken c result
  ordered : ∀ queue ∈ s.taken, InOrder queue (handingsOf s.produced queue)
  owned : ∀ handing ∈ s.produced, ∀ b ∈ handing.owners, ∃ queue ∈ s.taken, b ∈ queue
  apart : s.produced.Pairwise Handing.Before

namespace Sound

variable {phase : Phase A}

variable (sound : Sound batcher program s)

include sound

theorem setPhase (custody : Custody (s.setPhase a phase))
    (progress : Progress batcher program s.produced s.taken a phase) :
    Sound batcher program (s.setPhase a phase) :=
  { sound with
    custody
    phases := (forall_update_iff s.phase (Progress batcher program s.produced s.taken)).mpr
      ⟨progress, fun c _ => sound.phases c⟩ }

theorem produce (custody : Custody ((s.produce handing).setPhase a phase)) (owner : ∃ b, b ∈ handing.owners)
    (owners : ∀ b ∈ handing.owners, b ∈ s.pool.held a) (appends : Appends s.produced handing.topition handing.result)
    (progress : Progress batcher program (s.produced ++ [handing]) s.taken a phase)
    (inOrder : InOrder (s.pool.held a) (handingsOf (s.produced ++ [handing]) (s.pool.held a))) :
    Sound batcher program ((s.produce handing).setPhase a phase) where
  custody := custody
  requests := sound.requests
  phases := by
    refine (forall_update_iff s.phase (Progress batcher program (s.produced ++ [handing]) s.taken)).mpr
      ⟨progress, fun c other => ?_⟩
    refine (sound.phases c).mono ?_ (fun _ listed => mem_append_left _ listed) fun _ listed => listed
    refine handingsOf_append_of_not_mem fun b mine his => ?_
    exact other (sound.custody.exclusive.holders his (owners b mine))
  responses := fun c result ready =>
    (sound.responses c result ready).mono (fun _ listed => mem_append_left _ listed) fun _ listed => listed
  ordered := by
    intro queue listed
    by_cases same : queue = s.pool.held a
    · rw [same]
      exact inOrder
    · have untouched : handingsOf (s.produced ++ [handing]) queue = handingsOf s.produced queue :=
        handingsOf_append_of_not_mem fun b mine =>
          sound.custody.exclusive.not_mem_lot listed same (owners b mine)
      change InOrder queue (handingsOf (s.produced ++ [handing]) queue)
      rw [untouched]
      exact sound.ordered queue listed
  owned := by
    intro other listed b mine
    rcases Log.mem_concat.mp listed with before | rfl
    · exact sound.owned other before b mine
    · have held := owners b mine
      exact ⟨_, sound.custody.exclusive.holds held, held⟩
  apart := Log.pairwise_concat.mpr ⟨sound.apart, fun earlier listed same start base first second =>
    appends base second earlier listed same start first⟩

theorem noteTaken {requests : TopitionProducerId → List (BatchRequest A)}
    (custody : Custody (({ s with requests } : State A).noteTaken queue |>.setPhase a phase))
    (fewer : ∀ key, ∀ request ∈ requests key, request ∈ s.requests key) (untouched : handingsOf s.produced queue = [])
    (progress : Progress batcher program s.produced (s.taken ++ [queue]) a phase) :
    Sound batcher program (({ s with requests } : State A).noteTaken queue |>.setPhase a phase) where
  custody := custody
  requests := fun key request listed => sound.requests key request (fewer key request listed)
  phases := by
    refine (forall_update_iff s.phase (Progress batcher program s.produced (s.taken ++ [queue]))).mpr
      ⟨progress, fun c other => ?_⟩
    exact (sound.phases c).mono rfl (fun _ listed => listed) fun _ listed => mem_append_left _ listed
  responses := fun c result ready =>
    (sound.responses c result ready).mono (fun _ listed => listed) fun _ listed => mem_append_left _ listed
  ordered := by
    intro other listed
    rcases Log.mem_concat.mp listed with before | rfl
    · exact sound.ordered other before
    · refine ⟨[], [], untouched, .inl rfl, rfl⟩
  owned := by
    intro handing listed b mine
    obtain ⟨other, taken, queued⟩ := sound.owned handing listed b mine
    exact ⟨other, mem_append_left _ taken, queued⟩
  apart := sound.apart

theorem untouched_of_not_taken (apart : ∀ b ∈ queue, ∀ lot ∈ s.taken, b ∉ lot) : handingsOf s.produced queue = [] := by
  refine handingsOf_eq_nil fun handing listed b mine queued => ?_
  obtain ⟨lot, taken, found⟩ := sound.owned handing listed b mine
  exact apart b queued lot taken found

theorem respond {responsesByOwner : ResponsesByOwner A}
    (own : ∀ entry ∈ responsesByOwner, Own batcher program s.produced s.taken entry.1 entry.2) :
    ∀ c result, (s.respond responsesByOwner).responses c = some (.response result) →
      Own batcher program s.produced s.taken c result := by
  have general : ∀ responses : A → Option BatchResponse,
      (∀ c result, responses c = some (.response result) → Own batcher program s.produced s.taken c result) →
      ∀ c result, (({ s with responses }).respond responsesByOwner).responses c =
        some (.response result) → Own batcher program s.produced s.taken c result := by
    induction responsesByOwner with
    | nil => exact fun responses given => given
    | cons entry _ ih =>
      intro responses given
      obtain ⟨here, there⟩ := forall_mem_cons.mp own
      refine ih there (update responses entry.1 (some (.response entry.2))) fun c result ready => ?_
      by_cases mine : c = entry.1
      · subst mine
        rw [update_self] at ready
        cases ready
        exact here
      · rw [update_of_ne mine] at ready
        exact given c result ready
  exact general s.responses sound.responses

theorem own_setResponse (clear : ∀ result, response ≠ some (.response result))
    (ready : (s.setResponse a response).responses c = some (.response result)) :
    Own batcher program s.produced s.taken c result := by
  refine sound.responses c result ?_
  by_cases mine : c = a
  · subst mine
    exact absurd ((update_self ..).symm.trans ready) (clear result)
  · exact (update_of_ne mine _ _).symm.trans ready

theorem progress (at_ : s.phase a = phase) : Progress batcher program s.produced s.taken a phase :=
  at_ ▸ sound.phases a

theorem custody_step (step : Step batcher program s action t) : Custody t :=
  sound.custody.step step

theorem passed (at_ : s.phase a = .passing none) (appends : Appends s.produced (program a).topition result) :
    Sound batcher program ((s.produce (alone (program a).transactionId (program a).topition a (program a).batch
      result)).setPhase a (.passing (some result))) := by
  have held : s.pool.held a = [a] := by simp only [State.pool, at_, Phase.held]
  have one : handingsOf (s.produced ++
      [alone (program a).transactionId (program a).topition a (program a).batch result]) [a] = _ :=
    handingsOf_first (mem_singleton_self a) (sound.progress at_)
  refine sound.produce (sound.custody_step (.passed at_ appends)) ⟨a, mem_singleton_self a⟩ ?_ appends
    ⟨_, one, rfl, rfl, rfl, rfl⟩ ?_
  · rw [held]
    exact fun b mine => mine
  · rw [held, one]
    exact ⟨[], _, rfl, .inl rfl, rfl⟩

theorem enqueue (custody : Custody ((s.setRequests (program a).key queued).setPhase a .head))
    (added : queued = s.requests (program a).key ++ [{ id := a, batch := (program a).batch }]) :
    Sound batcher program ((s.setRequests (program a).key queued).setPhase a .head) := by
  refine { sound with custody, requests := ?_, phases := ?_ }
  · intro key request listed
    simp only [State.setPhase, State.setRequests] at listed
    by_cases mine : key = (program a).key
    · subst mine
      rw [update_self, added] at listed
      rcases Log.mem_concat.mp listed with before | rfl
      · exact sound.requests _ request before
      · exact ⟨rfl, rfl⟩
    · rw [update_of_ne mine] at listed
      exact sound.requests key request listed
  · exact (forall_update_iff s.phase (Progress batcher program s.produced s.taken)).mpr
      ⟨trivial, fun c _ => sound.phases c⟩

theorem take {flush : Flush A} (at_ : s.phase a = .flushing flush.next)
    (found : s.requests (program a).key = flush.queue) : Sound batcher program
      (((s.setRequests (program a).key []).noteTaken flush.owners).setPhase a (.ofFlush flush)) := by
  have untouched : handingsOf s.produced flush.owners = [] := by
    refine sound.untouched_of_not_taken fun b mine lot taken => ?_
    have waits : b ∈ s.pool.queue (program a).key := by
      simp only [State.pool, found]
      exact mine
    exact sound.custody.exclusive.untaken waits taken
  have mine : ∀ request ∈ flush.queue, Mine program a request := by
    intro request listed
    obtain ⟨batch, key⟩ := sound.requests (program a).key request (found ▸ listed)
    exact ⟨batch, congrArg TopitionProducerId.topition key⟩
  refine sound.noteTaken (sound.custody_step (.take flush at_ found)) (fun key request listed => ?_) untouched
    (.ofFlush mine untouched)
  by_cases same : key = (program a).key
  · rw [same, update_self] at listed
    cases listed
  · rw [update_of_ne same] at listed
    exact listed

theorem send {flush : Flush A} (at_ : s.phase a = .sending flush merged)
    (appends : Appends s.produced (program a).topition result) : Sound batcher program
      ((s.produce (together (program a) flush merged result)).setPhase a (.sent flush result)) := by
  obtain ⟨mine, untouched, combined⟩ := sound.progress at_
  have held : s.pool.held a = flush.owners := by simp only [State.pool, at_, Phase.held]
  obtain ⟨request, listed⟩ := exists_mem_of_ne_nil _ flush.taken
  have owner : request.id ∈ flush.owners := mem_map_of_mem listed
  have one : handingsOf (s.produced ++ [together (program a) flush merged result]) flush.owners = _ :=
    handingsOf_first owner untouched
  refine sound.produce (sound.custody_step (.send at_ appends)) ⟨request.id, owner⟩ ?_ appends
    ⟨mine, _, one, rfl, rfl, rfl, combined⟩ ?_
  · rw [held]
    exact fun b mine => mine
  · rw [held, one]
    exact ⟨[_], [], rfl, .inr ⟨_, rfl, rfl, .inl rfl⟩, rfl⟩

theorem write {next : Next} (at_ : s.phase a = .writing next done (request :: left))
    (appends : Appends s.produced (program a).topition result) : Sound batcher program
      ((s.produce (alone (program a).transactionId (program a).topition request.id request.batch result)).setPhase a
        (.writing next (done ++ [(request.id, result)]) left)) := by
  have held : s.pool.held a = done.map (·.1) ++ (request :: left).map (·.id) := by
    simp only [State.pool, at_, Phase.held]
  have after : Progress batcher program
      (s.produced ++ [alone (program a).transactionId (program a).topition request.id request.batch result])
      s.taken a (.writing next (done ++ [(request.id, result)]) left) := (sound.progress at_).write
  refine sound.produce (sound.custody_step (.write at_ appends)) ⟨request.id, mem_singleton_self _⟩ ?_ appends
    after ?_
  · intro b mine
    rw [mem_singleton.mp mine, held]
    exact mem_append_right _ mem_cons_self
  · have inOrder := after.2.inOrder
    have queue : (done ++ [(request.id, result)]).map (·.1) ++ left.map (·.id) = s.pool.held a := by
      rw [held]
      simp only [map_append, map_cons, map_nil, append_assoc, singleton_append]
    rw [queue] at inOrder
    exact inOrder

theorem step (step : Step batcher program s action t) : Sound batcher program t := by
  have custody := sound.custody_step step
  cases step with
  | @pass a at_ =>
    have fresh := sound.custody.fresh a at_
    have untouched : handingsOf s.produced [a] = [] := by
      refine sound.untouched_of_not_taken fun b mine lot taken => ?_
      rw [mem_singleton.mp mine]
      exact fresh.taken lot taken
    exact sound.noteTaken custody (fun _ _ listed => listed) untouched untouched
  | passed at_ appends => exact sound.passed at_ appends
  | passOn at_ =>
    obtain ⟨handing, one, asSent⟩ := sound.progress at_
    exact sound.setPhase custody (asSent.own (mem_of_mem_handingsOf (one ▸ mem_singleton_self handing)))
  | enqueue => exact sound.enqueue custody rfl
  | measure =>
    refine sound.setPhase custody ?_
    rw [Phase.ofQueue]
    split <;> trivial
  | expire | drop => exact sound.setPhase custody trivial
  | @takeNothing a next at_ empty =>
    refine sound.setPhase custody ?_
    cases next <;> trivial
  | take flush at_ found => exact sound.take at_ found
  | @combined a flush at_ =>
    have held : s.pool.held a = flush.owners := by simp only [State.pool, at_, Phase.held]
    obtain ⟨request, listed⟩ := exists_mem_of_ne_nil _ flush.taken
    have owner : request.id ∈ s.pool.held a := by
      rw [held]
      exact mem_map_of_mem listed
    exact sound.setPhase custody ((sound.progress at_).ofCombined (held ▸ sound.custody.exclusive.holds owner))
  | send at_ appends => exact sound.send at_ appends
  | sent at_ => exact sound.setPhase custody (sound.progress at_).ofOutcome
  | write at_ appends => exact sound.write at_ appends
  | written at_ => exact sound.setPhase custody (sound.progress at_).written
  | @respond a next responsesByOwner at_ =>
    refine { sound with custody, phases := ?_, responses := sound.respond (sound.progress at_) }
    refine (forall_update_iff s.phase (Progress batcher program s.produced s.taken)).mpr
      ⟨?_, fun c _ => sound.phases c⟩
    cases next <;> trivial
  | @pollReady a result at_ ready =>
    refine { sound with custody, phases := ?_, responses := fun _ _ => sound.own_setResponse ?_ }
    · exact (forall_update_iff s.phase (Progress batcher program s.produced s.taken)).mpr
        ⟨sound.responses a result ready, fun c _ => sound.phases c⟩
    · rintro _ ⟨⟩
  | pollPending =>
    refine { sound with custody, responses := fun _ _ => sound.own_setResponse ?_ }
    rintro _ ⟨⟩

end Sound

theorem sound_of_reachable (reached : (machine batcher program).Reachable s) : Sound batcher program s := by
  refine reached.invariant ?_ fun s a t sound step => sound.step step
  rintro _ rfl
  have start : (machine batcher program).Reachable .start := .init rfl
  exact
    { custody := custody_of_reachable start
      requests := fun _ _ none => absurd none not_mem_nil
      phases := fun _ => trivial
      responses := fun _ _ none => nomatch none
      ordered := fun _ none => absurd none not_mem_nil
      owned := fun _ none => absurd none not_mem_nil
      apart := .nil }

/-- A batch is handed to storage once, or once more on its own after storage refused the merged batch. -/
def HandedOnce (a : A) (handings : List (Handing A)) : Prop :=
  handings.length ≤ 1 ∨ ∃ merged single, handings = [merged, single] ∧ retried merged.result = true ∧
    single.owners = [a]

theorem filter_singles {singles : List (Handing A)} (owners : singles.map (·.owners) = queue.map ([·]))
    (nodup : queue.Nodup) (a : A) : singles.filter (a ∈ ·.owners) = [] ∨
      ∃ single, singles.filter (a ∈ ·.owners) = [single] ∧ single.owners = [a] := by
  induction singles generalizing queue with
  | nil => exact .inl rfl
  | cons single rest ih =>
    cases queue with
    | nil => cases owners
    | cons first others =>
      obtain ⟨here, there⟩ := cons.inj owners
      obtain ⟨apart, nodup⟩ := nodup_cons.mp nodup
      by_cases mine : a = first
      · subst mine
        have none : rest.filter (a ∈ ·.owners) = [] := by
          refine filter_eq_nil_iff.mpr fun other listed owner => apart ?_
          have member : other.owners ∈ others.map ([·]) := there ▸ mem_map_of_mem listed
          obtain ⟨_, found, same⟩ := mem_map.mp member
          rw [← same] at owner
          exact mem_singleton.mp (of_decide_eq_true owner) ▸ found
        right
        refine ⟨single, ?_, here⟩
        rw [filter_cons_of_pos (by simp [here]), none]
      · rw [filter_cons_of_neg (by simp [here, mine])]
        exact ih there nodup

theorem InOrder.handedOnce (inOrder : InOrder queue handings)
    (nodup : queue.Nodup) (queued : a ∈ queue) : HandedOnce a (handings.filter (a ∈ ·.owners)) := by
  obtain ⟨_, _, rfl, first, owners⟩ := inOrder
  have few := filter_singles owners (nodup.sublist (take_sublist ..)) a
  rw [filter_append]
  rcases first with rfl | ⟨whole, rfl, all, refused⟩
  · left
    rcases few with none | ⟨_, one, _⟩
    · rw [none]
      exact Nat.zero_le 1
    · rw [one]
      exact Nat.le_refl 1
  · have kept : [whole].filter (a ∈ ·.owners) = [whole] := by
      rw [filter_cons_of_pos (by simpa [all] using queued), filter_nil]
    rw [kept]
    rcases few with none | ⟨single, one, alone⟩
    · left
      rw [none]
      exact Nat.le_refl 1
    · right
      refine ⟨whole, single, ?_, refused.resolve_left ?_, alone⟩
      · rw [one]
        rfl
      · rintro rfl
        cases one

/-- What a batcher has told its callers, and what it has handed to storage. -/
structure Truthful (batcher : ProduceRequestBatcher) (program : A → Call) (s : State A) : Prop where
  /-- A call that returned an offset has its records stored from there on. -/
  stored : ∀ a offset, s.phase a = .returned (.ok offset) →
    ∃ handing ∈ s.produced, Landed batcher.codec program handing a offset
  /-- A call that returned an error returned what became of its own batch. -/
  failed : ∀ a error, s.phase a = .returned (.error error) →
    (∃ handing ∈ s.produced, a ∈ handing.owners ∧ handing.result = .error error) ∨
      ∃ queue ∈ s.taken, a ∈ queue ∧ combine batcher.codec (queue.map fun b => (program b).batch) = .error error
  once : ∀ a, HandedOnce a (s.produced.filter (a ∈ ·.owners))
  /-- The batches that one flush took are stored in the order that they were queued. -/
  ordered : ∀ queue ∈ s.taken, InOrder queue (handingsOf s.produced queue)
  apart : s.produced.Pairwise Handing.Before

/-- In every interleaving the batcher answers each producer truthfully. -/
theorem producers_are_answered_truthfully (reached : (machine batcher program).Reachable s) :
    Truthful batcher program s := by
  have sound := sound_of_reachable reached
  refine ⟨fun a offset returned => ?_, fun a error returned => ?_, fun a => ?_, sound.ordered, sound.apart⟩
  · have own := sound.phases a
    rw [returned] at own
    exact own
  · have own := sound.phases a
    rw [returned] at own
    exact own
  · by_cases taken : ∃ queue ∈ s.taken, a ∈ queue
    · obtain ⟨queue, listed, queued⟩ := taken
      have once := (sound.ordered queue listed).handedOnce (sound.custody.exclusive.takenOnce queue listed) queued
      have same : (handingsOf s.produced queue).filter (a ∈ ·.owners) = s.produced.filter (a ∈ ·.owners) := by
        rw [handingsOf, List.filter_filter]
        refine filter_congr fun handing _ => ?_
        by_cases owner : a ∈ handing.owners
        · have touches : handing.owners.any (· ∈ queue) = true :=
            any_eq_true.mpr ⟨a, owner, decide_eq_true queued⟩
          rw [touches, Bool.and_true]
        · simp [owner]
      rw [same] at once
      exact once
    · left
      have none : s.produced.filter (a ∈ ·.owners) = [] := by
        refine filter_eq_nil_iff.mpr fun handing listed owner => taken ?_
        exact sound.owned handing listed a (of_decide_eq_true owner)
      rw [none]
      exact Nat.zero_le 1

theorem sending_reachable : (machine patientBatcher fun _ => orders).Reachable
    (oneCombines.setPhase false (.sending bothQueued twoRecords)) := by
  have combining : (machine patientBatcher fun _ => orders).Reachable oneCombines :=
    oneCombines_reachable fun s a => ⟨trivial, trivial, trivial⟩
  have combined := combining.step (.combined (a := false) rfl)
  have merged : combine patientBatcher.codec bothQueued.batches = .ok (some twoRecords) := combine_emptyRecord
  rw [merged] at combined
  exact combined

/-- Both batches are stored as one, and the second call is told where its own record is. -/
theorem producers_are_answered_truthfully_merged :
    ∃ s, (machine patientBatcher fun _ => orders).Reachable s ∧ s.phase true = .returned (.ok 101) ∧
      Truthful patientBatcher (fun _ => orders) s := by
  have first : Appends (oneCombines.setPhase false (.sending bothQueued twoRecords)).produced orders.topition
      (.ok 100) := fun _ _ _ none => nomatch none
  have stored := sending_reachable.step (.send (a := false) rfl first)
  have answered := stored.step (.sent (a := false) rfl)
  have responded := answered.step (.respond (a := false) rfl)
  have ready := responded.step (.pollReady (a := true) rfl rfl)
  exact ⟨_, ready, rfl, producers_are_answered_truthfully ready⟩

/-- Storage refuses the merged batch as too large, and the first batch is handed to it again. -/
theorem batch_is_handed_twice : ∃ s, (machine patientBatcher fun _ => orders).Reachable s ∧
      ¬(s.produced.filter (false ∈ ·.owners)).length ≤ 1 := by
  have first : Appends (oneCombines.setPhase false (.sending bothQueued twoRecords)).produced orders.topition
      (.error (.messageTooLarge 200 100)) := fun _ no => nomatch no
  have refused := sending_reachable.step (.send (a := false) rfl first)
  have written := refused.step (.sent (a := false) rfl)
  have second : Appends [together orders bothQueued twoRecords (.error (.messageTooLarge 200 100))]
      orders.topition (.ok 0) := by
    intro base _ earlier listed _ start ok
    rw [mem_singleton.mp listed] at ok
    cases ok
  have again := written.step (.write (a := false) rfl second)
  exact ⟨_, again, by decide⟩

end Nisshi.Storage.Batcher
