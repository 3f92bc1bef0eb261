import Nisshi.Storage.Batcher

/-! Where the requests of a batcher are: in a queue, with the call that flushes them, or answered. -/

namespace Nisshi.Storage.Batcher

open Nisshi.SansIo Nisshi.Lib Function

variable {A : Type} {batcher : ProduceRequestBatcher} {program : A → Call} {s t : State A}
  {action : Action A} {a b : A}

theorem shares_owners (outcome : Except Error Int) (cumulative : Int) (queue : List (BatchRequest A)) :
    (shares outcome cumulative queue).map (·.1) = queue.map (·.id) := by
  induction queue generalizing cumulative with
  | nil => rfl
  | cons _ _ ih => rw [shares, List.map_cons, ih, List.map_cons]

namespace Phase

theorem held_ofQueue (self : A) (queue : List (BatchRequest A)) : (ofQueue batcher queue).held self = [] := by
  rw [ofQueue]
  split <;> rfl

theorem held_ofFlush (self : A) (flush : Flush A) : (ofFlush flush).held self = flush.owners := by
  rw [ofFlush]
  split <;> rfl

theorem held_ofOutcome (self : A) (flush : Flush A) (outcome : Except Error Int) :
    (ofOutcome flush outcome).held self = flush.owners := by
  rw [ofOutcome]
  split
  · rfl
  · exact shares_owners outcome 0 flush.queue

end Phase

theorem combine_ne_none (codec : Codec) (flush : Flush A) : combine codec flush.batches ≠ .ok none := by
  obtain ⟨_, queue, taken⟩ := flush
  cases queue with
  | nil => exact absurd rfl taken
  | cons =>
    intro none
    rw [Flush.batches, List.map_cons, combine] at none
    split at none
    · cases none
    · obtain ⟨_, _, none⟩ := bind_eq_ok_iff.mp none
      obtain ⟨_, _, none⟩ := bind_eq_ok_iff.mp none
      split at none
      · cases none
      · split at none <;> cases none

theorem held_ofCombined (codec : Codec) (self : A) (flush : Flush A) :
    (Phase.ofCombined flush (combine codec flush.batches)).held self = flush.owners := by
  have some_ := combine_ne_none codec flush
  generalize combine codec flush.batches = combined at some_
  cases combined with
  | error error => exact Phase.held_ofOutcome self flush (.error error)
  | ok merged =>
    cases merged with
    | none => exact absurd rfl some_
    | some => rfl

variable [DecidableEq A]

namespace State

theorem pool_setPhase (s : State A) (a : A) (phase : Phase A) :
    (s.setPhase a phase).pool = { s.pool with held := Function.update s.pool.held a (phase.held a) } := by
  have held : (fun c => ((s.setPhase a phase).phase c).held c) = update s.pool.held a (phase.held a) := by
    funext c
    by_cases mine : c = a
    · subst mine
      simp only [setPhase, update_self]
    · simp only [setPhase, update_of_ne mine, pool]
  simp only [pool, held]
  rfl

theorem pool_setPhase_same (phase : Phase A) (same : phase.held a = (s.phase a).held a) :
    (s.setPhase a phase).pool = s.pool := by
  have held : update s.pool.held a ((s.phase a).held a) = s.pool.held := update_eq_self a s.pool.held
  rw [pool_setPhase, same, held]

theorem pool_setPhase_none (phase : Phase A) (none : phase.held a = []) :
    (s.setPhase a phase).pool = s.pool.release a := by
  rw [pool_setPhase, none]
  rfl

omit [DecidableEq A] in
theorem pool_setRequests (s : State A) (key : TopitionProducerId) (queue : List (BatchRequest A)) :
    (s.setRequests key queue).pool = { s.pool with queue := Function.update s.pool.queue key (queue.map (·.id)) } := by
  have queues : (fun other => ((s.setRequests key queue).requests other).map (·.id)) =
      update s.pool.queue key (queue.map (·.id)) := by
    funext other
    by_cases mine : other = key
    · subst mine
      simp only [setRequests, update_self]
    · simp only [setRequests, update_of_ne mine, pool]
  simp only [pool, queues]
  rfl

omit [DecidableEq A] in
theorem pool_noteTaken (s : State A) (owners : List A) :
    (s.noteTaken owners).pool = { s.pool with taken := s.pool.taken ++ [owners] } := rfl

end State

inductive Effect (s : State A) (action : Action A) (t : State A) : Prop where
  | kept (pool : t.pool = s.pool)
  | queued {a : A} (key : TopitionProducerId) (at_ : s.phase a = .idle) (called : t.phase a = .head)
      (pool : t.pool = s.pool.put key a)
  | drawn {a : A} (at_ : s.phase a = .idle) (called : t.phase a = .passing none) (pool : t.pool = s.pool.draw a a)
  | taken (a : A) (key : TopitionProducerId) (free : s.pool.held a = []) (pool : t.pool = s.pool.take key a)
  | returned {a : A} {response : Except Error Int} (own : s.pool.held a = [a])
      (after : t.phase a = .returned response) (pool : t.pool = s.pool.release a)
  | answered {a : A} {responsesByOwner : ResponsesByOwner A}
      (had : s.pool.held a = responsesByOwner.map (·.1))
      (responses : t.responses = (s.respond responsesByOwner).responses) (pool : t.pool = s.pool.release a)
  | dropped {a : A} (action_ : action = .drop a) (after : t.phase a = .dropped)
      (pool : t.pool = s.pool.release a)

theorem Step.effect (step : Step batcher program s action t) : Effect s action t := by
  cases step with
  | @pass a at_ =>
    refine .drawn at_ (update_self ..) ?_
    rw [State.pool_setPhase]
    rfl
  | passed at_ | send at_ => exact .kept (State.pool_setPhase_same _ (by rw [State.produce, at_]; rfl))
  | @passOn a result at_ =>
    refine .returned ?_ (update_self ..) (State.pool_setPhase_none _ rfl)
    simp only [State.pool, at_, Phase.held]
  | @enqueue a at_ =>
    refine .queued (program a).key at_ (update_self ..) ?_
    rw [State.pool_setPhase_same, State.pool_setRequests, List.map_append]
    · rfl
    · rw [State.setRequests, at_]
      rfl
  | measure at_ =>
    exact .kept (State.pool_setPhase_same _ (by rw [Phase.held_ofQueue, at_]; rfl))
  | expire at_ => exact .kept (State.pool_setPhase_same _ (by rw [at_]; rfl))
  | takeNothing at_ => exact .kept (State.pool_setPhase_same _ (by rw [at_, Phase.held_next]; rfl))
  | @take a flush at_ found =>
    have queue : s.pool.queue (program a).key = flush.owners := by
      simp only [State.pool, found, Flush.owners]
    refine .taken a (program a).key ?_ ?_
    · simp only [State.pool, at_, Phase.held]
    · rw [State.pool_setPhase, State.pool_noteTaken, State.pool_setRequests, Phase.held_ofFlush, Pool.take, queue]
      rfl
  | combined at_ => exact .kept (State.pool_setPhase_same _ (by rw [held_ofCombined, at_]; rfl))
  | sent at_ => exact .kept (State.pool_setPhase_same _ (by rw [Phase.held_ofOutcome, at_]; rfl))
  | write at_ =>
    refine .kept (State.pool_setPhase_same _ ?_)
    rw [State.produce, at_]
    simp only [Phase.held, List.map_append, List.map_cons, List.map_nil, List.append_assoc, List.singleton_append]
  | written at_ =>
    refine .kept (State.pool_setPhase_same _ ?_)
    rw [at_]
    simp only [Phase.held, List.map_nil, List.append_nil]
  | @respond a next responsesByOwner at_ =>
    refine .answered ?_ rfl (State.pool_setPhase_none _ (Phase.held_next _ _))
    simp only [State.pool, at_, Phase.held]
  | pollReady at_ => exact .kept (State.pool_setPhase_same _ (by rw [State.setResponse, at_]; rfl))
  | pollPending => exact .kept rfl
  | drop => exact .dropped rfl (update_self ..) (State.pool_setPhase_none _ rfl)

def Phase.running : Phase A → Bool
  | .idle | .returned _ | .dropped => false
  | _ => true

theorem Step.others (step : Step batcher program s action t) (other : b ≠ action.actor) : t.phase b = s.phase b := by
  cases step <;> first | rfl | exact update_of_ne other _ _

theorem Step.actor_running (step : Step batcher program s action t) :
    (s.phase action.actor).running = true ∨ s.phase action.actor = .idle := by
  cases step with
  | pass at_ | enqueue at_ => exact .inr at_
  | drop at_ =>
    left
    simp only [Action.actor]
    revert at_
    cases s.phase _ <;> simp [Phase.awaits, Phase.running]
  | passed at_ | passOn at_ | measure at_ | expire at_ | takeNothing at_ | take flush at_ | combined at_ | send at_
  | sent at_ | write at_ | written at_ | respond at_ | pollReady at_ | pollPending at_ =>
    left
    simp only [Action.actor, at_, Phase.running]

theorem Step.running (step : Step batcher program s action t) (running : (t.phase b).running = true) :
    (s.phase b).running = true ∨ s.phase b = .idle := by
  by_cases mine : b = action.actor
  · rw [mine]
    exact step.actor_running
  · rw [step.others mine] at running
    exact .inl running

namespace Phase

/-! A call that has started is not idle again. -/

omit [DecidableEq A]

theorem next_ne_idle (next : Next) : (next.phase : Phase A) ≠ .idle := by
  cases next <;> nofun

theorem ofQueue_ne_idle (queue : List (BatchRequest A)) : ofQueue batcher queue ≠ .idle := by
  rw [ofQueue]
  split <;> nofun

theorem ofFlush_ne_idle (flush : Flush A) : ofFlush flush ≠ .idle := by
  rw [ofFlush]
  split <;> nofun

theorem ofOutcome_ne_idle (flush : Flush A) (outcome : Except Error Int) : ofOutcome flush outcome ≠ .idle := by
  rw [ofOutcome]
  split <;> nofun

theorem ofCombined_ne_idle (flush : Flush A) (combined : Except Error (Option Deflated.Batch)) :
    ofCombined flush combined ≠ .idle := by
  rcases combined with _ | _ | _
  · exact ofOutcome_ne_idle flush _
  · exact next_ne_idle flush.next
  · nofun

end Phase

theorem Step.actor_called (step : Step batcher program s action t) : t.phase action.actor ≠ .idle := by
  have moved (a : A) (phase : Phase A) : (update s.phase a phase) a = phase := update_self ..
  cases step with
  | pollPending at_ =>
    intro idle
    rw [Action.actor, State.setResponse, at_] at idle
    cases idle
  | measure => exact (moved _ _).trans_ne (Phase.ofQueue_ne_idle _)
  | takeNothing | respond => exact (moved _ _).trans_ne (Phase.next_ne_idle _)
  | take => exact (moved _ _).trans_ne (Phase.ofFlush_ne_idle _)
  | combined => exact (moved _ _).trans_ne (Phase.ofCombined_ne_idle _ _)
  | sent => exact (moved _ _).trans_ne (Phase.ofOutcome_ne_idle _ _)
  | pass | passed | passOn | enqueue | expire | send | write | written | pollReady | drop =>
    exact (moved _ _).trans_ne nofun

theorem Step.idle (step : Step batcher program s action t) (idle : t.phase b = .idle) : s.phase b = .idle := by
  have other : b ≠ action.actor := by
    rintro rfl
    exact step.actor_called idle
  rw [← step.others other]
  exact idle

structure Custody (s : State A) : Prop where
  exclusive : s.pool.Exclusive
  fresh : ∀ a, s.phase a = .idle → s.pool.Fresh a

theorem Effect.moves (effect : Effect s action t) (custody : Custody s) : s.pool.Moves t.pool := by
  cases effect with
  | kept pool => exact pool ▸ .keep
  | queued key at_ _ pool => exact pool ▸ .put key _ (custody.fresh _ at_)
  | @drawn a at_ called pool =>
    have free : s.pool.held a = [] := by simp only [State.pool, at_, Phase.held]
    exact pool ▸ .draw a a free (custody.fresh a at_)
  | taken a key free pool => exact pool ▸ .take key a free
  | returned _ _ pool | answered _ _ pool | dropped _ _ pool => exact pool ▸ .release _

theorem Custody.step (custody : Custody s) (step : Step batcher program s action t) : Custody t where
  exclusive := custody.exclusive.moves (step.effect.moves custody)
  fresh := by
    intro b idle
    have fresh := custody.fresh b (step.idle idle)
    have other {a : A} {phase : Phase A} (called : t.phase a = phase) (started : phase ≠ .idle) : b ≠ a := by
      rintro rfl
      exact started (called.symm.trans idle)
    cases step.effect with
    | kept pool => exact pool ▸ fresh
    | queued _ _ called pool => exact pool ▸ fresh.put (other called nofun)
    | drawn _ called pool => exact pool ▸ fresh.draw (other called nofun)
    | taken _ _ _ pool => exact pool ▸ fresh.take
    | returned _ _ pool | answered _ _ pool | dropped _ _ pool => exact pool ▸ fresh.release

theorem custody_of_reachable (reached : (machine batcher program).Reachable s) : Custody s := by
  refine reached.invariant ?_ fun s a t custody step => custody.step step
  rintro _ rfl
  exact ⟨Pool.exclusive_empty, fun a _ => ⟨fun _ => List.not_mem_nil, fun _ none => absurd none List.not_mem_nil⟩⟩

theorem State.response_respond (had : (∃ result, s.responses b = some (.response result)) ∨
      b ∈ responsesByOwner.map (·.1)) :
    ∃ result, (s.respond responsesByOwner).responses b = some (.response result) := by
  induction responsesByOwner generalizing s with
  | nil => exact had.resolve_right List.not_mem_nil
  | cons entry rest ih =>
    obtain ⟨owner, result⟩ := entry
    have next : (s.setResponse owner (some (.response result))).respond rest =
        s.respond ((owner, result) :: rest) := rfl
    rw [← next]
    apply ih
    by_cases mine : b = owner
    · subst mine
      exact .inl ⟨result, update_self ..⟩
    · rcases had with ⟨old, found⟩ | listed
      · exact .inl ⟨old, (update_of_ne mine _ _).trans found⟩
      · exact .inr ((List.mem_cons.mp listed).resolve_left mine)

theorem Step.response_kept (step : Step batcher program s action t) (ready : s.responses b = some (.response result))
    (running : (t.phase b).running = true) :
    ∃ result, t.responses b = some (.response result) := by
  cases step with
  | @pollReady a answer at_ =>
    have other : b ≠ a := by
      rintro rfl
      simp [State.setPhase, Phase.running] at running
    exact ⟨result, (update_of_ne other _ _).trans ready⟩
  | @pollPending a at_ pending =>
    have other : b ≠ a := by
      rintro rfl
      exact pending _ ready
    exact ⟨result, (update_of_ne other _ _).trans ready⟩
  | respond => exact State.response_respond (.inl ⟨result, ready⟩)
  | pass | passed | passOn | enqueue | measure | expire | takeNothing | take | combined | send | sent | write
  | written | drop => exact ⟨result, ready⟩

theorem Step.present_of_idle (step : Step batcher program s action t) (idle : s.phase b = .idle)
    (running : (t.phase b).running = true) : t.pool.Present b := by
  have actor : action.actor = b := by
    by_contra other
    rw [step.others (Ne.symm other), idle] at running
    cases running
  cases step with
  | @pass a at_ =>
    subst actor
    refine .inr ⟨a, ?_⟩
    simp only [State.pool, State.setPhase, update_self, Phase.held, Action.actor, List.mem_singleton]
  | @enqueue a at_ =>
    subst actor
    refine .inl ⟨(program a).key, ?_⟩
    simp [State.pool, State.setPhase, State.setRequests, Action.actor]
  | drop =>
    subst actor
    simp [State.setPhase, Action.actor, Phase.running] at running
  | passed at_ | passOn at_ | measure at_ | expire at_ | takeNothing at_ | take flush at_ | combined at_ | send at_
  | sent at_ | write at_ | written at_ | respond at_ | pollReady at_ | pollPending at_ =>
    subst actor
    rw [Action.actor, at_] at idle
    cases idle

/-- The request of the call is in a queue, in a flush that still runs, or answered. -/
def Accounted (s : State A) (b : A) : Prop :=
  (∃ key, ∃ request ∈ s.requests key, request.id = b) ∨ (∃ c, b ∈ (s.phase c).held c) ∨
    ∃ result, s.responses b = some (.response result)

omit [DecidableEq A] in
theorem accounted_iff : Accounted s b ↔ s.pool.Present b ∨ ∃ result, s.responses b = some (.response result) := by
  simp only [Accounted, Pool.Present, State.pool, List.mem_map, or_assoc]

/-- No call is dropped while it has the request of another call that still waits. -/
def LosesNoOther (s : State A) : Action A → Prop
  | .drop c => ∀ b ∈ (s.phase c).held c, b ≠ c → s.phase b = .dropped
  | _ => True

theorem Effect.accounted (effect : Effect s action t) (allowed : LosesNoOther s action)
    (present : s.pool.Present b) (before : (s.phase b).running = true) (running : (t.phase b).running = true) :
    t.pool.Present b ∨ ∃ result, t.responses b = some (.response result) := by
  cases effect with
  | kept pool => exact .inl (pool ▸ present)
  | queued _ _ _ pool => exact .inl (pool ▸ present.put)
  | @drawn a at_ called pool =>
    have free : s.pool.held a = [] := by simp only [State.pool, at_, Phase.held]
    exact .inl (pool ▸ present.draw free)
  | taken _ _ free pool => exact .inl (pool ▸ present.take free)
  | @returned a response own after pool =>
    refine .inl (pool ▸ present.release.resolve_right fun mine => ?_)
    rw [own, List.mem_singleton] at mine
    subst mine
    rw [after] at running
    cases running
  | @answered a responsesByOwner had responses pool =>
    rcases present.release with still | mine
    · exact .inl (pool ▸ still)
    · rw [had] at mine
      rw [responses]
      exact .inr (State.response_respond (.inr mine))
  | @dropped a action_ after pool =>
    refine .inl (pool ▸ present.release.resolve_right fun mine => ?_)
    subst action_
    by_cases self : b = a
    · subst self
      rw [after] at running
      cases running
    · rw [allowed b mine self] at before
      cases before

/-- As long as no call is dropped with another's request, no request is lost. -/
theorem no_request_is_lost (reached : (machine batcher program).ReachableWhile LosesNoOther s)
    (b : A) (running : (s.phase b).running = true) : Accounted s b := by
  rw [accounted_iff]
  revert b
  refine Machine.ReachableWhile.invariant
    (P := fun s : State A => ∀ b, (s.phase b).running = true →
      s.pool.Present b ∨ ∃ result, s.responses b = some (.response result)) ?_ ?_ reached
  · rintro _ rfl _ running
    cases running
  · intro s action t accounted allowed step b running
    rcases step.running running with before | idle
    · rcases accounted b before with present | ⟨_, ready⟩
      · exact step.effect.accounted allowed present before running
      · exact .inr (step.response_kept ready running)
    · exact .inl (step.present_of_idle idle running)

/-! Two calls for one partition. -/

def patientBatcher : ProduceRequestBatcher where
  codec := ProduceService.plainCodec
  minimumSize := none
  maximumDelay := some 10

def orders : Call where
  transactionId := none
  topition := { topic := "orders", partition := 3 }
  batch := ProduceService.emptyRecord

def bothQueued : Flush Bool where
  next := .head
  queue := [{ id := false, batch := orders.batch }, { id := true, batch := orders.batch }]
  taken := nofun

def bothWaiting : State Bool :=
  ((((State.start.setRequests orders.key [{ id := false, batch := orders.batch }]).setPhase false .head).setRequests
    orders.key bothQueued.queue).setPhase true .head |>.setPhase false .waiting).setPhase true .waiting

theorem bothWaiting_reachable (permitted : ∀ s a, allowed s (.call a) ∧ allowed s (.run a)) :
    (machine patientBatcher fun _ => orders).ReachableWhile allowed bothWaiting := by
  have start : (machine patientBatcher fun _ : Bool => orders).ReachableWhile allowed .start := .init rfl
  have first := start.next (.enqueue (a := false) rfl nofun) (permitted _ _).1
  have second := first.next (.enqueue (a := true) rfl nofun) (permitted _ _).1
  have waits := second.next (.measure (a := false) rfl) (permitted _ _).2
  exact waits.next (.measure rfl) (permitted _ _).2

def oneCombines : State Bool :=
  (((bothWaiting.setPhase false (.flushing .head)).setRequests orders.key []).noteTaken
    [false, true]).setPhase false (.combining bothQueued)

theorem oneCombines_reachable (permitted : ∀ s a, allowed s (.call a) ∧ allowed s (.run a) ∧ allowed s (.expire a)) :
    (machine patientBatcher fun _ => orders).ReachableWhile allowed oneCombines := by
  have waiting := bothWaiting_reachable fun s a => ⟨(permitted s a).1, (permitted s a).2.1⟩
  have expired := waiting.next (.expire (a := false) rfl) (permitted _ _).2.2
  have found : (bothWaiting.setPhase false (.flushing .head)).requests orders.key = bothQueued.queue := by
    simp [bothWaiting, State.setPhase, State.setRequests]
  have taken := expired.next (.take (a := false) bothQueued rfl found) (permitted _ _).2.1
  have merging : merges bothQueued.batches = true := by decide
  exact taken

theorem no_request_is_lost_combining :
    (machine patientBatcher fun _ => orders).ReachableWhile LosesNoOther oneCombines ∧ Accounted oneCombines true := by
  have reached : (machine patientBatcher fun _ => orders).ReachableWhile LosesNoOther oneCombines :=
    oneCombines_reachable fun s a => ⟨trivial, trivial, trivial⟩
  exact ⟨reached, no_request_is_lost reached true rfl⟩

/-- The call that combines is dropped, and the other one waits for an answer that nobody will give. -/
theorem dropped_flush_loses_request : ∃ s, (machine patientBatcher fun _ : Bool => orders).Reachable s ∧
      s.phase true = .waiting ∧ ¬Accounted s true := by
  have combining : (machine patientBatcher fun _ => orders).Reachable oneCombines :=
    oneCombines_reachable fun s a => ⟨trivial, trivial, trivial⟩
  have dropped := combining.step (.drop (a := false) rfl)
  refine ⟨_, dropped, rfl, ?_⟩
  have emptied : ∀ key, (oneCombines.setPhase false .dropped).requests key = [] := by
    simp [oneCombines, bothWaiting, State.setPhase, State.setRequests, State.noteTaken, State.start]
  rintro (⟨_, _, listed, _⟩ | ⟨c, has⟩ | ⟨_, answered⟩)
  · rw [emptied] at listed
    cases listed
  · cases c <;> cases has
  · cases answered

end Nisshi.Storage.Batcher
