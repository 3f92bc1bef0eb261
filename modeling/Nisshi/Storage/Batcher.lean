import Nisshi.Lib.Machine
import Nisshi.Lib.Pool
import Nisshi.Storage.Combine

/-! `ProduceRequestBatcher`, for any number of calls of `produce`. A call queues its batch, and whichever call
runs out of patience, or finds enough bytes queued, writes the whole queue and leaves each owner its result.
Each locked section is one step, and so is what storage does. Between any two steps other calls run, and a call
may be dropped while it awaits. -/

namespace Nisshi.Storage.Batcher

open Nisshi.SansIo Nisshi.Lib

structure TopitionProducerId where
  topition : Topition
  producerId : Int64
  deriving DecidableEq

structure Call where
  transactionId : Option String
  topition : Topition
  batch : Deflated.Batch
  deriving DecidableEq

def Call.key (call : Call) : TopitionProducerId where
  topition := call.topition
  producerId := call.batch.producerId

structure ProduceRequestBatcher where
  codec : Codec
  minimumSize : Option Nat
  maximumDelay : Option Nat

structure BatchRequest (A : Type) where
  id : A
  batch : Deflated.Batch
  deriving DecidableEq

inductive BatchResponse where
  | waker
  | response (result : Except Error Int)
  deriving DecidableEq

inductive Next where
  /-- The queue was long enough: the call then waits for its ticket. -/
  | waiting
  /-- The call ran out of patience: it then starts its loop again. -/
  | head
  deriving DecidableEq

structure Flush (A : Type) where
  next : Next
  queue : List (BatchRequest A)
  taken : queue ≠ []
  deriving DecidableEq

namespace Flush

variable {A : Type}

def owners (flush : Flush A) : List A :=
  flush.queue.map (·.id)

def batches (flush : Flush A) : List Deflated.Batch :=
  flush.queue.map (·.batch)

end Flush

abbrev ResponsesByOwner (A : Type) := List (A × Except Error Int)

inductive Phase (A : Type) where
  | idle
  /-- Without a maximum delay the call awaits `Storage::produce`, which may have answered. -/
  | passing (outcome : Option (Except Error Int))
  | head
  | flushing (next : Next)
  /-- `offload(combine)` is awaited. -/
  | combining (flush : Flush A)
  /-- `Storage::produce` of the merged batch is awaited. -/
  | sending (flush : Flush A) (merged : Deflated.Batch)
  | sent (flush : Flush A) (outcome : Except Error Int)
  /-- `write_each_as_sent`: each batch is written on its own. -/
  | writing (next : Next) (done : ResponsesByOwner A) (left : List (BatchRequest A))
  | responding (next : Next) (responsesByOwner : ResponsesByOwner A)
  | waiting
  | returned (response : Except Error Int)
  | dropped
  deriving DecidableEq

def Next.phase {A : Type} : Next → Phase A
  | .waiting => .waiting
  | .head => .head

namespace Phase

variable {A : Type}

def awaits : Phase A → Bool
  | .passing _ | .combining _ | .sending _ _ | .sent _ _ | .writing _ _ _ | .waiting => true
  | _ => false

def held (self : A) : Phase A → List A
  | .passing _ => [self]
  | .combining flush | .sending flush _ | .sent flush _ => flush.owners
  | .writing _ done left => done.map (·.1) ++ left.map (·.id)
  | .responding _ responsesByOwner => responsesByOwner.map (·.1)
  | _ => []

@[simp]
theorem held_next (self : A) (next : Next) : (next.phase : Phase A).held self = [] := by
  cases next <;> rfl

end Phase

/-- A call of `Storage::produce`, and what it answered. -/
structure Handing (A : Type) where
  /-- The calls whose batches were handed over, in the order of their records. -/
  owners : List A
  transactionId : Option String
  topition : Topition
  batch : Deflated.Batch
  result : Except Error Int
  deriving DecidableEq

def Appends {A : Type} (produced : List (Handing A)) (topition : Topition) (result : Except Error Int) : Prop :=
  ∀ base, result = .ok base → ∀ earlier ∈ produced, earlier.topition = topition →
    ∀ start, earlier.result = .ok start → start + (earlier.batch.lastOffsetDelta.toInt + 1) ≤ base

structure State (A : Type) where
  requests : TopitionProducerId → List (BatchRequest A)
  responses : A → Option BatchResponse
  phase : A → Phase A
  produced : List (Handing A)
  /-- The owners of each queue that a call took, oldest first. -/
  taken : List (List A)

namespace State

variable {A : Type}

def start : State A where
  requests := fun _ => []
  responses := fun _ => none
  phase := fun _ => .idle
  produced := []
  taken := []

variable [DecidableEq A]

def setPhase (s : State A) (a : A) (phase : Phase A) : State A :=
  { s with phase := Function.update s.phase a phase }

def setRequests (s : State A) (key : TopitionProducerId) (queue : List (BatchRequest A)) : State A :=
  { s with requests := Function.update s.requests key queue }

def setResponse (s : State A) (a : A) (response : Option BatchResponse) : State A :=
  { s with responses := Function.update s.responses a response }

def noteTaken (s : State A) (owners : List A) : State A :=
  { s with taken := s.taken ++ [owners] }

def produce (s : State A) (handing : Handing A) : State A :=
  { s with produced := s.produced ++ [handing] }

def respond (s : State A) (responsesByOwner : ResponsesByOwner A) : State A :=
  { s with
    responses := responsesByOwner.foldl
      (fun responses (owner, result) => Function.update responses owner (some (.response result))) s.responses }

end State

/-- The merged batch is too large, or an offset delta overflows: each batch is then written as it was sent. -/
def retried : Except Error Int → Bool
  | .error (.messageTooLarge _ _) | .error (.sansIo (.offsetDeltaOverflow _)) => true
  | _ => false

def shares {A : Type} (outcome : Except Error Int) : Int → List (BatchRequest A) → ResponsesByOwner A
  | _, [] => []
  | cumulative, request :: rest =>
    (request.id, outcome.map (· + cumulative)) ::
      shares outcome (cumulative + (request.batch.lastOffsetDelta.toInt + 1)) rest

def queuedBytes {A : Type} (queue : List (BatchRequest A)) : Nat :=
  (queue.map fun request => request.batch.recordData.length).sum

namespace Phase

variable {A : Type} (batcher : ProduceRequestBatcher)

def ofQueue (queue : List (BatchRequest A)) : Phase A :=
  if batcher.minimumSize.any (· < queuedBytes queue) then .flushing .waiting else .waiting

def ofFlush (flush : Flush A) : Phase A :=
  if merges flush.batches then .combining flush else .writing flush.next [] flush.queue

def ofOutcome (flush : Flush A) (outcome : Except Error Int) : Phase A :=
  if retried outcome then .writing flush.next [] flush.queue
  else .responding flush.next (shares outcome 0 flush.queue)

def ofCombined (flush : Flush A) : Except Error (Option Deflated.Batch) → Phase A
  | .ok (some merged) => .sending flush merged
  | .ok none => flush.next.phase
  | .error error => ofOutcome flush (.error error)

end Phase

inductive Action (A : Type) where
  | call (a : A)
  | store (a : A) (result : Except Error Int)
  | run (a : A)
  | expire (a : A)
  | drop (a : A)
  deriving DecidableEq

def Action.actor {A : Type} : Action A → A
  | .call a | .store a _ | .run a | .expire a | .drop a => a

section Step

variable {A : Type} [DecidableEq A] (batcher : ProduceRequestBatcher) (program : A → Call)

def alone (transactionId : Option String) (topition : Topition) (id : A) (batch : Deflated.Batch)
    (result : Except Error Int) : Handing A where
  owners := [id]
  transactionId
  topition
  batch
  result

def together (call : Call) (flush : Flush A) (merged : Deflated.Batch) (result : Except Error Int) : Handing A where
  owners := flush.owners
  transactionId := call.transactionId
  topition := call.topition
  batch := merged
  result

inductive Step (s : State A) : Action A → State A → Prop where
  | pass {a : A} (at_ : s.phase a = .idle) (immediate : batcher.maximumDelay = none) :
    Step s (.call a) ((s.noteTaken [a]).setPhase a (.passing none))
  | passed {a : A} {result : Except Error Int} (at_ : s.phase a = .passing none)
      (appends : Appends s.produced (program a).topition result) :
    Step s (.store a result)
      ((s.produce (alone (program a).transactionId (program a).topition a (program a).batch result)).setPhase a
        (.passing (some result)))
  | passOn {a : A} {result : Except Error Int} (at_ : s.phase a = .passing (some result)) :
    Step s (.run a) (s.setPhase a (.returned result))
  | enqueue {a : A} (at_ : s.phase a = .idle) (patient : batcher.maximumDelay ≠ none) :
    Step s (.call a)
      ((s.setRequests (program a).key
        (s.requests (program a).key ++ [{ id := a, batch := (program a).batch }])).setPhase a .head)
  | measure {a : A} (at_ : s.phase a = .head) :
    Step s (.run a) (s.setPhase a (.ofQueue batcher (s.requests (program a).key)))
  | expire {a : A} (at_ : s.phase a = .waiting) : Step s (.expire a) (s.setPhase a (.flushing .head))
  | takeNothing {a : A} {next : Next} (at_ : s.phase a = .flushing next)
      (empty : s.requests (program a).key = []) : Step s (.run a) (s.setPhase a next.phase)
  | take {a : A} (flush : Flush A) (at_ : s.phase a = .flushing flush.next)
      (found : s.requests (program a).key = flush.queue) :
    Step s (.run a)
      (((s.setRequests (program a).key []).noteTaken flush.owners).setPhase a (.ofFlush flush))
  | combined {a : A} {flush : Flush A} (at_ : s.phase a = .combining flush) :
    Step s (.run a) (s.setPhase a (.ofCombined flush (combine batcher.codec flush.batches)))
  | send {a : A} {flush : Flush A} {merged : Deflated.Batch} {result : Except Error Int}
      (at_ : s.phase a = .sending flush merged) (appends : Appends s.produced (program a).topition result) :
    Step s (.store a result)
      ((s.produce (together (program a) flush merged result)).setPhase a (.sent flush result))
  | sent {a : A} {flush : Flush A} {outcome : Except Error Int} (at_ : s.phase a = .sent flush outcome) :
    Step s (.run a) (s.setPhase a (.ofOutcome flush outcome))
  | write {a : A} {next : Next} {done : ResponsesByOwner A} {request : BatchRequest A}
      {left : List (BatchRequest A)} {result : Except Error Int}
      (at_ : s.phase a = .writing next done (request :: left))
      (appends : Appends s.produced (program a).topition result) :
    Step s (.store a result)
      ((s.produce
        (alone (program a).transactionId (program a).topition request.id request.batch result)).setPhase a
          (.writing next (done ++ [(request.id, result)]) left))
  | written {a : A} {next : Next} {done : ResponsesByOwner A} (at_ : s.phase a = .writing next done []) :
    Step s (.run a) (s.setPhase a (.responding next done))
  | respond {a : A} {next : Next} {responsesByOwner : ResponsesByOwner A}
      (at_ : s.phase a = .responding next responsesByOwner) :
    Step s (.run a) ((s.respond responsesByOwner).setPhase a next.phase)
  | pollReady {a : A} {result : Except Error Int} (at_ : s.phase a = .waiting)
      (ready : s.responses a = some (.response result)) :
    Step s (.run a) ((s.setResponse a none).setPhase a (.returned result))
  | pollPending {a : A} (at_ : s.phase a = .waiting)
      (pending : ∀ result, s.responses a ≠ some (.response result)) :
    Step s (.run a) (s.setResponse a (some .waker))
  | drop {a : A} (at_ : (s.phase a).awaits = true) : Step s (.drop a) (s.setPhase a .dropped)

def machine : Machine (State A) (Action A) where
  init s := s = .start
  step := Step batcher program

end Step

def State.pool {A : Type} (s : State A) : Pool TopitionProducerId A A where
  queue key := (s.requests key).map (·.id)
  held c := (s.phase c).held c
  taken := s.taken

end Nisshi.Storage.Batcher
