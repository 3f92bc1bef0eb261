import Nisshi.Lib.Machine
import Nisshi.Coordinator.Sound

/-! A group that handles calls one after another, with the history of what it was asked and what it
answered. -/

namespace Nisshi.Coordinator

open Nisshi.SansIo Nisshi.Storage Nisshi.Lib
open Std (ExtTreeMap)

/-- What a group is asked to do. `uuid` is what `Uuid::new_v4` answers if a `JoinGroup` needs a member id. -/
inductive Call where
  | settle
  | join (uuid : String) (request : JoinRequest) (initialRebalanceDelay : Duration)
  | sync (request : SyncRequest)
  | heartbeat (generationId : Int) (memberId : String) (groupInstanceId : Option String)
  | leave (memberId : Option String) (members : Option (List MemberIdentity))
  | checkOffsetCommit (detail : OffsetCommit)
  deriving DecidableEq

inductive Answer where
  | settled
  | reply (reply : Reply)
  | body (body : Body)
  /-- The error code that rejects an offset commit, if it is rejected. -/
  | checked (errorCode : Option ErrorCode)
  deriving DecidableEq

namespace Wrapper

def generationId : Wrapper → Int
  | .forming inner => inner.generationId
  | .formed inner => inner.generationId

def members : Wrapper → ExtTreeMap String Member
  | .forming inner => inner.members
  | .formed inner => inner.members

def pendingMembers : Wrapper → ExtTreeMap String SystemTime
  | .forming inner => inner.pendingMembers
  | .formed inner => inner.pendingMembers

def call (group : Wrapper) (now : SystemTime) : Call → Wrapper × Answer
  | .settle => (group.settle now, .settled)
  | .join uuid request initialRebalanceDelay =>
    let (group, reply) := group.join now uuid request initialRebalanceDelay
    (group, .reply reply)
  | .sync request =>
    let (group, reply) := group.sync now request
    (group, .reply reply)
  | .heartbeat generationId memberId groupInstanceId =>
    let (group, body) := group.heartbeat now generationId memberId groupInstanceId
    (group, .body body)
  | .leave memberId members =>
    let (group, body) := group.leave now memberId members
    (group, .body body)
  | .checkOffsetCommit detail =>
    let (group, errorCode) := group.checkOffsetCommit now detail
    (group, .checked errorCode)

theorem Sound.call {group : Wrapper} (sound : group.Sound) (now : SystemTime) (call : Call) :
    (group.call now call).1.Sound := by
  cases call with
  | settle => exact sound.passes (group.settle_passes now)
  | join => exact sound.join
  | sync => exact sound.sync
  | heartbeat generationId memberId groupInstanceId =>
    exact sound.passes (group.heartbeat_passes now generationId memberId groupInstanceId)
  | leave memberId members => exact sound.passes (group.leave_passes now memberId members)
  | checkOffsetCommit detail => exact sound.passes (group.checkOffsetCommit_passes now detail)

end Wrapper

def JoinRequest.madeMemberId (request : JoinRequest) (uuid : String) : String :=
  newMemberId uuid (request.groupInstanceId.or request.clientId)

def Call.made : Call → Option String
  | .join uuid request _ => if request.memberId = "" then some (request.madeMemberId uuid) else none
  | _ => none

structure Event where
  now : SystemTime
  call : Call
  before : Wrapper
  after : Wrapper
  answer : Answer

/-- A group and what has happened to it, the latest first. -/
structure History where
  group : Wrapper
  events : List Event

namespace History

variable (history : History) (now : SystemTime) (call : Call)

def issued : List String :=
  history.events.filterMap (·.call.made)

def clock : Option SystemTime :=
  history.events.head?.map (·.now)

def next : History where
  group := (history.group.call now call).1
  events := { now, call, before := history.group, after := (history.group.call now call).1,
              answer := (history.group.call now call).2 } :: history.events

def start (inception : SystemTime) : History where
  group := .new inception
  events := []

/-- Any call may come at any time. A member id that a call makes was not made before. -/
inductive Step : History → SystemTime × Call → History → Prop
  | handle {history : History} {now : SystemTime} {call : Call}
      (fresh : ∀ memberId ∈ call.made, memberId ∉ history.issued) :
      Step history (now, call) (history.next now call)

def machine : Machine History (SystemTime × Call) where
  init := fun history => ∃ inception, history = start inception
  step := Step

def InOrder (history : History) (action : SystemTime × Call) : Prop :=
  ∀ earlier ∈ history.clock, earlier ≤ action.1

variable {history : History} {allowed : History → SystemTime × Call → Prop}

theorem sound_of_reachable (reached : machine.Reachable history) : history.group.Sound := by
  apply reached.invariant
  · rintro _ ⟨inception, rfl⟩
    exact Wrapper.sound_new inception
  · rintro _ _ _ sound ⟨_⟩
    exact sound.call _ _

def handleAll (history : History) : List (SystemTime × Call) → History
  | [] => history
  | (now, call) :: calls => handleAll (history.next now call) calls

/-- A list of calls that a group may handle, as far as the member ids that they make and a condition on
each call go. -/
def Admissible (allowed : History → SystemTime × Call → Prop) (history : History) : List (SystemTime × Call) → Prop
  | [] => True
  | (now, call) :: calls =>
    ((∀ memberId ∈ call.made, memberId ∉ history.issued) ∧ allowed history (now, call)) ∧
      Admissible allowed (history.next now call) calls

instance Admissible.decidable [∀ history action, Decidable (allowed history action)] :
    ∀ (history : History) (calls : List (SystemTime × Call)), Decidable (Admissible allowed history calls)
  | _, [] => inferInstanceAs (Decidable True)
  | history, (now, call) :: calls =>
    have := Admissible.decidable (history.next now call) calls
    inferInstanceAs (Decidable (_ ∧ Admissible allowed (history.next now call) calls))

instance (history : History) (action : SystemTime × Call) : Decidable (InOrder history action) :=
  inferInstanceAs (Decidable (∀ earlier ∈ history.clock, earlier ≤ action.1))

theorem reachable_handleAll (reached : machine.ReachableWhile allowed history)
    (calls : List (SystemTime × Call)) (admissible : Admissible allowed history calls) :
    machine.ReachableWhile allowed (history.handleAll calls) := by
  induction calls generalizing history with
  | nil => exact reached
  | cons _ _ ih =>
    obtain ⟨⟨fresh, permitted⟩, rest⟩ := admissible
    exact ih (reached.next (.handle fresh) permitted) rest

theorem reachable_of_admissible (calls : List (SystemTime × Call)) (admissible : Admissible allowed (start 0) calls) :
    machine.ReachableWhile allowed ((start 0).handleAll calls) :=
  reachable_handleAll (.init ⟨0, rfl⟩) calls admissible

end History

end Nisshi.Coordinator
