import Nisshi.Proxy.Serve

/-! How a call of `serve` that waits is woken. `Ticket::poll` leaves the waker of the poll in `responses`, and
`send_pending_batch` wakes the waker that it finds where it stores a response. -/

namespace Nisshi.Proxy.Ticket

open Nisshi.SansIo Nisshi.Lib List Option Function
open Std (ExtTreeMap)

variable {W : Type}

inductive Entry (W : Type) where
  | waker (waker : W)
  | response (response : ProduceResponse)

abbrev Entries (W : Type) := Uuid → Option (Entry W)

inductive Poll where
  | ready (response : ProduceResponse)
  | pending

/-- `Ticket::poll`. The entry is removed in every case, so a poll that finds a waker leaves none. -/
def poll (entries : Entries W) (id : Uuid) (waker : W) : Poll × Entries W :=
  match entries id with
  | some (.response response) => (.ready response, update entries id none)
  | some (.waker _) => (.pending, update entries id none)
  | none => (.pending, update entries id (some (.waker waker)))

def respond (entries : Entries W) (owners : ExtTreeMap Uuid ProduceResponse) : Entries W := fun owner =>
  match owners[owner]? with
  | some response => some (.response response)
  | none => entries owner

def woken (entries : Entries W) (owners : ExtTreeMap Uuid ProduceResponse) (owner : Uuid) : Option W :=
  match owners[owner]?, entries owner with
  | some _, some (.waker waker) => some waker
  | _, _ => none

/-- What `send_pending_batch` does to `responses` once the origin has answered. -/
def sendPendingBatch (entries : Entries W) (id : Uuid) (owners : ExtTreeMap Uuid ProduceResponse) :
    Entries W × (Uuid → Option W) :=
  match owners[id]? with
  | some _ => (respond (update entries id none) (owners.erase id), woken (update entries id none) (owners.erase id))
  | none => (respond entries owners, woken entries owners)

inductive Event (W : Type) where
  | poll (id : Uuid) (waker : W)
  | settle (id : Uuid) (owners : ExtTreeMap Uuid ProduceResponse)

/-- The entries, with the wakers of the polls of each ticket that returned `Pending` since it was last answered,
the last poll's first. -/
structure Watched (W : Type) where
  entries : Entries W
  pending : Uuid → List W

namespace Watched

def start : Watched W where
  entries := fun _ => none
  pending := fun _ => []

def step (s : Watched W) : Event W → Watched W
  | .poll id waker =>
    { entries := (poll s.entries id waker).2
      pending := update s.pending id <| match (poll s.entries id waker).1 with
        | .ready _ => []
        | .pending => waker :: s.pending id }
  | .settle id owners =>
    { entries := (sendPendingBatch s.entries id owners).1
      pending := fun owner => if owner ∈ owners then [] else s.pending owner }

/-- Any interleaving of polls, spurious ones included, with answers of the origin. -/
def run (s : Watched W) (events : List (Event W)) : Watched W :=
  events.foldl step s

end Watched

/-- The last poll's waker is stored when it came after an even number of others, and no waker is otherwise. -/
def Holds : List W → Option (Entry W) → Prop
  | [], entry => ∀ waker, entry ≠ some (.waker waker)
  | waker :: earlier, entry => entry = if Even earlier.length then some (.waker waker) else none

theorem Holds.poll {entries : Entries W} {id : Uuid} (holds : Holds pending (entries id)) (waker : W) :
    Holds (match (poll entries id waker).1 with
      | .ready _ => []
      | .pending => waker :: pending) ((Ticket.poll entries id waker).2 id) := by
  rw [Ticket.poll]
  cases found : entries id with
  | none =>
    rw [found] at holds
    cases pending with
    | nil => simp [Holds]
    | cons _ earlier =>
      have odd : ¬ Even earlier.length := fun even => by simp [Holds, even] at holds
      simp [Holds, Nat.even_add_one, odd]
  | some entry =>
    rw [found] at holds
    cases entry with
    | response => simp [Holds]
    | waker old =>
      cases pending with
      | nil => exact absurd rfl (holds old)
      | cons _ earlier =>
        have even : Even earlier.length := by
          by_contra odd
          simp [Holds, odd] at holds
        simp [Holds, Nat.even_add_one, even]

theorem poll_of_ne {owner id : Uuid} {entries : Entries W} {waker : W} (other : owner ≠ id) :
    (poll entries id waker).2 owner = entries owner := by
  rw [poll]
  split <;> exact update_of_ne other ..

section Settle

variable {entries : Entries W} {owners : ExtTreeMap Uuid ProduceResponse} {owner id : Uuid}

theorem sendPendingBatch_of_ne (other : owner ≠ id) :
    (sendPendingBatch entries id owners).1 owner = respond entries owners owner ∧
      (sendPendingBatch entries id owners).2 owner = woken entries owners owner := by
  have kept : (owners.erase id)[owner]? = owners[owner]? := by
    rw [ExtTreeMap.getElem?_erase, if_neg fun same => other (Std.LawfulEqCmp.eq_of_compare same).symm]
  rw [sendPendingBatch]
  split <;> simp [respond, woken, kept, update_of_ne other]

theorem sendPendingBatch_of_not_mem (unowned : owner ∉ owners) :
    (sendPendingBatch entries id owners).1 owner = entries owner := by
  have none : owners[owner]? = none := ExtTreeMap.getElem?_eq_none unowned
  by_cases own : owner = id
  · subst own
    simp [sendPendingBatch, respond, none]
  · rw [(sendPendingBatch_of_ne own).1]
    simp [respond, none]

theorem sendPendingBatch_of_mem (owned : owner ∈ owners) (waker : W) :
    (sendPendingBatch entries id owners).1 owner ≠ some (.waker waker) := by
  obtain ⟨_, found⟩ := isSome_iff_exists.mp (ExtTreeMap.mem_iff_isSome_getElem?.mp owned)
  by_cases own : owner = id
  · subst own
    simp [sendPendingBatch, found, respond]
  · rw [(sendPendingBatch_of_ne own).1]
    simp [respond, found]

end Settle

theorem Watched.step_holds {s : Watched W} (holds : ∀ id, Holds (s.pending id) (s.entries id)) (event : Event W)
    (id : Uuid) : Holds ((s.step event).pending id) ((s.step event).entries id) := by
  cases event with
  | poll polled waker =>
    simp only [step]
    by_cases own : id = polled
    · subst own
      rw [update_self]
      exact (holds id).poll waker
    · rw [update_of_ne own, poll_of_ne own]
      exact holds id
  | settle =>
    simp only [step]
    split
    next owned => exact sendPendingBatch_of_mem owned
    next unowned =>
      rw [sendPendingBatch_of_not_mem unowned]
      exact holds id

theorem Watched.run_holds {s : Watched W} (holds : ∀ id, Holds (s.pending id) (s.entries id))
    (events : List (Event W)) (id : Uuid) : Holds ((s.run events).pending id) ((s.run events).entries id) := by
  induction events generalizing s with
  | nil => exact holds id
  | cons event _ ih => exact ih (step_holds holds event)

/-- A response wakes the last poll that returned `Pending` exactly when an even number of such polls came before
it since the ticket was last answered. -/
theorem pending_poll_is_woken {owner id : Uuid} {waker : W} {earlier : List W} (events : List (Event W))
    (owners : ExtTreeMap Uuid ProduceResponse)
    (polled : (Watched.start.run events).pending owner = waker :: earlier) (stored : owner ∈ owners)
    (other : owner ≠ id) :
    (sendPendingBatch (Watched.start.run events).entries id owners).2 owner = some waker ↔ Even earlier.length := by
  obtain ⟨_, found⟩ := isSome_iff_exists.mp (ExtTreeMap.mem_iff_isSome_getElem?.mp stored)
  have holds := Watched.run_holds (s := .start) (fun _ => by simp [Holds, Watched.start]) events owner
  rw [polled] at holds
  rw [(sendPendingBatch_of_ne other).2, woken, found, holds]
  by_cases even : Even earlier.length <;> simp [even]

theorem pending_poll_is_woken_third : (sendPendingBatch
    (Watched.start.run [.poll 0 'a', .poll 0 'b', .poll 0 'c']).entries 1
    (ExtTreeMap.empty.insert 0 { responses := none, throttleTimeMs := none })).2 0 = some 'c' :=
  have polled : (Watched.start.run [.poll 0 'a', .poll 0 'b', .poll 0 'c']).pending 0 = ['c', 'b', 'a'] := by decide
  (pending_poll_is_woken _ _ polled (by simp) (by decide)).mpr (by decide)

/-- The second of two polls is not woken: it took the first one's waker and left none. -/
theorem second_poll_is_not_woken :
    ¬ ∀ (events : List (Event Char)) (owners : ExtTreeMap Uuid ProduceResponse) (owner id : Uuid) (waker : Char)
      (earlier : List Char), (Watched.start.run events).pending owner = waker :: earlier → owner ∈ owners →
      owner ≠ id → (sendPendingBatch (Watched.start.run events).entries id owners).2 owner = some waker := by
  intro woken
  have second := woken [.poll 0 'a', .poll 0 'b']
    (ExtTreeMap.empty.insert 0 { responses := none, throttleTimeMs := none }) 0 1 'b' ['a'] (by decide) (by simp)
    (by decide)
  exact absurd second (by decide +kernel)

end Nisshi.Proxy.Ticket
