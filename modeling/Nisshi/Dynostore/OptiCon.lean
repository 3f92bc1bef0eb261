import Nisshi.Lib.Machine
import Mathlib.Data.Nat.Pairing

/-! One JSON document of the object store and the handles that share it: `OptiCon::with` and
`OptiCon::with_mut` over the metadata `Cache`, as `DynoStore` composes them. Every await is a step of
its own: a request leaves, the store serves it, its response reaches the `Cache`, and the response
reaches the handle. Tasks and brokers interleave between any two steps. -/

namespace Nisshi.Dynostore.OptiCon

open Nisshi.Lib Option Function

universe u

/-- What the handles rest on outside the repository: the JSON codec, the version that the store
gives to the payload of its `n`-th write, and the e-tag of a version. -/
structure Backend (D B V T : Type u) where
  toVec : D → Option B
  fromSlice : B → Option D
  stamp : Nat → B → V
  eTag : V → Option T

/-- The codec reads back what it wrote, and one version never names two payloads. A counter and a
content hash both satisfy the second law. -/
structure Backend.Lawful {D B V T : Type u} (k : Backend D B V T) : Prop where
  round_trip : ∀ data payload, k.toVec data = some payload → k.fromSlice payload = some data
  same_payload : ∀ i j first second, k.stamp i first = k.stamp j second → first = second

structure DataVersion (D V : Type u) where
  data : D
  version : Option V
  deriving DecidableEq

instance {D V : Type u} [Inhabited D] : Inhabited (DataVersion D V) where
  default := { data := default, version := none }

inductive PutMode (V : Type u) where
  | create
  | update (version : V)
  deriving DecidableEq

def DataVersion.putMode {D V : Type u} (dv : DataVersion D V) : PutMode V :=
  dv.version.elim .create .update

structure Object (B V : Type u) where
  payload : B
  version : V
  deriving DecidableEq

/-- The store's answer to a GET. An `error` is any error other than `NotFound` and `NotModified`. -/
inductive GetReply (B V : Type u) where
  | found (object : Object B V)
  | notFound
  | notModified
  | error
  deriving DecidableEq

inductive Call (H D R : Type u) where
  | withData (handle : H) (f : D → R)
  | withMut (handle : H) (f : D → D × R)

def Call.handle {H D R : Type u} : Call H D R → H
  | .withData handle _ => handle
  | .withMut handle _ => handle

/-- What a call returns: the closure's own result, or an error of the store or the codec. -/
inductive Answer (R : Type u) where
  | outcome (result : R)
  | failed
  deriving DecidableEq

/-- Where a call stands. A `position` counts the writes that the store had served when it served the
request: it is no part of the response, and no step reads it to decide anything. -/
inductive Phase (D B V T R : Type u) where
  /-- Not started, or at the head of the loop of `with_mut`. -/
  | ready
  /-- The GET is at the `Cache`, which has not looked its entry up yet. -/
  | asking (presented : Option T)
  | requested (presented : Option T)
  | answered (presented : Option T) (reply : GetReply B V) (position : Nat)
  /-- The `Cache` has passed the response on; the handle does not hold it yet. -/
  | received (reply : GetReply B V) (position : Nat)
  /-- The GET of `with` is over, and its closure has not run yet. -/
  | settled (fetched : Bool)
  | putting (dv : DataVersion D V) (outcome : R) (payload : B)
  | stored (dv : DataVersion D V) (outcome : R) (version : V) (position : Nat)
  | acknowledged (dv : DataVersion D V) (outcome : R) (version : V) (position : Nat)
  | returned (answer : Answer R)

/-- One write that the store served. `call` is the call whose PUT it was. -/
structure Write (B V C : Type u) where
  object : Object B V
  call : C

structure State (D B V T H C R : Type u) where
  /-- The writes the store served, oldest first: the object is the newest one. -/
  log : List (Write B V C)
  dataVersion : H → Option (DataVersion D V)
  /-- The e-tag in the `Cache` entry of the handle's path, when there is an entry. -/
  entry : H → Option (Option T)
  phase : C → Phase D B V T R
  /-- The document that the closure of a finished `with` ran on. -/
  ranOn : C → Option D
  seen : H → Nat
  /-- The positions that `with_mut` calls on the handle stored and returned from. -/
  acked : H → List Nat
  /-- `acked` of the handle when the call started. -/
  ackedBefore : C → List Nat

section Model

variable {D B V T H C R : Type u} [Inhabited D]

def State.start : State D B V T H C R where
  log := []
  dataVersion := fun _ => none
  entry := fun _ => none
  phase := fun _ => .ready
  ranOn := fun _ => none
  seen := fun _ => 0
  acked := fun _ => []
  ackedBefore := fun _ => []

def State.object (s : State D B V T H C R) : Option (Object B V) :=
  s.log.getLast?.map Write.object

/-- The document after the first `n` writes: the default when there were none. -/
def Backend.document (k : Backend D B V T) (log : List (Write B V C)) : Nat → D
  | 0 => default
  | n + 1 => ((log[n]?).bind fun write => k.fromSlice write.object.payload).getD default

/-- The version that `with` presents as `If-None-Match`. -/
def Backend.presented (k : Backend D B V T) (held : Option (DataVersion D V)) : Option T :=
  (held.bind DataVersion.version).bind k.eTag

/-- `Cache::get_opts` answers `NotModified` by itself when its entry has the presented e-tag. -/
def hit [DecidableEq T] (entry : Option (Option T)) (presented : Option T) : Bool :=
  match entry, presented with
  | some (some cached), some presented => cached == presented
  | _, _ => false

def Backend.serveGet [DecidableEq T] (k : Backend D B V T) (object : Option (Object B V)) (presented : Option T) :
    GetReply B V :=
  match object with
  | none => .notFound
  | some object =>
    if presented.isSome ∧ k.eTag object.version = presented then .notModified else .found object

def admits [DecidableEq V] (object : Option (Object B V)) : PutMode V → Bool
  | .create => object.isNone
  | .update version => object.map Object.version == some version

def Backend.cacheGet (k : Backend D B V T) (entry : Option (Option T)) (presented : Option T) :
    GetReply B V → Option (Option T)
  | .found object => some (k.eTag object.version)
  | .notModified => some presented
  | .notFound => entry
  | .error => entry

inductive Landing (D V : Type u) where
  | replace (held : Option (DataVersion D V))
  | keep
  | fail

/-- `NotModified` keeps the handle of `with`. It is an error for `OptiCon::get`, which presents no
e-tag and so never meets it. -/
def Backend.land (k : Backend D B V T) (call : Call H D R) : GetReply B V → Landing D V
  | .found object =>
    match k.fromSlice object.payload with
    | some data => .replace (some { data, version := some object.version })
    | none => .fail
  | .notFound => .replace none
  | .notModified =>
    match call with
    | .withData _ _ => .keep
    | .withMut _ _ => .fail
  | .error => .fail

def Call.afterGet (call : Call H D R) (fetched : Bool) : Phase D B V T R :=
  match call with
  | .withData _ _ => .settled fetched
  | .withMut _ _ => if fetched then .ready else .returned .failed

inductive Action (H C : Type u) where
  | begin (call : C)
  | lookup (call : C)
  | serveGet (call : C)
  | failGet (call : C)
  | cacheGet (call : C)
  | landGet (call : C)
  | runClosure (call : C)
  | servePut (call : C)
  | failPut (call : C)
  | cachePut (call : C)
  | landPut (call : C)
  | expire (handle : H)

def State.setPhase [DecidableEq C] (s : State D B V T H C R) (call : C) (phase : Phase D B V T R) :
    State D B V T H C R :=
  { s with phase := Function.update s.phase call phase }

def State.setHandle [DecidableEq H] (s : State D B V T H C R) (handle : H) (held : Option (DataVersion D V))
    (position : Nat) : State D B V T H C R :=
  { s with
    dataVersion := Function.update s.dataVersion handle held
    seen := Function.update s.seen handle position }

def State.setEntry [DecidableEq H] (s : State D B V T H C R) (handle : H) (entry : Option (Option T)) :
    State D B V T H C R :=
  { s with entry := Function.update s.entry handle entry }

def State.push (s : State D B V T H C R) (write : Write B V C) : State D B V T H C R :=
  { s with log := s.log ++ [write] }

def State.noteStart [DecidableEq C] (s : State D B V T H C R) (call : C) (handle : H) : State D B V T H C R :=
  { s with ackedBefore := Function.update s.ackedBefore call (s.acked handle) }

def State.noteRun [DecidableEq C] (s : State D B V T H C R) (call : C) (data : D) : State D B V T H C R :=
  { s with ranOn := Function.update s.ranOn call (some data) }

def State.noteAck [DecidableEq H] (s : State D B V T H C R) (handle : H) (position : Nat) : State D B V T H C R :=
  { s with acked := Function.update s.acked handle (position :: s.acked handle) }

def State.data (s : State D B V T H C R) (handle : H) : D :=
  ((s.dataVersion handle).getD default).data

/-- Where `with_mut` goes after it ran `f` on the data it holds: to the PUT, or out on an encoding error. -/
def Backend.compute (k : Backend D B V T) (f : D → D × R) (held : Option (DataVersion D V)) : Phase D B V T R :=
  let dv := held.getD default
  let (data, outcome) := f dv.data
  match k.toVec data with
  | none => .returned .failed
  | some payload => .putting { data, version := dv.version } outcome payload

def State.landGet [DecidableEq H] [DecidableEq C] (k : Backend D B V T) (s : State D B V T H C R) (c : C)
    (call : Call H D R)
    (reply : GetReply B V) (position : Nat) : State D B V T H C R :=
  match k.land call reply with
  | .replace held => (s.setHandle call.handle held position).setPhase c (call.afterGet true)
  | .keep => s.setPhase c (call.afterGet true)
  | .fail => s.setPhase c (call.afterGet false)

inductive Step [DecidableEq V] [DecidableEq T] [DecidableEq H] [DecidableEq C]
    (k : Backend D B V T) (program : C → Call H D R) :
    State D B V T H C R → Action H C → State D B V T H C R → Prop where
  | beginWith {s c h f} (call : program c = .withData h f) (at_ : s.phase c = .ready) :
      Step k program s (.begin c)
        ((s.noteStart c h).setPhase c (.asking (k.presented (s.dataVersion h))))
  | beginWithMut {s c h f} (call : program c = .withMut h f) (at_ : s.phase c = .ready) :
      Step k program s (.begin c) (s.setPhase c (k.compute f (s.dataVersion h)))
  | lookup {s c presented} (at_ : s.phase c = .asking presented) :
      Step k program s (.lookup c) (s.setPhase c
        (if hit (s.entry (program c).handle) presented then .received .notModified s.log.length
          else .requested presented))
  | serveGet {s c presented} (at_ : s.phase c = .requested presented) :
      Step k program s (.serveGet c)
        (s.setPhase c (.answered presented (k.serveGet s.object presented) s.log.length))
  | failGet {s c presented} (at_ : s.phase c = .requested presented) :
      Step k program s (.failGet c) (s.setPhase c (.answered presented .error s.log.length))
  | cacheGet {s c presented reply position} (at_ : s.phase c = .answered presented reply position) :
      Step k program s (.cacheGet c)
        ((s.setEntry (program c).handle
          (k.cacheGet (s.entry (program c).handle) presented reply)).setPhase c
            (.received reply position))
  | landGet {s c reply position} (at_ : s.phase c = .received reply position) :
      Step k program s (.landGet c) (s.landGet k c (program c) reply position)
  | runClosure {s c h f fetched} (call : program c = .withData h f)
      (at_ : s.phase c = .settled fetched) :
      Step k program s (.runClosure c)
        ((s.setPhase c (.returned (if fetched then .outcome (f (s.data h)) else .failed))).noteRun c
          (s.data h))
  | servePut {s c dv outcome payload} (at_ : s.phase c = .putting dv outcome payload)
      (admitted : admits s.object dv.putMode = true) :
      Step k program s (.servePut c)
        ((s.push { object := { payload, version := k.stamp s.log.length payload }, call := c }).setPhase c
          (.stored dv outcome (k.stamp s.log.length payload) (s.log.length + 1)))
  | refusePut {s c dv outcome payload} (at_ : s.phase c = .putting dv outcome payload)
      (refused : admits s.object dv.putMode = false) :
      Step k program s (.servePut c) (s.setPhase c (.asking none))
  | failPut {s c dv outcome payload} (at_ : s.phase c = .putting dv outcome payload) :
      Step k program s (.failPut c) (s.setPhase c (.returned .failed))
  | cachePut {s c dv outcome version position}
      (at_ : s.phase c = .stored dv outcome version position) :
      Step k program s (.cachePut c)
        ((s.setEntry (program c).handle (some (k.eTag version))).setPhase c
          (.acknowledged dv outcome version position))
  | landPut {s c dv outcome version position}
      (at_ : s.phase c = .acknowledged dv outcome version position) :
      Step k program s (.landPut c)
        (((s.setHandle (program c).handle (some { dv with version := some version }) position).noteAck
          (program c).handle position).setPhase c (.returned (.outcome outcome)))
  | expire {s} (h : H) : Step k program s (.expire h) (s.setEntry h none)

def machine [DecidableEq V] [DecidableEq T] [DecidableEq H] [DecidableEq C]
    (k : Backend D B V T) (program : C → Call H D R) :
    Machine (State D B V T H C R) (Action H C) where
  init := fun s => s = .start
  step := Step k program

section Linear

variable (k : Backend D B V T) (program : C → Call H D R) (log : List (Write B V C))

def Holds (dv : DataVersion D V) : Prop :=
  ∃ write ∈ log, dv.version = some write.object.version ∧ k.fromSlice write.object.payload = some dv.data

/-- The `n`-th write is the call's, whose closure answers `result` on the document before it. -/
def TookEffect (c : C) (n : Nat) (result : R) : Prop :=
  ∃ write h f, log[n]? = some write ∧ write.call = c ∧ program c = .withMut h f ∧ result = (f (k.document log n)).2

def Knows (c : C) : Phase D B V T R → Prop
  | .answered _ (.found object) _ => ∃ write ∈ log, write.object = object
  | .received (.found object) _ => ∃ write ∈ log, write.object = object
  | .putting dv outcome payload =>
    k.toVec dv.data = some payload ∧ ∃ h f held, program c = .withMut h f ∧
      f (held.getD default).data = (dv.data, outcome) ∧ (held.getD default).version = dv.version ∧
      ∀ before, held = some before → Holds k log before
  | .stored dv outcome version position =>
    ∃ n write, position = n + 1 ∧ log[n]? = some write ∧ write.object.version = version ∧
      k.toVec dv.data = some write.object.payload ∧ TookEffect k program log c n outcome
  | .acknowledged dv outcome version position =>
    ∃ n write, position = n + 1 ∧ log[n]? = some write ∧ write.object.version = version ∧
      k.toVec dv.data = some write.object.payload ∧ TookEffect k program log c n outcome
  | .returned (.outcome result) =>
    ∀ h f, program c = .withMut h f → ∃ n, TookEffect k program log c n result
  | _ => True

def Phase.served : Phase D B V T R → Prop
  | .stored .. => True
  | .acknowledged .. => True
  | .returned _ => True
  | _ => False

structure Linear (held : H → Option (DataVersion D V)) (phase : C → Phase D B V T R) : Prop where
  version : ∀ n write, log[n]? = some write → write.object.version = k.stamp n write.object.payload
  closure : ∀ n write, log[n]? = some write → ∃ h f, program write.call = .withMut h f ∧
    k.toVec (f (k.document log n)).1 = some write.object.payload
  once : (log.map Write.call).Nodup
  served : ∀ write ∈ log, (phase write.call).served
  holds : ∀ h dv, held h = some dv → Holds k log dv
  knows : ∀ c, Knows k program log c (phase c)

end Linear

section Lemmas

variable {k : Backend D B V T} {program : C → Call H D R} {log more : List (Write B V C)}

theorem document_append (bound : n ≤ log.length) : k.document (log ++ more) n = k.document log n := by
  cases n with
  | zero => rfl
  | succ => simp only [Backend.document, List.getElem?_append_left bound]

theorem document_succ {write : Write B V C} (found : log[n]? = some write)
    (decoded : k.fromSlice write.object.payload = some data) : k.document log (n + 1) = data := by
  simp only [Backend.document, found, bind_some, decoded, getD_some]

variable {dv : DataVersion D V} {c : C}

omit [Inhabited D] in
theorem Holds.append (holds : Holds k log dv) : Holds k (log ++ more) dv := by
  obtain ⟨write, member, same, decoded⟩ := holds
  exact ⟨write, List.mem_append_left _ member, same, decoded⟩

theorem TookEffect.append {n : Nat} {result : R} (took : TookEffect k program log c n result) :
    TookEffect k program (log ++ more) c n result := by
  obtain ⟨write, h, f, found, mine, call, same⟩ := took
  refine ⟨write, h, f, Log.found_append found, mine, call, ?_⟩
  rw [document_append (Nat.le_of_lt (Log.lt_length found)), same]

theorem Knows.append {phase : Phase D B V T R} (knows : Knows k program log c phase) :
    Knows k program (log ++ more) c phase := by
  cases phase with
  | answered _ reply =>
    cases reply with
    | found =>
      obtain ⟨write, member, same⟩ := knows
      exact ⟨write, List.mem_append_left _ member, same⟩
    | _ => trivial
  | received reply =>
    cases reply with
    | found =>
      obtain ⟨write, member, same⟩ := knows
      exact ⟨write, List.mem_append_left _ member, same⟩
    | _ => trivial
  | putting =>
    obtain ⟨encoded, h, f, held, call, ran, same, holds⟩ := knows
    exact ⟨encoded, h, f, held, call, ran, same, fun before eq => (holds before eq).append⟩
  | stored =>
    obtain ⟨n, write, place, found, same, encoded, took⟩ := knows
    exact ⟨n, write, place, Log.found_append found, same, encoded, took.append⟩
  | acknowledged =>
    obtain ⟨n, write, place, found, same, encoded, took⟩ := knows
    exact ⟨n, write, place, Log.found_append found, same, encoded, took.append⟩
  | returned answer =>
    cases answer with
    | outcome =>
      intro h f call
      obtain ⟨n, took⟩ := knows h f call
      exact ⟨n, took.append⟩
    | failed => trivial
  | _ => trivial

variable {held : H → Option (DataVersion D V)} {phase : C → Phase D B V T R}

theorem Linear.knows_at (linear : Linear k program log held phase) (at_ : phase c = now) : Knows k program log c now :=
  at_ ▸ linear.knows c

theorem Linear.setPhase [DecidableEq C] (linear : Linear k program log held phase)
    (knows : Knows k program log c next) (served : (phase c).served → next.served) :
    Linear k program log held (Function.update phase c next) :=
  { linear with
    served := by
      intro write member
      by_cases mine : write.call = c
      · rw [mine, update_self]
        exact served (mine ▸ linear.served write member)
      · rw [update_of_ne mine]
        exact linear.served write member
    knows := by
      intro other
      by_cases mine : other = c
      · rw [mine, update_self]
        exact knows
      · rw [update_of_ne mine]
        exact linear.knows other }

theorem Linear.setHandle [DecidableEq H] (linear : Linear k program log held phase) {h : H}
    (holds : ∀ dv, next = some dv → Holds k log dv) :
    Linear k program log (Function.update held h next) phase :=
  { linear with
    holds := by
      intro other dv same
      by_cases mine : other = h
      · rw [mine, update_self] at same
        exact holds dv same
      · rw [update_of_ne mine] at same
        exact linear.holds other dv same }

/-- The compare-and-swap at work: a PUT that the store admits was computed from the newest document,
however stale the handle was when the call began. -/
theorem Linear.document_of_admits [DecidableEq V] (lawful : k.Lawful)
    (linear : Linear k program log held phase) (same : (before.getD default).version = dv.version)
    (holds : ∀ cached, before = some cached → Holds k log cached)
    (admitted : admits (log.getLast?.map Write.object) dv.putMode = true) :
    k.document log log.length = (before.getD default).data := by
  cases before with
  | none =>
    have created : dv.version = none := same.symm
    simp only [DataVersion.putMode, created, elim_none, admits, isNone_map,
      isNone_iff_eq_none, List.getLast?_eq_none_iff] at admitted
    subst admitted
    rfl
  | some cached =>
    obtain ⟨write, member, version, decoded⟩ := holds cached rfl
    have updated : dv.version = some write.object.version := same.symm.trans version
    simp only [DataVersion.putMode, updated, elim_some, admits, beq_iff_eq, map_map, map_eq_some_iff, comp] at admitted
    obtain ⟨last, newest, match_⟩ := admitted
    obtain ⟨n, found⟩ := List.getElem?_of_mem member
    obtain ⟨m, length, foundLast⟩ := Log.getLast?_eq_some newest
    have payload : last.object.payload = write.object.payload := by
      apply lawful.same_payload m n
      rw [← linear.version m last foundLast, ← linear.version n write found, match_]
    rw [length]
    exact document_succ foundLast (payload ▸ decoded)

theorem Linear.append [DecidableEq V] [DecidableEq C] (lawful : k.Lawful)
    (linear : Linear k program log held phase) {outcome : R} {payload : B} (at_ : phase c = .putting dv outcome payload)
    (admitted : admits (log.getLast?.map Write.object) dv.putMode = true) :
    Linear k program
      (log ++ [{ object := { payload, version := k.stamp log.length payload }, call := c }]) held
      (Function.update phase c
        (.stored dv outcome (k.stamp log.length payload) (log.length + 1))) := by
  obtain ⟨encoded, h, f, _, call, ran, same, holds⟩ := linear.knows_at at_
  have newest := linear.document_of_admits lawful same holds admitted
  have fresh : ∀ write ∈ log, write.call ≠ c := by
    intro write member mine
    have served := linear.served write member
    rw [mine, at_] at served
    exact served
  have effect : f (k.document log log.length) = (dv.data, outcome) := by rw [newest, ran]
  refine ⟨?version, ?closure, ?once, ?served, ?holds, ?knows⟩
  case version =>
    intro n write found
    rcases Log.found_concat found with old | ⟨rfl, rfl⟩
    · exact linear.version n write old
    · rfl
  case closure =>
    intro n write found
    rcases Log.found_concat found with old | ⟨rfl, rfl⟩
    · rw [document_append (Nat.le_of_lt (Log.lt_length old))]
      exact linear.closure n write old
    · rw [document_append (Nat.le_refl _)]
      exact ⟨h, f, call, by rw [effect]; exact encoded⟩
  case once =>
    rw [List.map_append, List.nodup_append]
    refine ⟨linear.once, by simp, ?_⟩
    rintro _ old _ (_ | ⟨_, ⟨⟩⟩) rfl
    obtain ⟨write, member, mine⟩ := List.mem_map.mp old
    exact fresh write member mine
  case served =>
    intro write member
    rcases Log.mem_concat.mp member with old | rfl
    · rw [update_of_ne (fresh write old)]
      exact linear.served write old
    · rw [update_self]
      trivial
  case holds => exact fun h dv same => (linear.holds h dv same).append
  case knows =>
    intro other
    by_cases mine : other = c
    · subst mine
      rw [update_self]
      refine ⟨log.length, _, rfl, List.getElem?_concat_length, rfl, encoded, _, h, f,
        List.getElem?_concat_length, rfl, call, ?_⟩
      rw [document_append (Nat.le_refl _), effect]
    · rw [update_of_ne mine]
      exact (linear.knows other).append

private theorem knows_compute {h : H} {f : D → D × R} (call : program c = .withMut h f)
    {before : Option (DataVersion D V)} (holds : ∀ dv, before = some dv → Holds k log dv) :
    Knows k program log c (k.compute f before) := by
  simp only [Backend.compute]
  cases encoded : k.toVec (f (before.getD default).data).1 with
  | none => trivial
  | some => exact ⟨encoded, h, f, before, call, rfl, rfl, holds⟩

private theorem knows_serveGet [DecidableEq T] {presented : Option T} (position : Nat) : Knows k program log c
      (.answered presented (k.serveGet (log.getLast?.map Write.object) presented) position) := by
  cases newest : log.getLast? with
  | none => trivial
  | some write =>
    simp only [map_some, Backend.serveGet]
    split
    · trivial
    · exact ⟨write, List.mem_of_getLast? newest, rfl⟩

private theorem Linear.landGet [DecidableEq H] [DecidableEq C] {s : State D B V T H C R}
    (linear : Linear k program s.log s.dataVersion s.phase) {reply : GetReply B V} {position : Nat}
    (at_ : s.phase c = .received reply position) :
    Linear k program (s.landGet k c (program c) reply position).log
      (s.landGet k c (program c) reply position).dataVersion
      (s.landGet k c (program c) reply position).phase := by
  have knows : ∀ fetched, Knows k program s.log c ((program c).afterGet fetched) := by
    intro fetched
    cases program c <;> cases fetched <;> trivial
  have unserved : ∀ next : Phase D B V T R, (s.phase c).served → next.served := by
    intro next served
    rw [at_] at served
    exact served.elim
  cases landing : k.land (program c) reply with
  | keep =>
    simp only [State.landGet, landing]
    exact linear.setPhase (knows true) (unserved _)
  | fail =>
    simp only [State.landGet, landing]
    exact linear.setPhase (knows false) (unserved _)
  | replace next =>
    have holds : ∀ dv, next = some dv → Holds k s.log dv := by
      rintro _ rfl
      cases reply with
      | found =>
        obtain ⟨write, member, rfl⟩ := linear.knows_at at_
        simp only [Backend.land] at landing
        split at landing
        next decoded =>
          simp only [Landing.replace.injEq, some.injEq] at landing
          exact ⟨write, member, by rw [← landing], by rw [← landing]; exact decoded⟩
        next => cases landing
      | notFound | error => cases landing
      | notModified => cases call : program c <;> rw [call] at landing <;> cases landing
    simp only [State.landGet, landing]
    exact (linear.setHandle holds).setPhase (knows true) (unserved _)

section Runs

variable [DecidableEq V] [DecidableEq T] [DecidableEq H] [DecidableEq C]

theorem Linear.step (lawful : k.Lawful) {s : State D B V T H C R}
    (linear : Linear k program s.log s.dataVersion s.phase) (step : Step k program s a t) :
    Linear k program t.log t.dataVersion t.phase := by
  cases step with
  | beginWith _ at_ | failGet at_ | refusePut at_ => exact linear.setPhase trivial (by rw [at_]; exact False.elim)
  | beginWithMut call at_ =>
    exact linear.setPhase (knows_compute call fun dv => linear.holds _ dv) (by rw [at_]; exact False.elim)
  | lookup at_ =>
    refine linear.setPhase ?_ (by rw [at_]; exact False.elim)
    split <;> trivial
  | serveGet at_ =>
    exact linear.setPhase (knows_serveGet _) (by rw [at_]; exact False.elim)
  | @cacheGet _ _ reply _ at_ =>
    have knows := linear.knows_at at_
    exact linear.setPhase (by cases reply <;> exact knows) (by rw [at_]; exact False.elim)
  | landGet at_ => exact linear.landGet at_
  | runClosure call at_ =>
    refine linear.setPhase ?_ (by rw [at_]; exact False.elim)
    split
    · exact fun h f other => by cases call.symm.trans other
    · trivial
  | servePut at_ admitted => exact linear.append lawful at_ admitted
  | failPut => exact linear.setPhase trivial (fun _ => trivial)
  | cachePut at_ =>
    have knows := linear.knows_at at_
    exact linear.setPhase knows (fun _ => trivial)
  | landPut at_ =>
    obtain ⟨n, write, _, found, same, encoded, took⟩ := linear.knows_at at_
    refine (linear.setHandle ?_).setPhase (fun _ _ _ => ⟨n, took⟩) (fun _ => trivial)
    rintro _ ⟨⟩
    exact ⟨write, List.mem_of_getElem? found, by rw [same], lawful.round_trip _ _ encoded⟩
  | expire => exact linear

omit [DecidableEq V] [DecidableEq T] [DecidableEq H] [DecidableEq C] in
theorem linear_start : Linear k program (State.start : State D B V T H C R).log
    (State.start : State D B V T H C R).dataVersion (State.start : State D B V T H C R).phase :=
  ⟨nofun, nofun, List.nodup_nil, nofun, nofun, fun _ => trivial⟩

theorem linear_of_reachable (lawful : k.Lawful) (reached : (machine k program).Reachable s) :
    Linear k program s.log s.dataVersion s.phase := by
  refine Machine.Reachable.invariant (P := fun s => Linear k program s.log s.dataVersion s.phase)
    ?_ (fun s a t linear step => linear.step lawful step) reached
  rintro _ rfl
  exact linear_start

/-- The stores that succeed form one linear history: each stored document is the closure of one
`with_mut` call applied to the document just before it, each call stores at most once, and a call
that returns its closure's result returns the result on the document it replaced. This is what the
other modules take `with_mut` to be. -/
theorem withMut_linear_history (lawful : k.Lawful) {s : State D B V T H C R}
    (reached : (machine k program).Reachable s) :
    (∀ n write, s.log[n]? = some write → ∃ h f, program write.call = .withMut h f ∧
      k.fromSlice write.object.payload = some (f (k.document s.log n)).1 ∧
      k.document s.log (n + 1) = (f (k.document s.log n)).1) ∧
    (s.log.map Write.call).Nodup ∧ (∀ c h f result, program c = .withMut h f → s.phase c = .returned (.outcome result) →
      ∃ n write, s.log[n]? = some write ∧ write.call = c ∧ result = (f (k.document s.log n)).2) := by
  have linear := linear_of_reachable lawful reached
  refine ⟨?_, linear.once, ?_⟩
  · intro n write found
    obtain ⟨h, f, call, encoded⟩ := linear.closure n write found
    have decoded := lawful.round_trip _ _ encoded
    exact ⟨h, f, call, decoded, document_succ found decoded⟩
  · intro c h f result call at_
    obtain ⟨n, write, h', f', found, mine, call', same⟩ := linear.knows_at at_ h f call
    obtain ⟨rfl, rfl⟩ : h = h' ∧ f = f' := by
      rw [call, Call.withMut.injEq] at call'
      exact call'
    exact ⟨n, write, found, mine, same⟩

end Runs

end Lemmas

end Model

def counterBackend : Backend Nat Nat Nat Nat where
  toVec := some
  fromSlice := some
  stamp := fun n payload => Nat.pair n payload
  eTag := some

theorem counterBackend_lawful : counterBackend.Lawful where
  round_trip := fun _ _ same => same.symm
  same_payload := fun _ _ _ _ same => (Nat.pair_eq_pair.mp same).2

def increments (call : Bool) : Call Bool Nat Nat :=
  .withMut call fun count => (count + 1, count)

/-- Both brokers create the document; the second one is refused, reads it and counts on from there. -/
theorem withMut_linear_history_conflict : ∃ s, (machine counterBackend increments).Reachable s ∧
    s.phase true = .returned (.outcome 1) ∧ ∃ n write, s.log[n]? = some write ∧ write.call = true ∧
      1 = counterBackend.document s.log n := by
  have start : (machine counterBackend increments).Reachable State.start := .init rfl
  have conflict := ((((start.step (.beginWithMut (c := false) rfl rfl)).step
    (.beginWithMut (c := true) rfl rfl)).step (.servePut (c := false) rfl rfl)).step
    (.refusePut (c := true) rfl rfl))
  have reread := (((conflict.step (.lookup (c := true) rfl)).step (.serveGet (c := true) rfl)).step
    (.cacheGet (c := true) rfl)).step (.landGet (c := true) rfl)
  have retried := (((reread.step (.beginWithMut (c := true) rfl rfl)).step
    (.servePut (c := true) rfl rfl)).step (.cachePut (c := true) rfl)).step (.landPut (c := true) rfl)
  exact ⟨_, retried, rfl, (withMut_linear_history counterBackend_lawful retried).2.2 true _ _ _ rfl rfl⟩

end Nisshi.Dynostore.OptiCon
