import Nisshi.Lib.Machine
import Nisshi.Lib.Exclusive

/-! `Postgres::update_group` and `Postgres::delete_groups` for one group, by any number of brokers. An
update is one READ COMMITTED transaction of several statements. Its first statement locks the group's row
until the transaction ends. A deletion is three statements that commit one by one. -/

namespace Nisshi.Postgres.Group

open Nisshi.Lib Function

variable {U D C : Type}

/-- What an update rests on outside the repository: the UUID texts and the hash of a group document. -/
structure Codec (U D : Type) where
  nil : U
  fromStr : String → Option U
  toString : U → String
  defaultHash : D → U

structure Codec.Lawful (k : Codec U D) : Prop where
  fromStr_toString : ∀ id, k.fromStr (k.toString id) = some id
  defaultHash_ne_nil : ∀ detail, k.defaultHash detail ≠ k.nil

structure Version where
  eTag : Option String
  deriving DecidableEq

/-- The row of `consumer_group_detail`. -/
structure Row (U D : Type) where
  eTag : U
  detail : D
  deriving DecidableEq

inductive UpdateError (D : Type) where
  | missingEtag
  | uuid
  | outdated (current : D) (version : Version)
  | other
  deriving DecidableEq

inductive Call (D : Type) where
  | update (detail : D) (version : Option Version)
  | delete

inductive Outcome (D : Type) where
  | updated (version : Version)
  | refused (error : UpdateError D)
  | deleted
  deriving DecidableEq

namespace Codec

variable (k : Codec U D)

def existingETag : Option Version → Except (UpdateError D) U
  | none => .ok k.nil
  | some version =>
    match version.eTag with
    | none => .error .missingEtag
    | some eTag =>
      match k.fromStr eTag with
      | none => .error .uuid
      | some eTag => .ok eTag

def versionOf (row : Row U D) : Version :=
  { eTag := some (k.toString row.eTag) }

def rowOf (detail : D) : Row U D :=
  { eTag := k.defaultHash detail, detail }

def Matches (version : Version) (row : Row U D) : Prop :=
  version.eTag.bind k.fromStr = some row.eTag

end Codec

/-- `consumer_group_detail_insert.sql`: the row it leaves and returns, or nothing when the row that is
there has another e-tag than `existing`. -/
def detailInsert [DecidableEq U] (stored : Option (Row U D)) (existing : U) (row : Row U D) : Option (Row U D) :=
  match stored with
  | none => some row
  | some current => if current.eTag = existing then some row else none

inductive Phase (U D : Type) where
  | start
  | upserted
  /-- The transaction has inserted or updated the detail and is not committed. -/
  | written (row : Row U D)
  /-- The transaction has met another version, and holds that row. -/
  | outdated (row : Row U D)
  | offsetsDeleted
  | detailDeleted
  /-- The call is over; `before` and `after` are the details stored before and after its last step. -/
  | finished (outcome : Outcome D) (before after : Option (Row U D))

namespace Phase

@[simp]
def inTransaction : Phase U D → Bool
  | .upserted => true
  | .written _ => true
  | .outdated _ => true
  | _ => false

@[simp]
def locksDetail : Phase U D → Bool
  | .written _ => true
  | .outdated _ => true
  | _ => false

@[simp]
def deleting : Phase U D → Bool
  | .offsetsDeleted => true
  | .detailDeleted => true
  | _ => false

end Phase

structure State (U D C : Type) where
  /-- The group has a committed row of `consumer_group`. -/
  group : Bool
  detail : Option (Row U D)
  /-- The update whose transaction holds the group's row, or inserts it. -/
  lock : Option C
  phase : C → Phase U D

namespace State

def start : State U D C where
  group := false
  detail := none
  lock := none
  phase := fun _ => .start

variable [DecidableEq C]

def setPhase (s : State U D C) (c : C) (phase : Phase U D) : State U D C :=
  { s with phase := Function.update s.phase c phase }

def acquire (s : State U D C) (c : C) : State U D C :=
  { s with lock := some c }

def release (s : State U D C) : State U D C :=
  { s with lock := none }

def store (s : State U D C) (row : Row U D) : State U D C :=
  { s with group := true, detail := some row }

def deleteDetail (s : State U D C) : State U D C :=
  { s with detail := none }

def deleteGroup (s : State U D C) : State U D C :=
  { s with group := false, detail := none }

end State

inductive Action (C : Type) where
  | upsert (c : C)
  | write (c : C)
  | commit (c : C)
  | abort (c : C)
  | deleteOffsets (c : C)
  | deleteDetail (c : C)
  | deleteGroup (c : C)

variable [DecidableEq U] [DecidableEq C]

inductive Step (k : Codec U D) (program : C → Call D) : State U D C → Action C → State U D C → Prop where
  | upsert {s c detail version} (call : program c = .update detail version) (at_ : s.phase c = .start)
      (free : s.lock = none) :
      Step k program s (.upsert c) ((s.acquire c).setPhase c .upserted)
  | refuse {s c detail version error} (call : program c = .update detail version)
      (at_ : s.phase c = .upserted) (unusable : k.existingETag version = .error error) :
      Step k program s (.write c)
        (s.release.setPhase c (.finished (.refused error) s.detail s.detail))
  | write {s c detail version existing row} (call : program c = .update detail version)
      (at_ : s.phase c = .upserted) (usable : k.existingETag version = .ok existing)
      (returned : detailInsert s.detail existing (k.rowOf detail) = some row) :
      Step k program s (.write c) (s.setPhase c (.written row))
  | conflict {s c detail version existing row} (call : program c = .update detail version)
      (at_ : s.phase c = .upserted) (usable : k.existingETag version = .ok existing)
      (kept : detailInsert s.detail existing (k.rowOf detail) = none) (current : s.detail = some row) :
      Step k program s (.write c) (s.setPhase c (.outdated row))
  | commit {s c row} (at_ : s.phase c = .written row) :
      Step k program s (.commit c)
        ((s.store row).release.setPhase c
          (.finished (.updated (k.versionOf row)) s.detail (some row)))
  /-- The commit is applied and its reply is lost. -/
  | loseReply {s c row} (at_ : s.phase c = .written row) :
      Step k program s (.commit c)
        ((s.store row).release.setPhase c (.finished (.refused .other) s.detail (some row)))
  | commitOutdated {s c row} (at_ : s.phase c = .outdated row) :
      Step k program s (.commit c) (s.release.setPhase c
        (.finished (.refused (.outdated row.detail (k.versionOf row))) s.detail s.detail))
  | abort {s c} (inside : (s.phase c).inTransaction = true) :
      Step k program s (.abort c)
        (s.release.setPhase c (.finished (.refused .other) s.detail s.detail))
  | deleteOffsets {s c} (call : program c = .delete) (at_ : s.phase c = .start) :
      Step k program s (.deleteOffsets c) (s.setPhase c .offsetsDeleted)
  | deleteDetail {s c} (at_ : s.phase c = .offsetsDeleted)
      (free : s.detail.isSome = true → ∀ d, (s.phase d).locksDetail = false) :
      Step k program s (.deleteDetail c) (s.deleteDetail.setPhase c .detailDeleted)
  | deleteGroup {s c} (at_ : s.phase c = .detailDeleted) (free : s.group = true → s.lock = none) :
      Step k program s (.deleteGroup c)
        (s.deleteGroup.setPhase c (.finished .deleted s.detail none))
  | abortDelete {s c} (deleting : (s.phase c).deleting = true) :
      Step k program s (.abort c)
        (s.setPhase c (.finished (.refused .other) s.detail s.detail))

def machine (k : Codec U D) (program : C → Call D) : Machine (State U D C) (Action C) where
  init := fun s => s = State.start
  step := Step k program

section Invariant

variable (k : Codec U D) (program : C → Call D) (stored : Option (Row U D))

omit [DecidableEq U] [DecidableEq C]

/-- The stored details that an update with this version replaces. -/
def Admitted (version : Option Version) : Prop :=
  match version with
  | none => stored = none
  | some version => stored = none ∨ ∃ row, stored = some row ∧ k.Matches version row

def Fair (detail : D) (version : Option Version) (before after : Option (Row U D)) : Outcome D → Prop
  | .updated stored => after = some (k.rowOf detail) ∧ stored = k.versionOf (k.rowOf detail) ∧ Admitted k before version
  | .refused (.outdated current stored) => after = before ∧ ∃ row, before = some row ∧
      current = row.detail ∧ stored = k.versionOf row
  | .refused .other => after = before ∨ after = some (k.rowOf detail) ∧ Admitted k before version
  | .refused _ => after = before
  | .deleted => False

def Knows (c : C) : Phase U D → Prop
  | .written row => ∃ detail version, program c = .update detail version ∧ row = k.rowOf detail ∧
      Admitted k stored version
  | .outdated row => stored = some row
  | .offsetsDeleted => program c = .delete
  | .detailDeleted => program c = .delete
  | .finished outcome before after => ∀ detail version, program c = .update detail version →
      Fair k detail version before after outcome
  | _ => True

structure Guarded (s : State U D C) : Prop where
  exclusive : Exclusive Phase.inTransaction s.lock s.phase
  group : s.detail.isSome = true → s.group = true
  hashed : ∀ row, s.detail = some row → row.eTag = k.defaultHash row.detail
  knows : ∀ c, Knows k program s.detail c (s.phase c)

end Invariant

section Lemmas

variable {k : Codec U D} {program : C → Call D} {stored other : Option (Row U D)} {c : C}
  {s t : State U D C}

omit [DecidableEq U] [DecidableEq C] in
theorem Knows.outside {phase : Phase U D} (knows : Knows k program stored c phase)
    (outside : phase.locksDetail = false) : Knows k program other c phase := by
  cases phase with
  | written | outdated => cases outside
  | _ => exact knows

omit [DecidableEq C] in
theorem detailInsert_eq_some {existing : U} {row new : Row U D}
    (returned : detailInsert stored existing new = some row) :
    row = new ∧ ∀ current, stored = some current → current.eTag = existing := by
  cases stored with
  | none =>
    cases returned
    exact ⟨rfl, nofun⟩
  | some =>
    simp only [detailInsert] at returned
    split at returned
    next same =>
      cases returned
      exact ⟨rfl, by rintro _ ⟨⟩; exact same⟩
    next => cases returned

omit [DecidableEq U] [DecidableEq C] in
theorem admitted_of_existing (lawful : k.Lawful) {version : Option Version} {existing : U}
    (usable : k.existingETag version = .ok existing)
    (hashed : ∀ row, stored = some row → row.eTag = k.defaultHash row.detail)
    (same : ∀ current, stored = some current → current.eTag = existing) :
    Admitted k stored version := by
  cases version with
  | none =>
    cases usable
    cases held : stored with
    | none => rfl
    | some current =>
      have nil := (hashed current held).symm.trans (same current held)
      exact absurd nil (lawful.defaultHash_ne_nil _)
  | some =>
    cases held : stored with
    | none => exact .inl rfl
    | some current =>
      refine .inr ⟨current, rfl, ?_⟩
      simp only [Codec.existingETag] at usable
      split at usable
      · cases usable
      next present =>
        split at usable
        · cases usable
        next parsed =>
          cases usable
          rw [Codec.Matches, present, Option.bind_some, parsed, same current held]

namespace Guarded

omit [DecidableEq U] [DecidableEq C] in
theorem knows_at (guarded : Guarded k program s) (at_ : s.phase c = phase) : Knows k program s.detail c phase :=
  at_ ▸ guarded.knows c

omit [DecidableEq U] in
theorem setPhase (guarded : Guarded k program s) {phase : Phase U D}
    (same : phase.inTransaction = (s.phase c).inTransaction)
    (knows : Knows k program s.detail c phase) : Guarded k program (s.setPhase c phase) :=
  { guarded with
    exclusive := guarded.exclusive.move same
    knows := (Function.forall_update_iff s.phase fun d phase => Knows k program s.detail d phase).mpr
      ⟨knows, fun d _ => guarded.knows d⟩ }

omit [DecidableEq U] in
theorem finish (guarded : Guarded k program s) (inside : (s.phase c).inTransaction = true)
    {phase : Phase U D} (leaves : phase.inTransaction = false) (knows : Knows k program s.detail c phase) :
    Guarded k program (s.release.setPhase c phase) :=
  { guarded with
    exclusive := guarded.exclusive.release inside leaves
    knows := (Function.forall_update_iff s.phase fun d phase => Knows k program s.detail d phase).mpr
      ⟨knows, fun d _ => guarded.knows d⟩ }

omit [DecidableEq U] [DecidableEq C] in
theorem outside_of_ne (guarded : Guarded k program s) (inside : (s.phase c).inTransaction = true)
    {d : C} (different : d ≠ c) : (s.phase d).locksDetail = false := by
  cases locks : (s.phase d).locksDetail with
  | false => rfl
  | true =>
    have entered : (s.phase d).inTransaction = true := by
      cases at_ : s.phase d <;> rw [at_] at locks <;> first | rfl | cases locks
    exact absurd (guarded.exclusive.unique entered inside) different

omit [DecidableEq U] in
theorem commit (guarded : Guarded k program s) {row : Row U D} (at_ : s.phase c = .written row)
    (told : outcome = .updated (k.versionOf row) ∨ outcome = .refused .other) :
    Guarded k program ((s.store row).release.setPhase c (.finished outcome s.detail (some row))) := by
  have inside : (s.phase c).inTransaction = true := by rw [at_]; rfl
  obtain ⟨detail, _, call, rfl, admitted⟩ := guarded.knows_at at_
  refine ⟨guarded.exclusive.release inside rfl, fun _ => rfl, by rintro _ ⟨⟩; rfl, ?_⟩
  refine (Function.forall_update_iff s.phase fun d phase =>
    Knows k program (some (k.rowOf detail)) d phase).mpr ⟨?_, fun d different =>
      (guarded.knows d).outside (guarded.outside_of_ne inside different)⟩
  intro detail' version' call'
  obtain ⟨rfl, rfl⟩ := Call.update.inj (call.symm.trans call')
  rcases told with rfl | rfl
  · exact ⟨rfl, rfl, admitted⟩
  · exact .inr ⟨rfl, admitted⟩

omit [DecidableEq U] in
theorem removeDetail (guarded : Guarded k program s)
    (free : s.detail.isSome = true → ∀ d, (s.phase d).locksDetail = false) {phase : Phase U D}
    (same : phase.inTransaction = (s.phase c).inTransaction) (knows : Knows k program none c phase) :
    Guarded k program (s.deleteDetail.setPhase c phase) where
  exclusive := guarded.exclusive.move same
  group := nofun
  hashed := nofun
  knows := by
    refine (Function.forall_update_iff s.phase fun d phase => Knows k program none d phase).mpr
      ⟨knows, fun d _ => ?_⟩
    cases held : s.detail with
    | none => exact held ▸ guarded.knows d
    | some => exact (guarded.knows d).outside (free (by rw [held]; rfl) d)

theorem step (lawful : k.Lawful) (guarded : Guarded k program s) (step : Step k program s action t) :
    Guarded k program t := by
  cases step with
  | @upsert c detail version call at_ free =>
    refine ⟨?_, guarded.group, guarded.hashed, ?_⟩
    · have exclusive := guarded.exclusive
      rw [free] at exclusive
      exact exclusive.acquire rfl
    · exact (forall_update_iff s.phase fun d phase => Knows k program s.detail d phase).mpr
        ⟨trivial, fun d _ => guarded.knows d⟩
  | @refuse c detail version error call at_ unusable =>
    refine guarded.finish (by rw [at_]; rfl) rfl fun detail' version' _ => ?_
    cases error with
    | outdated =>
      cases version with
      | none => cases unusable
      | some =>
        simp only [Codec.existingETag] at unusable
        split at unusable
        · cases unusable
        · split at unusable <;> cases unusable
    | other => exact .inl rfl
    | _ => rfl
  | @write c detail version existing row call at_ usable returned =>
    obtain ⟨rfl, same⟩ := detailInsert_eq_some returned
    exact guarded.setPhase (by rw [at_]; rfl)
      ⟨detail, version, call, rfl, admitted_of_existing lawful usable guarded.hashed same⟩
  | conflict _ at_ _ _ current => exact guarded.setPhase (by rw [at_]; rfl) current
  | commit at_ => exact guarded.commit at_ (.inl rfl)
  | loseReply at_ => exact guarded.commit at_ (.inr rfl)
  | @commitOutdated c row at_ =>
    have knows := guarded.knows_at at_
    exact guarded.finish (by rw [at_]; rfl) rfl fun _ _ _ => ⟨rfl, row, knows, rfl, rfl⟩
  | abort inside => exact guarded.finish inside rfl fun _ _ _ => .inl rfl
  | deleteOffsets call at_ => exact guarded.setPhase (by rw [at_]; rfl) call
  | @deleteDetail c at_ free =>
    have knows := guarded.knows_at at_
    exact guarded.removeDetail free (by rw [at_]; rfl) knows
  | @deleteGroup c at_ free =>
    have knows := guarded.knows_at at_
    have unlocked : s.detail.isSome = true → ∀ d, (s.phase d).locksDetail = false := by
      intro held d
      have out := guarded.exclusive.outside (c := d) (by rw [free (guarded.group held)]; nofun)
      cases at' : s.phase d <;> rw [at'] at out <;> first | rfl | cases out
    have removed : Guarded k program (s.deleteDetail.setPhase c (.finished .deleted s.detail none)) :=
      guarded.removeDetail unlocked (by rw [at_]; rfl)
        (fun detail version call => by cases knows.symm.trans call)
    exact { removed with group := nofun }
  | @abortDelete c deleting =>
    refine guarded.setPhase ?_ fun _ _ _ => .inl rfl
    cases at_ : s.phase c <;> rw [at_] at deleting <;> first | rfl | cases deleting

end Guarded

theorem guarded_of_reachable (lawful : k.Lawful) (reached : (machine k program).Reachable s) : Guarded k program s := by
  refine Machine.Reachable.invariant ?_ (fun _ _ _ guarded step => guarded.step lawful step) reached
  rintro _ rfl
  exact ⟨fun _ => ⟨nofun, nofun⟩, nofun, nofun, fun _ => trivial⟩

/-- An update that succeeds has replaced the detail of its version, or has created the detail when none
was stored; an update that fails has changed nothing, or has done the same and lost its reply; and nothing else but a
deletion changes the detail. -/
theorem update_group_replaces_version_or_creates (lawful : k.Lawful) (reached : (machine k program).Reachable s) :
    (∀ c detail version stored before after, program c = .update detail version →
      s.phase c = .finished (.updated stored) before after →
      after = some (k.rowOf detail) ∧ stored = k.versionOf (k.rowOf detail) ∧ (version = none → before = none) ∧
      (∀ expected, version = some expected → before = none ∨ ∃ row, before = some row ∧ k.Matches expected row)) ∧
    (∀ c detail version error before after, program c = .update detail version →
      s.phase c = .finished (.refused error) before after →
      after = before ∨ error = .other ∧ after = some (k.rowOf detail) ∧ Admitted k before version) ∧
    (∀ action t, (machine k program).step s action t → t.detail = s.detail ∨
      (∃ c outcome, action = .commit c ∧ (outcome = .refused .other ∨ ∃ version, outcome = .updated version) ∧
        t.phase c = .finished outcome s.detail t.detail) ∨
      ∃ c, program c = .delete ∧ t.detail = none) := by
  have guarded := guarded_of_reachable lawful reached
  refine ⟨?updated, ?refused, ?changes⟩
  case updated =>
    intro c detail version stored before after call at_
    have knows := guarded.knows_at at_
    obtain ⟨kept, same, admitted⟩ := knows detail version call
    refine ⟨kept, same, ?_, ?_⟩
    · rintro rfl
      exact admitted
    · rintro _ rfl
      exact admitted
  case refused =>
    intro c detail version error before after call at_
    have knows := guarded.knows_at at_
    have fair := knows detail version call
    cases error with
    | outdated => exact .inl fair.1
    | other => exact fair.imp_right fun stored => ⟨rfl, stored⟩
    | _ => exact .inl fair
  case changes =>
    intro action t step
    cases step with
    | @commit c row at_ =>
      exact .inr (.inl ⟨c, .updated _, rfl, .inr ⟨k.versionOf row, rfl⟩,
        by simp [State.setPhase, State.release, State.store]⟩)
    | @loseReply c row at_ =>
      exact .inr (.inl ⟨c, _, rfl, .inl rfl, by simp [State.setPhase, State.release, State.store]⟩)
    | @deleteDetail c at_ free =>
      have knows := guarded.knows_at at_
      exact .inr (.inr ⟨c, knows, rfl⟩)
    | @deleteGroup c at_ free =>
      have knows := guarded.knows_at at_
      exact .inr (.inr ⟨c, knows, rfl⟩)
    | _ => exact .inl rfl

end Lemmas

def twoDocuments : Codec String Bool where
  nil := ""
  fromStr := some
  toString := id
  defaultHash := fun document => if document then "a" else "b"

theorem twoDocuments_lawful : twoDocuments.Lawful where
  fromStr_toString := fun _ => rfl
  defaultHash_ne_nil := by decide

def createUpdateDelete : Fin 3 → Call Bool
  | 0 => .update true none
  | 1 => .update false (some { eTag := some "a" })
  | 2 => .delete

theorem update_group_replaces_version_or_creates_then : ∃ s : State String Bool (Fin 3),
    (machine twoDocuments createUpdateDelete).Reachable s ∧
    s.phase 1 = .finished (.updated { eTag := some "b" }) (some { eTag := "a", detail := true })
      (some { eTag := "b", detail := false }) ∧
    ∃ row, some { eTag := "a", detail := true } = some row ∧
      twoDocuments.Matches { eTag := some "a" } row := by
  have start : (machine twoDocuments createUpdateDelete).Reachable State.start := .init rfl
  have created := ((start.step (.upsert (c := 0) rfl rfl rfl)).step
    (.write (c := 0) rfl rfl rfl rfl)).step (.commit (c := 0) rfl)
  have updated := ((created.step (.upsert (c := 1) rfl rfl rfl)).step
    (.write (c := 1) rfl rfl rfl rfl)).step (.commit (c := 1) rfl)
  have replaced := ((update_group_replaces_version_or_creates twoDocuments_lawful updated).1 1 _ _ _ _ _
    rfl rfl).2.2.2 _ rfl
  exact ⟨_, updated, rfl, replaced.resolve_left nofun⟩

def createDeleteUpdate : Fin 3 → Call Bool
  | 0 => .update true none
  | 1 => .delete
  | 2 => .update false (some { eTag := some "a" })

/-- The update with the version of the deleted group succeeds, with no detail stored before it. -/
theorem update_group_revives_deleted_group : ∃ s : State String Bool (Fin 3),
    (machine twoDocuments createDeleteUpdate).Reachable s ∧
    s.phase 0 = .finished (.updated { eTag := some "a" }) none (some { eTag := "a", detail := true }) ∧
    s.phase 1 = .finished .deleted none none ∧
    s.phase 2 = .finished (.updated { eTag := some "b" }) none (some { eTag := "b", detail := false }) ∧
    s.detail = some { eTag := "b", detail := false } := by
  have start : (machine twoDocuments createDeleteUpdate).Reachable State.start := .init rfl
  have created := ((start.step (.upsert (c := 0) rfl rfl rfl)).step
    (.write (c := 0) rfl rfl rfl rfl)).step (.commit (c := 0) rfl)
  have deleted := ((created.step (.deleteOffsets (c := 1) rfl rfl)).step
    (.deleteDetail (c := 1) rfl (by decide))).step (.deleteGroup (c := 1) rfl (fun _ => rfl))
  have updated := ((deleted.step (.upsert (c := 2) rfl rfl rfl)).step
    (.write (c := 2) rfl rfl rfl rfl)).step (.commit (c := 2) rfl)
  exact ⟨_, updated, rfl, rfl, rfl, rfl⟩

end Nisshi.Postgres.Group
