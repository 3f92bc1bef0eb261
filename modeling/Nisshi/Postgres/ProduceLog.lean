import Nisshi.Lib.Tiling
import Nisshi.Postgres.Produce

/-! What the watermark row's lock gives: the records of the calls that commit fill the log without gap or
overlap, and the batches of an idempotent producer are in order. -/

namespace Nisshi.Postgres.Produce

open Nisshi.Lib Nisshi.SansIo Nisshi.Storage.Producer List Option Function

namespace Attempt

variable {attempt : Attempt}

def size (attempt : Attempt) : Int :=
  attempt.inflated.records.length

theorem size_pos (attempt : Attempt) : 0 < attempt.size := by
  have := length_pos_of_ne_nil attempt.nonempty
  simp only [size]
  omega

theorem size_eq (attempt : Attempt) : attempt.size = attempt.deflated.lastOffsetDelta.toInt + 1 :=
  attempt.counted.symm

variable {attributes : Int16} {offset : Int} {record : Record} {rows : List RecordRow}

theorem offset_of_row {row : RecordRow} (converted : attempt.row attributes offset record = some row) :
    row.offset = offset := by
  obtain ⟨_, _, rfl⟩ := map_eq_some_iff.mp converted
  rfl

theorem rowsFrom_cons (converted : attempt.rowsFrom attributes offset (record :: rest) = some rows) :
    ∃ row later, attempt.row attributes offset record = some row ∧
      attempt.rowsFrom attributes (offset + 1) rest = some later ∧ rows = row :: later := by
  simp only [rowsFrom] at converted
  split at converted
  next row later first others =>
    cases converted
    exact ⟨row, later, first, others, rfl⟩
  next => cases converted

theorem offsets_of_rowsFrom (converted : attempt.rowsFrom attributes offset records = some rows) :
    rows.map RecordRow.offset = (List.range records.length).map fun i : Nat => offset + i := by
  induction records generalizing offset rows with
  | nil =>
    cases converted
    rfl
  | cons record rest ih =>
    obtain ⟨row, later, first, others, rfl⟩ := rowsFrom_cons converted
    rw [map_cons, ih others, offset_of_row first, length_cons, range_succ_eq_map, map_cons, List.map_map]
    simp only [Int.natCast_zero, Int.add_zero, cons.injEq, true_and]
    refine map_congr_left fun i _ => ?_
    simp only [comp, Nat.succ_eq_add_one, Int.natCast_add, Int.natCast_one]
    omega

theorem row_of_rowsFrom (converted : attempt.rowsFrom attributes offset records = some rows) {i : Nat}
    (found : records[i]? = some record) :
    ∃ row, rows[i]? = some row ∧ attempt.row attributes (offset + i) record = some row := by
  induction records generalizing offset rows i with
  | nil => cases found
  | cons head rest ih =>
    obtain ⟨row, later, first, others, rfl⟩ := rowsFrom_cons converted
    cases i with
    | zero =>
      cases found
      exact ⟨row, rfl, by simpa using first⟩
    | succ i =>
      obtain ⟨other, place, same⟩ := ih others found
      refine ⟨other, place, ?_⟩
      rw [← same]
      congr 1
      omega

theorem offsets_of_rows (converted : attempt.rows first = some rows) :
    rows.map RecordRow.offset = (List.range attempt.inflated.records.length).map
      fun i : Nat => first + i := by
  obtain ⟨_, _, from_⟩ := bind_eq_some_iff.mp converted
  exact offsets_of_rowsFrom from_

end Attempt

namespace Phase

@[simp]
def work : Phase → Option Work
  | .locked work => some work
  | .accepted work => some work
  | .started work => some work
  | .sequenced work _ => some work
  | .checked work => some work
  | .copied work => some work
  | .raised work => some work
  | _ => none

@[simp]
def checking : Phase → Bool
  | .accepted _ => true
  | .started _ => true
  | .sequenced _ _ => true
  | _ => false

@[simp]
def written : Phase → Option Work
  | .copied work => some work
  | .raised work => some work
  | _ => none

theorem inTransaction_of_work {phase : Phase} {work : Work} (found : phase.work = some work) :
    phase.inTransaction = true := by
  cases phase <;> first | rfl | cases found

theorem ne_answered {phase : Phase} (inside : phase.inTransaction = true) (answer : Answer) :
    phase ≠ .answered answer := by
  rintro rfl
  cases inside

end Phase

theorem Work.raised_eq (work : Work) (attempt : Attempt) : work.raised attempt = work.high.getD 0 + attempt.size := by
  rw [Work.raised, attempt.sameDelta, attempt.size_eq]
  cases work.high with
  | none => simp
  | some => simp [add_assoc]

namespace Tables

variable (tables : Tables) (work : Work) (attempt : Attempt)

@[simp]
theorem high_commit : (work.commit attempt tables).high = some (work.raised attempt) := rfl

@[simp]
theorem records_commit : (work.commit attempt tables).records = tables.records ++ work.rows := by
  cases detail : work.detail <;> by_cases starts : work.epoch = some .start <;>
    simp [Work.commit, append, setDetail, insertEpoch, detail, starts]

@[simp]
theorem owned_commit : (work.commit attempt tables).owned = tables.owned := by
  cases detail : work.detail <;> by_cases starts : work.epoch = some .start <;>
    simp [Work.commit, append, setDetail, insertEpoch, detail, starts]

end Tables

variable {A : Type} {program : A → Attempt} {s : State A}

/-- What a call has found under the lock still holds. -/
structure Holds (program : A → Attempt) (tables : Tables) (a : A) (phase : Phase) : Prop where
  high : ∀ work, phase.work = some work → work.high = tables.high
  checking : phase.checking = true → (program a).deflated.isIdempotent = true
  plain : ∀ work, phase.work = some work → (program a).deflated.isIdempotent = false →
    work.detail = none ∧ work.epoch = none
  rows : ∀ work, phase.written = some work → (program a).rows (work.high.getD 0) = some work.rows

theorem Holds.outside {a : A} (outside : phase.inTransaction = false) : Holds program tables a phase := by
  cases phase <;> first | cases outside; done | exact ⟨nofun, nofun, nofun, nofun⟩

/-- What the answer of a call says of its records. An answer without a code leaves open whether they are stored. -/
structure Finished (stored : List (A × Int)) (a : A) (phase : Phase) : Prop where
  ok : ∀ offset, phase = .answered (.ok offset) → (a, offset) ∈ stored
  ended : ∀ offset, (a, offset) ∈ stored → phase = .answered (.ok offset) ∨ phase = .answered (.failed none)
  once : ∀ offset other, (a, offset) ∈ stored → (a, other) ∈ stored → offset = other

theorem Finished.unstored {phase : Phase} {a : A} {stored : List (A × Int)} (none : ∀ offset, (a, offset) ∉ stored)
    (unanswered : ∀ offset, phase ≠ .answered (.ok offset)) : Finished stored a phase where
  ok := fun offset answered => absurd answered (unanswered offset)
  ended := fun offset member => absurd member (none offset)
  once := fun offset _ member _ => absurd member (none offset)

/-- The log and the calls: every offset below the high watermark holds the record it was given to. -/
structure Logged (program : A → Attempt) (s : State A) : Prop where
  exclusive : Exclusive Phase.inTransaction s.lock s.phase
  tiled : Tiled (fun a => (program a).size) 0 s.stored (s.tables.high.getD 0)
  offsets : s.tables.records.map RecordRow.offset =
    (List.range (s.tables.high.getD 0).toNat).map fun i : Nat => (i : Int)
  placed : ∀ a offset, (a, offset) ∈ s.stored → ∃ rows, (program a).rows offset = some rows ∧
    ∀ i row, rows[i]? = some row → s.tables.records[offset.toNat + i]? = some row
  source : ∀ row ∈ s.tables.records, ∃ a offset rows, (a, offset) ∈ s.stored ∧
    (program a).rows offset = some rows ∧ row ∈ rows
  finished : ∀ a, Finished s.stored a (s.phase a)
  owned : ∀ producer, s.tables.owned producer = true → s.everOwned producer = true
  holds : ∀ a, Holds program s.tables a (s.phase a)

namespace Logged

theorem length (logged : Logged program s) : s.tables.records.length = (s.tables.high.getD 0).toNat := by
  simpa using congrArg List.length logged.offsets

theorem not_stored (logged : Logged program s) (running : ∀ answer, s.phase a ≠ .answered answer) (offset : Int) :
    (a, offset) ∉ s.stored := by
  intro member
  rcases (logged.finished a).ended offset member with answered | answered
  · exact running _ answered
  · exact running _ answered

theorem outside (logged : Logged program s) (inside : (s.phase a).inTransaction = true)
    (other : b ≠ a) : (s.phase b).inTransaction = false := by
  rw [← Bool.not_eq_true]
  exact fun second => other (logged.exclusive.unique second inside)

theorem nonneg (logged : Logged program s) : 0 ≤ s.tables.high.getD 0 :=
  logged.tiled.start_le

variable [DecidableEq A] {a : A} {phase : Phase}

theorem setPhase (logged : Logged program s) (same : phase.inTransaction = (s.phase a).inTransaction)
    (running : ∀ answer, s.phase a ≠ .answered answer)
    (unanswered : ∀ offset, phase ≠ .answered (.ok offset)) (holds : Holds program s.tables a phase) :
    Logged program (s.setPhase a phase) :=
  { logged with
    exclusive := logged.exclusive.move same
    finished := (forall_update_iff s.phase (Finished s.stored)).mpr
      ⟨.unstored (logged.not_stored running) unanswered, fun b _ => logged.finished b⟩
    holds := (forall_update_iff s.phase fun b phase => Holds program s.tables b phase).mpr
      ⟨holds, fun b _ => logged.holds b⟩ }

theorem fail (logged : Logged program s) (inside : (s.phase a).inTransaction = true)
    (error : Option ErrorCode) : Logged program (s.release.setPhase a (.answered (.failed error))) :=
  { logged with
    exclusive := logged.exclusive.release inside rfl
    finished := (forall_update_iff s.phase (Finished s.stored)).mpr
      ⟨.unstored (logged.not_stored (Phase.ne_answered inside)) nofun, fun b _ => logged.finished b⟩
    holds := (forall_update_iff s.phase fun b phase => Holds program s.tables b phase).mpr
      ⟨.outside rfl, fun b _ => logged.holds b⟩ }

theorem acquire (logged : Logged program s) (at_ : s.phase a = .start) (free : s.lock = none) :
    Logged program ((s.acquire a).setPhase a
      (.locked { high := s.tables.high, epoch := none, detail := none, rows := [] })) :=
  { logged with
    exclusive := Exclusive.acquire (free ▸ logged.exclusive) rfl
    finished := (forall_update_iff s.phase (Finished s.stored)).mpr
      ⟨.unstored (logged.not_stored fun _ => by rw [at_]; nofun) nofun, fun b _ => logged.finished b⟩
    holds := (forall_update_iff s.phase fun b phase => Holds program s.tables b phase).mpr
      ⟨⟨fun _ found => some.inj found ▸ rfl, nofun, fun _ found _ => some.inj found ▸ ⟨rfl, rfl⟩,
        nofun⟩, fun b _ => logged.holds b⟩ }

omit [DecidableEq A] in
theorem setTables (logged : Logged program s) {t : State A} (high : t.tables.high = s.tables.high)
    (records : t.tables.records = s.tables.records) (lock : t.lock = s.lock) (phase : t.phase = s.phase)
    (stored : t.stored = s.stored) (owned : ∀ producer, t.tables.owned producer = true → t.everOwned producer = true) :
    Logged program t where
  exclusive := by
    rw [lock, phase]
    exact logged.exclusive
  tiled := by
    rw [stored, high]
    exact logged.tiled
  offsets := by
    rw [records, high]
    exact logged.offsets
  placed := by
    rw [stored, records]
    exact logged.placed
  source := by
    rw [stored, records]
    exact logged.source
  finished := by
    rw [stored, phase]
    exact logged.finished
  owned := owned
  holds := fun a => by
    have holds := logged.holds a
    rw [phase]
    exact ⟨fun work found => (holds.high work found).trans high.symm, holds.checking, holds.plain, holds.rows⟩

theorem finished_concat (logged : Logged program s) (running : ∀ answer, s.phase a ≠ .answered answer)
    (told : answer = .ok offset ∨ answer = .failed none) :
    ∀ b, Finished (s.stored ++ [(a, offset)]) b (update s.phase a (.answered answer) b) := by
  refine (forall_update_iff s.phase (Finished (s.stored ++ [(a, offset)]))).mpr ⟨?_, fun b other => ?_⟩
  · have only : ∀ place, (a, place) ∈ s.stored ++ [(a, offset)] → place = offset := by
      intro place member
      rcases Log.mem_concat.mp member with old | new
      · exact absurd old (logged.not_stored running place)
      · exact (Prod.mk.inj new).2
    refine ⟨fun place answered => ?_, fun place member => ?_, fun _ _ first second => ?_⟩
    · rcases told with rfl | rfl
      · cases answered
        exact Log.mem_concat.mpr (.inr rfl)
      · cases answered
    · rw [only place member]
      exact told.imp (congrArg _) (congrArg _)
    · rw [only _ first, only _ second]
  · have before := logged.finished b
    have old : ∀ {place}, (b, place) ∈ s.stored ++ [(a, offset)] → (b, place) ∈ s.stored := by
      intro place member
      rcases Log.mem_concat.mp member with old | new
      · exact old
      · exact absurd (Prod.mk.inj new).1 other
    exact ⟨fun place answered => mem_append_left _ (before.ok place answered),
      fun place member => before.ended place (old member),
      fun _ _ first second => before.once _ _ (old first) (old second)⟩

theorem commit (logged : Logged program s) {work : Work} (at_ : s.phase a = .raised work)
    (told : answer = .ok (work.high.getD 0) ∨ answer = .failed none) :
    Logged program (s.commit program a work answer) := by
  have inside : (s.phase a).inTransaction = true := by
    rw [at_]
    rfl
  have holds := logged.holds a
  rw [at_] at holds
  have high := holds.high work rfl
  have converted := holds.rows work rfl
  rw [high] at converted told
  rw [State.commit, high]
  have raised : work.raised (program a) = s.tables.high.getD 0 + (program a).size := by
    rw [Work.raised_eq, high]
  have nonneg := logged.nonneg
  exact {
    exclusive := logged.exclusive.release inside rfl
    tiled := by
      have extended := logged.tiled.snoc a (program a).size_pos
      rw [← raised] at extended
      exact extended
    offsets := by
      have sum : ((s.tables.high.getD 0) + (program a).size).toNat =
          (s.tables.high.getD 0).toNat + (program a).inflated.records.length := by
        rw [Attempt.size]
        omega
      simp only [State.setPhase, State.release, State.noteStored, State.setTables, Tables.high_commit,
        Tables.records_commit, getD_some, raised, sum, map_append, logged.offsets,
        Attempt.offsets_of_rows converted, range_add, List.map_map]
      congr 1
      refine map_congr_left fun i _ => ?_
      simp only [comp]
      omega
    placed := by
      intro b offset member
      rcases mem_append.mp member with old | new
      · obtain ⟨rows, of, placed⟩ := logged.placed b offset old
        refine ⟨rows, of, fun i row found => ?_⟩
        simp only [State.setPhase, State.release, State.noteStored, State.setTables, Tables.records_commit]
        have place := placed i row found
        rw [getElem?_append_left (List.getElem?_eq_some_iff.mp place).1]
        exact place
      · obtain ⟨rfl, rfl⟩ := Prod.mk.inj (mem_singleton.mp new)
        refine ⟨work.rows, converted, fun i row found => ?_⟩
        simp only [State.setPhase, State.release, State.noteStored, State.setTables, Tables.records_commit]
        rw [getElem?_append_right (by rw [logged.length]; omega), logged.length, Nat.add_sub_cancel_left]
        exact found
    source := by
      simp only [State.setPhase, State.release, State.noteStored, State.setTables, Tables.records_commit]
      intro row member
      rcases mem_append.mp member with old | new
      · obtain ⟨b, offset, rows, stored, of, within⟩ := logged.source row old
        exact ⟨b, offset, rows, mem_append_left _ stored, of, within⟩
      · exact ⟨a, _, work.rows, mem_append_right _ (mem_singleton_self _), converted, new⟩
    finished := logged.finished_concat (Phase.ne_answered inside) told
    owned := by
      intro producer found
      simp only [State.setPhase, State.release, State.noteStored, State.setTables, Tables.owned_commit] at found
      exact logged.owned producer found
    holds := (forall_update_iff s.phase fun b phase => Holds program _ b phase).mpr
      ⟨.outside rfl, fun b other => .outside (logged.outside inside other)⟩ }

theorem step (logged : Logged program s) {action : Action A} (step : Step program s action t) : Logged program t := by
  -- Every step inside the transaction keeps what the call has found so far.
  have keep {a : A} {before phase : Phase} {work : Work} (at_ : s.phase a = before) (found : before.work = some work)
      (still : phase.inTransaction = true)
      (holds : Holds program s.tables a before → Holds program s.tables a phase) :
      Logged program (s.setPhase a phase) := by
    subst at_
    have inside := Phase.inTransaction_of_work found
    exact logged.setPhase (still.trans inside.symm) (Phase.ne_answered inside)
      (fun _ => Phase.ne_answered still _) (holds (logged.holds a))
  cases step with
  | lock at_ free => exact logged.acquire at_ free
  | @skip a work at_ plain =>
    exact keep at_ rfl rfl fun holds => ⟨holds.high, nofun, holds.plain, nofun⟩
  | @accept a work verdict at_ idempotent passes =>
    refine keep at_ rfl rfl fun holds => ?_
    refine ⟨fun _ found => some.inj found ▸ holds.high work rfl, fun _ => idempotent, fun _ _ plain => ?_, nofun⟩
    rw [idempotent] at plain
    cases plain
  | @insertEpoch a work at_ | @readSequence a work increment at_ visible passes =>
    exact keep at_ rfl rfl fun holds => ⟨holds.high, holds.checking, holds.plain, nofun⟩
  | @upsertDetail a work increment sequence at_ fits =>
    refine keep at_ rfl rfl fun holds => ?_
    refine ⟨fun _ found => some.inj found ▸ holds.high work rfl, nofun, fun _ _ plain => ?_, nofun⟩
    rw [holds.checking rfl] at plain
    cases plain
  | @copy a work rows at_ converted fresh =>
    refine keep at_ rfl rfl fun holds => ?_
    exact ⟨fun _ found => some.inj found ▸ holds.high work rfl, nofun,
      fun _ found => some.inj found ▸ holds.plain work rfl,
      fun _ found => some.inj found ▸ converted⟩
  | @raise a work at_ =>
    exact keep at_ rfl rfl fun holds => ⟨holds.high, nofun, holds.plain, holds.rows⟩
  | commit at_ => exact logged.commit at_ (.inl rfl)
  | loseReply at_ => exact logged.commit at_ (.inr rfl)
  | refuseEpoch at_ | refuseSequence at_ => exact logged.fail (by rw [at_]; rfl) _
  | abort error inside => exact logged.fail inside error
  | abortStart _ at_ =>
    exact logged.setPhase (by rw [at_]; rfl) (by rw [at_]; nofun) nofun (.outside rfl)
  | addEpoch => exact logged.setTables rfl rfl rfl rfl rfl logged.owned
  | own owned =>
    refine logged.setTables rfl rfl rfl rfl rfl fun producer found => ?_
    have found : owned producer = true := found
    simp [State.own, found]

theorem of_reachable {owned : Int → Bool}
    (reached : (machine program epochs owned).Reachable s) : Logged program s := by
  refine reached.invariant ?_ fun _ _ _ logged step => logged.step step
  rintro _ rfl
  exact {
    exclusive := fun _ => ⟨nofun, nofun⟩
    tiled := .nil
    offsets := rfl
    placed := nofun
    source := nofun
    finished := fun _ => .unstored nofun nofun
    owned := fun _ found => found
    holds := fun _ => .outside rfl }

end Logged

end Nisshi.Postgres.Produce
